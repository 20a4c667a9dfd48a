import ContentSecurity.Proofs.Grammar.Offsets

/-!
What a rule takes from its input. It takes the longest text of its language that stands in front, nothing
is lost, and it takes nothing only where no text of the language stands in front. On the bytes of a text
it takes the same, and never cuts a character apart.
-/
namespace ContentSecurity.Grammar

/-- With `Written found front` for what a rule may find and how it is written: the rule takes the longest
text in front that is written for something, or there is none and it takes nothing. -/
def Rule.TakesLongest {α : Type} (rule : Rule α) (Written : α → List Char → Prop)
    (input : List Char) : Prop :=
  match rule input with
  | some (found, rest) => ∃ front, input = front ++ rest ∧ Written found front ∧
      ∀ other longer, longer <+: input → Written other longer → longer <+: front
  | none => ∀ found front, front <+: input → ¬ Written found front

/-- What is found is the text itself. -/
def Itself (Language : List Char → Prop) (found front : List Char) : Prop :=
  front = found ∧ Language front

/-- What is taken is written in front, and reaches as far as whatever is written in front. -/
theorem Rule.takesLongest_of {α : Type} {rule : Rule α} {Written : α → List Char → Prop}
    {input : List Char}
    (hsound : ∀ found rest, rule input = some (found, rest) →
      ∃ front, input = front ++ rest ∧ Written found front)
    (hlongest : ∀ other longer, longer <+: input → Written other longer →
      ∃ found front rest, rule input = some (found, rest) ∧ input = front ++ rest ∧
        longer <+: front) : rule.TakesLongest Written input := by
  unfold Rule.TakesLongest
  split
  · next found rest hr =>
    obtain ⟨front, hinput, hfront⟩ := hsound found rest hr
    refine ⟨front, hinput, hfront, fun other longer hp hlonger => ?_⟩
    obtain ⟨found', front', rest', hr', hinput', hreach⟩ := hlongest other longer hp hlonger
    rw [hr] at hr'
    cases hr'
    rwa [List.append_cancel_right (hinput.symm.trans hinput')]
  · next hr =>
    intro other longer hp hlonger
    obtain ⟨found, front, rest, hr', -⟩ := hlongest other longer hp hlonger
    rw [hr] at hr'
    cases hr'

/-- A rule that takes whatever is written in front takes the longest, since it takes one text at most. -/
theorem Rule.takesLongest_of_eq_some_iff {α : Type} {rule : Rule α}
    {Written : α → List Char → Prop} {input : List Char}
    (h : ∀ found rest, rule input = some (found, rest) ↔
      ∃ front, input = front ++ rest ∧ Written found front) : rule.TakesLongest Written input := by
  refine Rule.takesLongest_of (fun found rest => (h found rest).1) ?_
  rintro other longer ⟨rest, hinput⟩ hlonger
  exact ⟨other, longer, rest, (h other rest).2 ⟨longer, hinput.symm, hlonger⟩, hinput.symm,
    List.prefix_rfl⟩

/-! ## Runs -/

section Runs

variable {plain : Char → Bool} {Plain : Char → Prop} (h : ∀ c, plain c = true ↔ Plain c)

include h

/-- No run in front is longer than the one that is split off. -/
theorem Encoded.prefix_spanEncoded (hp : ¬ Plain '%') {run : List Char} (he : Encoded Plain run)
    {input : List Char} (hrun : run <+: input) : run <+: (spanEncoded plain input).1 := by
  induction he generalizing input with
  | nil => exact List.nil_prefix
  | plain c run hc _ ih =>
    obtain ⟨rest, rfl⟩ := hrun
    have hne : c ≠ '%' := by
      rintro rfl
      exact hp hc
    rw [List.cons_append, spanEncoded]
    · simp only [(h c).2 hc, if_true]
      exact (List.cons_prefix_cons).2 ⟨rfl, ih (List.prefix_append run rest)⟩
    · rintro a b tail rfl
      exact absurd rfl hne
  | byte a b run ha hb _ ih =>
    obtain ⟨rest, rfl⟩ := hrun
    simp only [List.cons_append, spanEncoded, ha, hb, Bool.and_self, if_true]
    simpa only [List.cons_prefix_cons, true_and] using ih (List.prefix_append run rest)

omit h in
/-- An encoded byte does not end a run. -/
theorem not_startsEncoded_spanEncoded (plain : Char → Bool) (input : List Char) :
    ¬ StartsEncoded (spanEncoded plain input).2 := by
  fun_induction spanEncoded plain input with
  | case1 =>
    rintro ⟨a, b, rest, he, -⟩
    cases he
  | case2 a b rest hex run rest' hs ih => rwa [hs] at ih
  | case3 a b rest hex => exact (startsEncoded_percent_iff a b rest).not.2 hex
  | case4 c rest hbyte ok run rest' hs ih => rwa [hs] at ih
  | case5 c rest hbyte ok => exact not_startsEncoded_cons hbyte

end Runs

/-! ## Rules -/

theorem scheme_takesLongest (input : List Char) :
    scheme.TakesLongest (fun found => IsScheme (some found)) input :=
  Rule.takesLongest_of_eq_some_iff fun found rest => scheme_eq_some_iff input rest found

theorem addressLiteral_takesLongest (input : List Char) :
    addressLiteral.TakesLongest (Itself IsAddressLiteral) input := by
  refine Rule.takesLongest_of_eq_some_iff fun literal rest => ?_
  rw [addressLiteral_eq_some_iff]
  constructor
  · rintro ⟨rfl, hl⟩
    exact ⟨literal, rfl, rfl, hl⟩
  · rintro ⟨front, rfl, rfl, hl⟩
    exact ⟨rfl, hl⟩

theorem spanEncoded_of_domain {input : List Char} {taken : List Char × List Char}
    (h : domain input = some taken) : spanEncoded isDomainChar input = taken := by
  rw [domain_eq] at h
  split at h
  · cases h
  · exact Option.some.inj h

theorem domain_takesLongest (input : List Char) :
    domain.TakesLongest (Itself IsDomain) input := by
  refine Rule.takesLongest_of (fun name rest hd => ?_) ?_
  · obtain ⟨hinput, hname⟩ := isDomain_of_domain hd
    exact ⟨name, hinput, rfl, hname⟩
  · rintro _ name hp ⟨-, hname⟩
    have hreach := hname.encoded.prefix_spanEncoded isDomainChar_iff not_domainChar_percent hp
    have hstart : input.head? ≠ some '.' := by
      obtain ⟨rest, rfl⟩ := hp
      rw [List.head?_append_of_ne_nil _ hname.nonempty]
      exact hname.start
    have hrun : (spanEncoded isDomainChar input).1 ≠ [] := by
      intro hrun
      rw [hrun, List.prefix_nil] at hreach
      exact hname.nonempty hreach
    refine ⟨(spanEncoded isDomainChar input).1, _, (spanEncoded isDomainChar input).2, ?_,
      (spanEncoded_append _ input).symm, hreach⟩
    rw [domain_eq, if_neg (not_or.2 ⟨hstart, hrun⟩)]

theorem port_takesLongest (input : List Char) :
    port.TakesLongest (fun digits front => front = portText (some digits) ∧ IsPort (some digits))
      input := by
  refine Rule.takesLongest_of (fun digits rest hp => ?_) ?_
  · have hthere : port.ifThere input = (some digits, rest) := by rw [Rule.ifThere, hp]
    obtain ⟨hinput, hport⟩ := isPort_of_ifThere hthere
    exact ⟨_, hinput, rfl, hport⟩
  · rintro digits front ⟨rest, rfl⟩ ⟨rfl, hport⟩
    obtain ⟨hne, hdigits⟩ := hport digits rfl
    refine ⟨digits ++ rest.takeWhile Char.isDigit,
      portText (some (digits ++ rest.takeWhile Char.isDigit)), rest.dropWhile Char.isDigit,
      ?_, by simp [portText], ?_⟩
    · obtain ⟨digit, digits, rfl⟩ := List.exists_cons_of_ne_nil hne
      rw [portText, List.cons_append, port, List.takeWhile_append_of_pos hdigits,
        List.dropWhile_append_of_pos hdigits]
      rfl
    · exact List.cons_prefix_cons.2 ⟨rfl, List.prefix_append _ _⟩

theorem path_slash (run : List Char) :
    path ('/' :: run) = some ('/' :: (spanEncoded isPathChar run).1, (spanEncoded isPathChar run).2) :=
  rfl

theorem exists_spanEncoded_of_path {input : List Char} {taken : List Char × List Char}
    (h : path input = some taken) : ∃ run, input = '/' :: run ∧
      taken = ('/' :: (spanEncoded isPathChar run).1, (spanEncoded isPathChar run).2) := by
  have hslash : input.head? = some '/' := by
    by_contra hother
    rw [path_of_head hother] at h
    cases h
  obtain ⟨run, rfl⟩ := List.head?_eq_some_iff.1 hslash
  exact ⟨run, rfl, (Option.some.inj h).symm⟩

theorem path_takesLongest (input : List Char) : path.TakesLongest (Itself IsPath) input := by
  refine Rule.takesLongest_of (fun found rest hp => ?_) ?_
  · obtain ⟨run, rfl, htaken⟩ := exists_spanEncoded_of_path hp
    cases htaken
    exact ⟨_, by rw [List.cons_append, spanEncoded_append], rfl, _, rfl,
      encoded_spanEncoded isPathChar_iff run⟩
  · rintro _ _ ⟨rest, rfl⟩ ⟨-, run, rfl, hrun⟩
    have hreach := hrun.prefix_spanEncoded isPathChar_iff not_pathChar_percent
      (List.prefix_append run rest)
    exact ⟨_, _, _, path_slash (run ++ rest),
      by rw [List.cons_append, List.cons_append, spanEncoded_append],
      List.cons_prefix_cons.2 ⟨rfl, hreach⟩⟩

/-- The rule takes the longest text in front, and takes the same on the bytes of the text. -/
structure Rule.ReadsText {α β : Type} (rule : Rule α) (write : α → β) (byBytes : ByteRule β)
    (Written : α → List Char → Prop) (text : String) : Prop where
  longest : rule.TakesLongest Written text.toList
  uncut : byBytes text = .ok (rule.onText write text)

/-- From every text each rule takes the longest front of its language, and nothing only where there is no such
front. Carried out on the bytes it takes the same, and each of its cuts falls between two characters of
the text. No domain begins with a dot, and neither a domain nor a path ends in front of an encoded byte. -/
theorem rules_take_longest_front (text : String) :
    scheme.ReadsText id ByteRule.scheme (fun found => IsScheme (some found)) text ∧
    domain.ReadsText String.ofList ByteRule.domain (Itself IsDomain) text ∧
    addressLiteral.ReadsText String.ofList ByteRule.addressLiteral (Itself IsAddressLiteral) text ∧
    port.ReadsText String.ofList ByteRule.port
      (fun digits front => front = portText (some digits) ∧ IsPort (some digits)) text ∧
    path.ReadsText String.ofList ByteRule.path (Itself IsPath) text ∧
    (∀ taken ∈ domain text.toList, taken.1.head? ≠ some '.' ∧ ¬ StartsEncoded taken.2) ∧
    ∀ taken ∈ path text.toList, ¬ StartsEncoded taken.2 := by
  refine ⟨⟨scheme_takesLongest _, ByteRule.scheme_eq text⟩,
    ⟨domain_takesLongest _, ByteRule.domain_eq text⟩,
    ⟨addressLiteral_takesLongest _, ByteRule.addressLiteral_eq text⟩,
    ⟨port_takesLongest _, ByteRule.port_eq text⟩, ⟨path_takesLongest _, ByteRule.path_eq text⟩,
    ?_, ?_⟩
  · rintro ⟨name, rest⟩ hd
    have hstops := not_startsEncoded_spanEncoded isDomainChar text.toList
    rw [spanEncoded_of_domain hd] at hstops
    exact ⟨(isDomain_of_domain hd).2.start, hstops⟩
  · intro taken hp
    obtain ⟨run, -, rfl⟩ := exists_spanEncoded_of_path hp
    exact not_startsEncoded_spanEncoded isPathChar run

end ContentSecurity.Grammar
