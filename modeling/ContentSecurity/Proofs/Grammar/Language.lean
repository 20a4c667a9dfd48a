import ContentSecurity.Grammar.Value
import ContentSecurity.Proofs.Runs
import Mathlib

/-!
The languages of the rules. Each rule has a language that is told without it, and recognises what
stands in front of its input and belongs to the language. A domain, a port and a path go on as far
as they can, so they are found where the next character cannot belong to them; an address ends with
its bracket.
-/
namespace ContentSecurity.Grammar

/-- Writing a letter small is the only thing that happens to a character. -/
theorem toLower_eq_or_isAlphanum (c : Char) :
    c.toLower = c ∨ c.isAlphanum = true ∧ c.toLower.isAlphanum = true := by
  by_cases hc : c.isUpper = true
  · right
    have halpha : c.isAlpha = true := by simp [Char.isAlpha, hc]
    simp [Char.isAlphanum, halpha]
  · exact Or.inl (Char.toLower_eq_of_not_isUpper hc)

theorem head?_ne_of_forall_ne_cons {c : Char} {text : List Char}
    (h : ∀ rest, text = c :: rest → False) : text.head? ≠ some c := by
  intro hh
  obtain ⟨rest, hrest⟩ := List.head?_eq_some_iff.1 hh
  exact h rest hrest

/-! ## Languages -/

/-- Plain characters and encoded bytes, one after the other. -/
inductive Encoded (Plain : Char → Prop) : List Char → Prop where
  | nil : Encoded Plain []
  | plain (c : Char) (rest : List Char) (hc : Plain c) (h : Encoded Plain rest) :
      Encoded Plain (c :: rest)
  | byte (a b : Char) (rest : List Char) (ha : a.isHexDigit = true) (hb : b.isHexDigit = true)
      (h : Encoded Plain rest) : Encoded Plain ('%' :: a :: b :: rest)

def DomainChar (c : Char) : Prop :=
  c.isAlphanum = true ∨ c = '-' ∨ c = '.'

def PathChar (c : Char) : Prop :=
  c.isAlphanum = true ∨ c ∈ "_!#$&'()*+,./:;=?@[]~-".toList

structure IsDomain (text : List Char) : Prop where
  encoded : Encoded DomainChar text
  nonempty : text ≠ []
  start : text.head? ≠ some '.'

/-- Two groups or more with colons between them, of at most four digits of base 16 each. -/
def IsAddressGroups (inner : List Char) : Prop :=
  ∃ groups : List (List Char), 2 ≤ groups.length ∧
    (∀ group ∈ groups, group.length ≤ 4 ∧ ∀ c ∈ group, c.isHexDigit = true) ∧
    inner = [':'].intercalate groups

/-- The groups stand between brackets. -/
def IsAddressLiteral (text : List Char) : Prop :=
  ∃ inner, IsAddressGroups inner ∧ text = '[' :: inner ++ [']']

/-- A host, with the mark in front of it or not. A name without the mark has a dot in it or is
`localhost`. -/
inductive IsHost : Bool → List Char → Prop where
  | address (text : List Char) (h : IsAddressLiteral text) : IsHost false text
  | anySubdomain (text : List Char) (h : IsDomain text) : IsHost true text
  | name (text : List Char) (h : IsDomain text)
      (hn : '.' ∈ text ∨ Text.fold text = "localhost".toList) : IsHost false text

/-- A port has at least one digit, if it is there. -/
def IsPort (port : Option (List Char)) : Prop :=
  ∀ digits ∈ port, digits ≠ [] ∧ ∀ c ∈ digits, c.isDigit = true

/-- The mark for any subdomain, where it is there. -/
def markText (any : Bool) : List Char :=
  if any then ['*', '.'] else []

/-- The digits of a port with the colon in front, where they are there. -/
def portText : Option (List Char) → List Char
  | some digits => ':' :: digits
  | none => []

def IsPath (text : List Char) : Prop :=
  ∃ run, text = '/' :: run ∧ Encoded PathChar run

/-- A scheme in small letters. -/
def Scheme.spelling : Scheme → List Char
  | .http => "http://".toList
  | .https => "https://".toList

/-- The text of a scheme, whatever the case of its letters, or no text where there is none. -/
def IsScheme : Option Scheme → List Char → Prop
  | some scheme, text => Text.fold text = scheme.spelling
  | none, text => text = []

/-- A run has no other characters than plain ones and those of encoded bytes. -/
theorem Encoded.mem {Plain : Char → Prop} {text : List Char} (h : Encoded Plain text) {c : Char}
    (hc : c ∈ text) : Plain c ∨ c.isHexDigit = true ∨ c = '%' := by
  induction h with
  | nil => cases hc
  | plain first rest hp _ ih =>
    obtain rfl | hc := List.mem_cons.1 hc
    · exact Or.inl hp
    · exact ih hc
  | byte a b rest ha hb _ ih =>
    simp only [List.mem_cons] at hc
    obtain rfl | rfl | rfl | hc := hc
    · exact Or.inr (Or.inr rfl)
    · exact Or.inr (Or.inl ha)
    · exact Or.inr (Or.inl hb)
    · exact ih hc

theorem Encoded.head {Plain : Char → Prop} {text : List Char} (h : Encoded Plain text) :
    ∀ c ∈ text.head?, Plain c ∨ c = '%' := by
  cases h with
  | nil => nofun
  | plain c rest hc =>
    rintro _ ⟨⟩
    exact Or.inl hc
  | byte a b rest =>
    rintro _ ⟨⟩
    exact Or.inr rfl

theorem IsDomain.head {name : List Char} (h : IsDomain name) (rest : List Char) :
    ∀ c ∈ (name ++ rest).head?, DomainChar c ∨ c = '%' := by
  rw [List.head?_append_of_ne_nil _ h.nonempty]
  exact h.encoded.head

/-! ## Runs -/

section Runs

variable {plain : Char → Bool} {Plain : Char → Prop} (h : ∀ c, plain c = true ↔ Plain c)

include h

theorem encoded_spanEncoded (input : List Char) : Encoded Plain (spanEncoded plain input).1 := by
  fun_induction spanEncoded plain input with
  | case1 => exact .nil
  | case2 a b rest hex run rest' hs ih =>
    rw [hs] at ih
    simp only [Bool.and_eq_true] at hex
    exact .byte a b run hex.1 hex.2 ih
  | case3 => exact .nil
  | case4 c rest _ ok run rest' hs ih =>
    rw [hs] at ih
    exact .plain c run ((h c).1 ok) ih
  | case5 => exact .nil

/-- Where neither a plain character nor an encoded byte begins, there is no run. -/
theorem spanEncoded_of_head {rest : List Char} (hr : ∀ c ∈ rest.head?, ¬ Plain c ∧ c ≠ '%') :
    spanEncoded plain rest = ([], rest) := by
  fun_cases spanEncoded plain rest with
  | case1 => rfl
  | case2 => exact absurd rfl (hr '%' rfl).2
  | case3 => rfl
  | case4 c rest _ ok => exact absurd ((h c).1 ok) (hr c rfl).1
  | case5 => rfl

/-- A run is found up to where none begins. -/
theorem spanEncoded_of_encoded (hp : ¬ Plain '%') {run : List Char} (he : Encoded Plain run)
    {rest : List Char} (hr : ∀ c ∈ rest.head?, ¬ Plain c ∧ c ≠ '%') :
    spanEncoded plain (run ++ rest) = (run, rest) := by
  induction he with
  | nil => exact spanEncoded_of_head h hr
  | plain c run hc _ ih =>
    have hne : c ≠ '%' := by
      rintro rfl
      exact hp hc
    rw [List.cons_append, spanEncoded, ih]
    · simp [(h c).2 hc]
    · rintro a b tail rfl
      exact absurd rfl hne
  | byte a b run ha hb _ ih =>
    simp only [List.cons_append, spanEncoded, ha, hb, ih, Bool.and_self, if_true]

end Runs

/-! ## Rules -/

theorem isDomainChar_iff (c : Char) : isDomainChar c = true ↔ DomainChar c := by
  simp [isDomainChar, DomainChar, or_assoc]

theorem isPathChar_iff (c : Char) : isPathChar c = true ↔ PathChar c := by
  simp only [isPathChar, PathChar, Bool.or_eq_true, List.contains_iff_mem]

theorem not_domainChar_percent : ¬ DomainChar '%' := by
  rw [← isDomainChar_iff]
  decide

theorem not_pathChar_percent : ¬ PathChar '%' := by
  rw [← isPathChar_iff]
  decide

/-- Nothing in front of a text can belong to a domain. -/
def EndsDomain (rest : List Char) : Prop :=
  ∀ c ∈ rest.head?, ¬ DomainChar c ∧ c ≠ '%'

theorem domain_eq (input : List Char) :
    domain input =
      if input.head? = some '.' ∨ (spanEncoded isDomainChar input).1 = [] then none
      else some (spanEncoded isDomainChar input) := by
  unfold domain
  split
  · simp
  · next hdot =>
    have hstart : input.head? ≠ some '.' := head?_ne_of_forall_ne_cons hdot
    split
    · next hs => simp [hs]
    · next hne =>
      have hrun : (spanEncoded isDomainChar input).1 ≠ [] := fun he => hne _ (Prod.ext he rfl)
      simp [hstart, hrun]

theorem isDomain_of_domain {input name rest : List Char} (h : domain input = some (name, rest)) :
    input = name ++ rest ∧ IsDomain name := by
  rw [domain_eq] at h
  split at h
  · cases h
  · next hn =>
    obtain ⟨hstart, hne⟩ := not_or.1 hn
    have he := encoded_spanEncoded isDomainChar_iff input
    have hsplit := spanEncoded_append isDomainChar input
    rw [Option.some.inj h] at he hsplit hne
    refine ⟨hsplit.symm, he, hne, ?_⟩
    rwa [← hsplit, List.head?_append_of_ne_nil _ hne] at hstart

/-- A domain is found in front of what cannot belong to it. -/
theorem domain_append {name rest : List Char} (hn : IsDomain name) (hr : EndsDomain rest) :
    domain (name ++ rest) = some (name, rest) := by
  have hs := spanEncoded_of_encoded isDomainChar_iff not_domainChar_percent hn.encoded hr
  have hstart : (name ++ rest).head? ≠ some '.' := by
    rw [List.head?_append_of_ne_nil _ hn.nonempty]
    exact hn.start
  rw [domain_eq, hs, if_neg (not_or.2 ⟨hstart, hn.nonempty⟩)]

/-- What stands in joined pieces is the mark between them or stands in one of them. -/
theorem mem_intercalate {mark c : Char} {pieces : List (List Char)}
    (h : c ∈ [mark].intercalate pieces) : c = mark ∨ ∃ piece ∈ pieces, c ∈ piece := by
  induction pieces with
  | nil => simp [List.intercalate_nil] at h
  | cons first rest ih =>
    cases rest with
    | nil => exact Or.inr ⟨first, by simp, by simpa using h⟩
    | cons second rest =>
      rw [List.intercalate_cons_cons, List.mem_append, List.mem_append, List.mem_singleton] at h
      obtain (h | h) | h := h
      · exact Or.inr ⟨first, by simp, h⟩
      · exact Or.inl h
      · obtain he | ⟨piece, hp, hc⟩ := ih h
        · exact Or.inl he
        · exact Or.inr ⟨piece, List.mem_cons_of_mem _ hp, hc⟩

theorem IsAddressGroups.mem {inner : List Char} (h : IsAddressGroups inner) {c : Char}
    (hc : c ∈ inner) : c = ':' ∨ c.isHexDigit = true := by
  obtain ⟨groups, -, hgroups, rfl⟩ := h
  obtain he | ⟨group, hg, hm⟩ := mem_intercalate hc
  · exact Or.inl he
  · exact Or.inr ((hgroups group hg).2 c hm)

theorem isAddress_iff (inner : List Char) : isAddress inner = true ↔ IsAddressGroups inner := by
  have noColon {group : List Char} (hg : ∀ c ∈ group, c.isHexDigit = true) : ':' ∉ group :=
    fun hm => absurd (hg ':' hm) (by decide)
  simp only [isAddress, isAddressGroup, Bool.and_eq_true, List.all_eq_true, List.contains_iff_mem,
    decide_eq_true_eq]
  constructor
  · rintro ⟨hcolon, hgroups⟩
    refine ⟨inner.splitOn ':', ?_, hgroups, (List.intercalate_splitOn ':').symm⟩
    by_contra hshort
    obtain ⟨group, rest, hs⟩ := List.exists_cons_of_ne_nil (List.splitOn_ne_nil ':' inner)
    have hone : inner.splitOn ':' = [group] := by
      have hrest : rest = [] := by simpa [hs] using hshort
      rw [hs, hrest]
    have hinner : [':'].intercalate (inner.splitOn ':') = inner := List.intercalate_splitOn ':'
    rw [hone, List.intercalate_singleton] at hinner
    rw [← hinner] at hcolon
    exact noColon (hgroups group (by simp [hone])).2 hcolon
  · rintro ⟨groups, hlong, hgroups, rfl⟩
    obtain _ | ⟨first, _ | ⟨second, rest⟩⟩ := groups
    · simp at hlong
    · simp at hlong
    · refine ⟨by simp [List.intercalate_cons_cons], ?_⟩
      rw [List.splitOn_intercalate ':' (fun group hg => noColon (hgroups group hg).2) (by simp)]
      exact hgroups

/-- An address is found whatever follows its bracket. -/
theorem addressLiteral_eq_some_iff (input literal rest : List Char) :
    addressLiteral input = some (literal, rest) ↔
      input = literal ++ rest ∧ IsAddressLiteral literal := by
  constructor
  · intro h
    unfold addressLiteral at h
    split at h
    · next input =>
      simp only at h
      split at h
      · next close rest' hd =>
        split at h
        · next ha =>
          cases h
          have hclose : close = ']' := by
            have hn := head?_dropWhile_run (· != ']') input close (by rw [hd]; rfl)
            simpa using hn
          have hsplit := List.takeWhile_append_dropWhile (p := (· != ']')) (l := input)
          rw [hd] at hsplit
          exact ⟨by simp [hsplit], _, (isAddress_iff _).1 ha, by rw [hclose]⟩
        · cases h
      · cases h
    · cases h
  · rintro ⟨rfl, inner, hinner, rfl⟩
    have hopen : ∀ c ∈ inner, (c != ']') = true := by
      intro c hc
      rw [bne_iff_ne]
      rintro rfl
      exact absurd (hinner.mem hc) (by decide)
    have hshape : '[' :: inner ++ [']'] ++ rest = '[' :: (inner ++ ']' :: rest) := by simp
    have hclose : ∀ c ∈ (']' :: rest).head?, (c != ']') = false := by simp
    rw [hshape]
    simp only [addressLiteral, takeWhile_run_append hopen hclose, dropWhile_run_append hopen hclose,
      (isAddress_iff inner).2 hinner, if_true]

theorem port_of_head {input : List Char} (h : input.head? ≠ some ':') : port input = none := by
  unfold port
  split
  · exact absurd rfl h
  · rfl

theorem isPort_of_ifThere {input rest : List Char} {found : Option (List Char)}
    (h : port.ifThere input = (found, rest)) : input = portText found ++ rest ∧ IsPort found := by
  unfold Rule.ifThere at h
  split at h
  · next digits rest' hp =>
    cases h
    unfold port at hp
    split at hp
    · next input =>
      split at hp
      · cases hp
      · next hne =>
        cases hp
        refine ⟨by simp [portText], ?_⟩
        rintro digits ⟨⟩
        exact ⟨hne, fun c hc => List.mem_takeWhile_imp hc⟩
    · cases hp
  · cases h
    exact ⟨rfl, nofun⟩

/-- A port is found, or found missing, in front of what is neither a digit nor a colon. -/
theorem ifThere_port_append {found : Option (List Char)} (hf : IsPort found) (rest : List Char)
    (hr : ∀ c ∈ rest.head?, c ≠ ':' ∧ ¬ c.isDigit = true) :
    port.ifThere (portText found ++ rest) = (found, rest) := by
  have hend : ∀ c ∈ rest.head?, c.isDigit = false := fun c hc => by simpa using (hr c hc).2
  cases found with
  | none =>
    have hp : port rest = none := port_of_head fun hcolon => (hr ':' hcolon).1 rfl
    simp only [Rule.ifThere, portText, List.nil_append, hp]
  | some digits =>
    obtain ⟨hne, hd⟩ := hf digits rfl
    have hp : port (':' :: digits ++ rest) = some (digits, rest) := by
      rw [List.cons_append, port, takeWhile_run_append hd hend, dropWhile_run_append hd hend]
      cases digits with
      | nil => exact absurd rfl hne
      | cons digit digits => rfl
    simp only [Rule.ifThere, portText, hp]

theorem path_of_head {input : List Char} (h : input.head? ≠ some '/') : path input = none := by
  unfold path
  split
  · exact absurd rfl h
  · rfl

/-- A path is taken altogether when all of it is path. -/
theorem takesAll_path_iff (input : List Char) : path.takesAll input = true ↔ IsPath input := by
  have hall (run : List Char) :
      path.takesAll ('/' :: run) = true ↔ (spanEncoded isPathChar run).2 = [] := by
    simp only [Rule.takesAll, path]
    cases (spanEncoded isPathChar run).2 <;> simp
  constructor
  · intro h
    have hslash : input.head? = some '/' := by
      by_contra hother
      simp [Rule.takesAll, path_of_head hother] at h
    obtain ⟨run, rfl⟩ := List.head?_eq_some_iff.1 hslash
    have hsplit := spanEncoded_append isPathChar run
    have he := encoded_spanEncoded isPathChar_iff run
    rw [(hall run).1 h, List.append_nil] at hsplit
    rw [hsplit] at he
    exact ⟨run, rfl, he⟩
  · rintro ⟨run, rfl, he⟩
    have hs : spanEncoded isPathChar (run ++ []) = (run, []) :=
      spanEncoded_of_encoded isPathChar_iff not_pathChar_percent he nofun
    rw [List.append_nil] at hs
    rw [hall, hs]

/-- A scheme is found whatever follows its slashes. -/
theorem scheme_eq_some_iff (input rest : List Char) (found : Scheme) :
    scheme input = some (found, rest) ↔
      ∃ front, input = front ++ rest ∧ Text.fold front = found.spelling := by
  have hafter (spelling : Scheme) : Text.afterFolded? spelling.spelling input = some rest ↔
      ∃ front, input = front ++ rest ∧ Text.fold front = spelling.spelling := by
    rw [Text.afterFolded?_eq_some_iff]
    have hfold : Text.fold spelling.spelling = spelling.spelling := by cases spelling <;> rfl
    simp only [Text.alike, hfold, beq_iff_eq]
  have hdiffer {front other more : List Char} (he : front ++ rest = other ++ more)
      (hf : Text.fold front = Scheme.http.spelling) : Text.fold other ≠ Scheme.https.spelling := by
    intro ho
    have hfront := congrArg (List.take 5 ∘ Text.fold) he
    simp only [Function.comp, Text.fold_append, hf, ho] at hfront
    change ['h', 't', 't', 'p', ':'] = ['h', 't', 't', 'p', 's'] at hfront
    exact absurd hfront (by decide)
  have hhttps : Text.afterFolded? "https://".toList input = some rest ↔ _ := hafter .https
  have hhttp : Text.afterFolded? "http://".toList input = some rest ↔ _ := hafter .http
  unfold scheme
  cases hs : Text.afterFolded? "https://".toList input with
  | some more =>
    cases found with
    | https =>
      rw [← hhttps, hs]
      simp
    | http =>
      obtain ⟨other, ho, halike⟩ := Text.afterFolded?_eq_some_iff.1 hs
      simp only [Option.some.injEq, Prod.mk.injEq, reduceCtorEq, false_and, false_iff]
      rintro ⟨front, rfl, hf⟩
      exact hdiffer ho hf (eq_of_beq halike)
  | none =>
    cases found with
    | https =>
      rw [← hhttps, hs]
      simp
    | http =>
      rw [← hhttp]
      simp

theorem addressLiteral_of_head {input : List Char} (h : input.head? ≠ some '[') :
    addressLiteral input = none := by
  unfold addressLiteral
  split
  · exact absurd rfl h
  · rfl

theorem anySubdomain_of_head {input : List Char} (h : input.head? ≠ some '*') :
    anySubdomain input = (false, input) := by
  unfold anySubdomain
  split
  · exact absurd rfl h
  · rfl

theorem isHost_of_host {allowsAny any : Bool} {input name rest : List Char}
    (h : host allowsAny input = some ((any, name), rest)) :
    input = markText any ++ name ++ rest ∧ IsHost any name ∧ (any = true → allowsAny = true) := by
  unfold host at h
  split at h
  · next literal rest' hl =>
    cases h
    obtain ⟨hsplit, haddress⟩ := (addressLiteral_eq_some_iff input name rest).1 hl
    exact ⟨hsplit, .address name haddress, nofun⟩
  · generalize hs : (if allowsAny then anySubdomain input else (false, input)) = start at h
    have hmark : input = markText start.1 ++ start.2 ∧ (start.1 = true → allowsAny = true) := by
      rw [← hs]
      split
      · next ha =>
        refine ⟨?_, fun _ => ha⟩
        unfold anySubdomain
        split <;> rfl
      · exact ⟨rfl, nofun⟩
    simp only at h
    split at h
    · next name' rest' hd =>
      split at h
      · next hname =>
        cases h
        obtain ⟨hsplit, hdomain⟩ := isDomain_of_domain hd
        refine ⟨by rw [List.append_assoc, ← hsplit, ← hmark.1], ?_, hmark.2⟩
        cases hany : start.1 with
        | true => exact .anySubdomain name hdomain
        | false =>
          have hlocal : Text.fold "localhost".toList = "localhost".toList := rfl
          refine .name name hdomain ?_
          simpa [hany, Text.alike, hlocal] using hname
      · cases h
    · cases h

/-- A host is found in front of what cannot belong to it. -/
theorem host_append (allowsAny : Bool) {any : Bool} {name rest : List Char} (hh : IsHost any name)
    (ha : any = true → allowsAny = true) (hr : EndsDomain rest) :
    host allowsAny (markText any ++ name ++ rest) = some ((any, name), rest) := by
  cases hh with
  | address _ h =>
    have hl := (addressLiteral_eq_some_iff (name ++ rest) name rest).2 ⟨rfl, h⟩
    simp only [host, markText, Bool.false_eq_true, if_false, List.nil_append, hl]
  | anySubdomain _ h =>
    have hl : addressLiteral ('*' :: '.' :: (name ++ rest)) = none := rfl
    have hany : anySubdomain ('*' :: '.' :: (name ++ rest)) = (true, name ++ rest) := rfl
    simp [host, markText, hl, ha rfl, hany, domain_append h hr]
  | name _ h hn =>
    have hother {c : Char} (hc : isDomainChar c = false) (hp : c ≠ '%') :
        (name ++ rest).head? ≠ some c := by
      intro he
      obtain hd | rfl := h.head rest c he
      · rw [← isDomainChar_iff, hc] at hd
        cases hd
      · exact hp rfl
    have hl := addressLiteral_of_head (hother (c := '[') rfl (by decide))
    have hany : (if allowsAny then anySubdomain (name ++ rest) else (false, name ++ rest)) =
        (false, name ++ rest) := by
      rw [anySubdomain_of_head (hother (c := '*') rfl (by decide)), ite_self]
    have hname : name.contains '.' || Text.alike name "localhost".toList := by
      have hlocal : Text.fold "localhost".toList = "localhost".toList := rfl
      simpa [Text.alike, hlocal] using hn
    simp only [host, markText, Bool.false_eq_true, if_false, List.nil_append, hl, hany,
      domain_append h hr, Bool.false_or, hname, if_true]

end ContentSecurity.Grammar
