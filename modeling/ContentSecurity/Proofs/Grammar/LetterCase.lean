import ContentSecurity.Proofs.Grammar.Language

/-!
Letter case in the value grammars. No class of characters tells a small letter from its capital, no mark
is a letter, and the words of the grammars are compared in small letters. So a rule that gets its input
in small letters recognises what it would have recognised, in small letters, and values that differ
only in the case of letters are accepted and divided alike.
-/
namespace ContentSecurity

/-- The same characters in the same order, except for the case of the letters `A` to `Z`. -/
def Text.SameButForCase (s t : String) : Prop :=
  List.Forall₂ (fun c d => c.toLower = d.toLower) s.toList t.toList

theorem Text.sameButForCase_iff (s t : String) :
    SameButForCase s t ↔ fold s.toList = fold t.toList := by
  rw [SameButForCase, fold, fold, ← List.forall₂_eq_eq_eq, List.forall₂_map_left_iff,
    List.forall₂_map_right_iff]

theorem Text.fold_fold (text : List Char) : fold (fold text) = fold text := by
  simp [fold, Char.toLower_toLower_eq_toLower]

theorem Text.afterFolded?_fold (head text : List Char) :
    afterFolded? head (fold text) = (afterFolded? head text).map fold := by
  have htake : (fold text).take head.length = fold (text.take head.length) := List.map_take.symm
  have hdrop : (fold text).drop head.length = fold (text.drop head.length) := List.map_drop.symm
  simp only [afterFolded?, alike, htake, hdrop, fold_fold]
  by_cases h : (fold (text.take head.length) == fold head) = true <;> simp [h]

/-- Pieces of changed items are changed pieces. -/
theorem splitOnP_map {α β : Type} (f : α → β) (p : β → Bool) (items : List α) :
    (items.map f).splitOnP p = (items.splitOnP (p ∘ f)).map (List.map f) := by
  induction items with
  | nil => simp [List.splitOnP_nil]
  | cons item rest ih =>
    rw [List.map_cons, List.splitOnP_cons_eq_if_modifyHead, List.splitOnP_cons_eq_if_modifyHead, ih,
      Function.comp_apply]
    split
    · rfl
    · cases rest.splitOnP (p ∘ f) <;> rfl

namespace Grammar

/-! ## Characters -/

/-- A kind of characters that holds of a capital just where it holds of the small letter does not look
at case. -/
theorem kind_toLower (kind : Char → Bool)
    (h : ∀ n < 26, kind (Char.ofNat (65 + n)).toLower = kind (Char.ofNat (65 + n))) (c : Char) :
    kind c.toLower = kind c := by
  by_cases hc : c.isUpper = true
  · simp only [Char.isUpper, decide_eq_true_eq, ge_iff_le, UInt32.le_iff_toNat_le] at hc
    have hlow : 65 ≤ c.toNat := hc.1
    have hhigh : c.toNat ≤ 90 := hc.2
    have hletter := h (c.toNat - 65) (by omega)
    rwa [Nat.add_sub_cancel' hlow, Char.ofNat_toNat] at hletter
  · rw [Char.toLower_eq_of_not_isUpper hc]

theorem isDigit_toLower (c : Char) : c.toLower.isDigit = c.isDigit :=
  kind_toLower Char.isDigit (by decide) c

theorem isHexDigit_toLower (c : Char) : c.toLower.isHexDigit = c.isHexDigit :=
  kind_toLower Char.isHexDigit (by decide) c

theorem isDomainChar_toLower (c : Char) : isDomainChar c.toLower = isDomainChar c :=
  kind_toLower isDomainChar (by decide) c

theorem isPathChar_toLower (c : Char) : isPathChar c.toLower = isPathChar c :=
  kind_toLower isPathChar (by decide) c

theorem toLower_of_isDigit {c : Char} (h : c.isDigit = true) : c.toLower = c := by
  refine Char.toLower_eq_of_not_isUpper fun hc => ?_
  simp only [Char.isDigit, Char.isUpper, Bool.and_eq_true, decide_eq_true_eq, ge_iff_le,
    UInt32.le_iff_toNat_le, Char.reduceVal, UInt32.reduceToNat] at h hc
  omega

/-- No letter becomes a mark. -/
theorem toLower_eq_mark_iff (mark : Char) (hm : mark.isAlphanum = false) (c : Char) :
    c.toLower = mark ↔ c = mark := by
  obtain he | ⟨hc, hlower⟩ := toLower_eq_or_isAlphanum c
  · rw [he]
  · constructor
    · rintro rfl
      exact absurd hlower (by simp [hm])
    · rintro rfl
      exact absurd hc (by simp [hm])

theorem contains_fold (mark : Char) (hm : mark.isAlphanum = false) (text : List Char) :
    (Text.fold text).contains mark = text.contains mark := by
  simp [Text.fold, toLower_eq_mark_iff mark hm]

theorem head_fold_eq_mark_iff (mark : Char) (hm : mark.isAlphanum = false) (text : List Char) :
    (Text.fold text).head? = some mark ↔ text.head? = some mark := by
  cases text <;> simp [toLower_eq_mark_iff mark hm]

theorem takeWhile_fold (kind : Char → Bool) (hk : ∀ c, kind c.toLower = kind c)
    (text : List Char) : (Text.fold text).takeWhile kind = Text.fold (text.takeWhile kind) := by
  rw [Text.fold, List.takeWhile_map, funext (f := kind ∘ Char.toLower) hk, Text.fold]

theorem dropWhile_fold (kind : Char → Bool) (hk : ∀ c, kind c.toLower = kind c)
    (text : List Char) : (Text.fold text).dropWhile kind = Text.fold (text.dropWhile kind) := by
  rw [Text.fold, List.dropWhile_map, funext (f := kind ∘ Char.toLower) hk, Text.fold]

/-! ## Rules -/

/-- In small letters the rule recognises what it would have recognised, made small. -/
def Rule.Caseless {α : Type} (rule : Rule α) (small : α → α) : Prop :=
  ∀ input, rule (Text.fold input) = (rule input).map (Prod.map small Text.fold)

namespace Rule.Caseless

variable {α : Type} {rule : Rule α} {small : α → α} (h : rule.Caseless small)

include h

theorem ifThere_fold (input : List Char) :
    rule.ifThere (Text.fold input) =
      Prod.map (Option.map small) Text.fold (rule.ifThere input) := by
  rw [Rule.ifThere, h, Rule.ifThere]
  cases rule input <;> rfl

theorem takesAll_fold (input : List Char) :
    rule.takesAll (Text.fold input) = rule.takesAll input := by
  rw [Rule.takesAll, h, Rule.takesAll]
  obtain _ | ⟨found, _ | ⟨c, rest⟩⟩ := rule input <;> rfl

end Rule.Caseless

/-- A rule for what begins with a mark needs to be looked at behind the mark only. -/
theorem Rule.caseless_of_mark {α : Type} {rule : Rule α} {small : α → α} (mark : Char)
    (hm : mark.isAlphanum = false)
    (hother : ∀ {input}, input.head? ≠ some mark → rule input = none)
    (hmark : ∀ rest, rule (mark :: Text.fold rest) =
      (rule (mark :: rest)).map (Prod.map small Text.fold)) : rule.Caseless small := by
  intro input
  by_cases hhead : input.head? = some mark
  · obtain ⟨rest, rfl⟩ := List.head?_eq_some_iff.1 hhead
    rw [Text.fold_cons, (toLower_eq_mark_iff mark hm mark).2 rfl, hmark]
  · have hfold : (Text.fold input).head? ≠ some mark := by
      rwa [Ne, head_fold_eq_mark_iff mark hm]
    rw [hother hhead, hother hfold]
    rfl

theorem scheme_caseless : scheme.Caseless id := by
  intro input
  simp only [scheme, Text.afterFolded?_fold]
  cases Text.afterFolded? "https://".toList input with
  | some rest => rfl
  | none => simp [Function.comp_def]

theorem spanEncoded_fold {plain : Char → Bool} (hplain : ∀ c, plain c.toLower = plain c)
    (input : List Char) :
    spanEncoded plain (Text.fold input) =
      Prod.map Text.fold Text.fold (spanEncoded plain input) := by
  have hpercent : '%'.toLower = '%' := rfl
  -- What does not begin like an encoded byte does not in small letters either.
  have hother {c : Char} {rest : List Char}
      (hbyte : ∀ a b tail, c = '%' → rest = a :: b :: tail → False) :
      ∀ a b tail, c.toLower = '%' → Text.fold rest = a :: b :: tail → False := by
    intro a b tail hc hrest
    obtain _ | ⟨a', _ | ⟨b', tail'⟩⟩ := rest
    · cases hrest
    · cases hrest
    · exact hbyte a' b' tail' ((toLower_eq_mark_iff '%' rfl c).1 hc) rfl
  fun_induction spanEncoded plain input with
  | case1 => rfl
  | case2 a b rest hex run rest' hs ih =>
    rw [hs] at ih
    simp only [Text.fold_cons, hpercent, spanEncoded, isHexDigit_toLower, hex, if_true, ih,
      Prod.map]
  | case3 a b rest hex =>
    simp only [Text.fold_cons, hpercent, spanEncoded, isHexDigit_toLower, hex, if_false, Prod.map,
      Text.fold_nil, Bool.false_eq_true]
  | case4 c rest hbyte ok run rest' hs ih =>
    rw [hs] at ih
    rw [Text.fold_cons, spanEncoded, ih]
    · simp only [hplain, ok, if_true, Prod.map, Text.fold_cons]
    · exact hother hbyte
  | case5 c rest hbyte ok =>
    rw [Text.fold_cons, spanEncoded]
    · simp only [hplain, ok, if_false, Prod.map, Text.fold_cons, Text.fold_nil, Bool.false_eq_true]
    · exact hother hbyte

theorem domain_caseless : domain.Caseless Text.fold := by
  intro input
  have hdot := head_fold_eq_mark_iff '.' rfl input
  have hnone : Text.fold (spanEncoded isDomainChar input).1 = [] ↔
      (spanEncoded isDomainChar input).1 = [] := List.map_eq_nil_iff
  simp only [domain_eq, spanEncoded_fold isDomainChar_toLower, Prod.map_fst, hdot, hnone]
  split <;> rfl

theorem isAddress_fold (inner : List Char) : isAddress (Text.fold inner) = isAddress inner := by
  have hgroup (group : List Char) : isAddressGroup (Text.fold group) = isAddressGroup group := by
    simp [isAddressGroup, Text.fold, isHexDigit_toLower, Function.comp_def]
  have hcolon : (· == ':') ∘ Char.toLower = (· == ':') :=
    funext (kind_toLower (· == ':') (by decide))
  have hsplit : (Text.fold inner).splitOn ':' = (inner.splitOn ':').map Text.fold := by
    rw [List.splitOn, Text.fold, splitOnP_map, hcolon]
    rfl
  rw [isAddress, isAddress, contains_fold ':' rfl, hsplit, List.all_map]
  simp only [Function.comp_def, hgroup]

theorem addressLiteral_caseless : addressLiteral.Caseless Text.fold := by
  refine Rule.caseless_of_mark '[' rfl addressLiteral_of_head fun rest => ?_
  have hbracket := kind_toLower (· != ']') (by decide)
  simp only [addressLiteral, takeWhile_fold (· != ']') hbracket,
    dropWhile_fold (· != ']') hbracket]
  cases hd : rest.dropWhile (· != ']') with
  | nil => rfl
  | cons close more =>
    simp only [Text.fold_cons, isAddress_fold]
    split
    · simp [Prod.map]
    · rfl

/-- The digits of a port have no case. -/
theorem port_caseless : port.Caseless id := by
  refine Rule.caseless_of_mark ':' rfl port_of_head fun rest => ?_
  have hdigits : Text.fold (rest.takeWhile Char.isDigit) = rest.takeWhile Char.isDigit :=
    (List.map_congr_left fun c hc => toLower_of_isDigit (List.mem_takeWhile_imp hc)).trans
      (List.map_id _)
  simp only [port, takeWhile_fold _ isDigit_toLower, dropWhile_fold _ isDigit_toLower, hdigits]
  cases rest.takeWhile Char.isDigit <;> rfl

theorem path_caseless : path.Caseless Text.fold := by
  refine Rule.caseless_of_mark '/' rfl path_of_head fun rest => ?_
  simp only [path, spanEncoded_fold isPathChar_toLower]
  rfl

theorem anySubdomain_fold (input : List Char) :
    anySubdomain (Text.fold input) = Prod.map id Text.fold (anySubdomain input) := by
  fun_cases anySubdomain input with
  | case1 rest => rfl
  | case2 _ hother =>
    unfold anySubdomain
    split
    · next rest hfold =>
      obtain _ | ⟨c, _ | ⟨d, tail⟩⟩ := input
      · simp at hfold
      · simp at hfold
      · simp only [Text.fold_cons, List.cons.injEq, toLower_eq_mark_iff '*' rfl,
          toLower_eq_mark_iff '.' rfl] at hfold
        obtain ⟨rfl, rfl, -⟩ := hfold
        exact absurd rfl (hother tail)
    · rfl

theorem host_caseless (allowsAny : Bool) : (host allowsAny).Caseless (Prod.map id Text.fold) := by
  intro input
  have hlocal (name : List Char) : Text.alike (Text.fold name) "localhost".toList =
      Text.alike name "localhost".toList := by
    rw [Text.alike, Text.fold_fold, Text.alike]
  have hmark : (if allowsAny then anySubdomain (Text.fold input) else (false, Text.fold input)) =
      Prod.map id Text.fold (if allowsAny then anySubdomain input else (false, input)) := by
    cases allowsAny with
    | true => exact anySubdomain_fold input
    | false => rfl
  simp only [host, addressLiteral_caseless input, hmark]
  cases addressLiteral input with
  | some found => rfl
  | none =>
    obtain ⟨any, start⟩ := if allowsAny then anySubdomain input else (false, input)
    simp only [Option.map_none, Prod.map, domain_caseless start]
    cases domain start with
    | none => rfl
    | some found =>
      simp only [Option.map_some, Prod.map, contains_fold '.' rfl, hlocal, id_eq]
      split <;> rfl

end Grammar

open Grammar

/-! ## Values -/

/-- The value in small letters. -/
def Text.small (value : String) : String :=
  String.ofList (Text.fold value.toList)

/-- The pattern with its host in small letters. -/
def HostPattern.small (pattern : HostPattern) : HostPattern :=
  { pattern with host := Text.small pattern.host }

theorem HostPattern.parse?_small (value : String) :
    parse? (Text.small value) = (parse? value).map HostPattern.small := by
  simp only [parse?, Text.small, String.toList_ofList, scheme_caseless.ifThere_fold,
    Option.map_id, Prod.map, id_eq, host_caseless true _]
  cases Grammar.host true (Grammar.scheme.ifThere value.toList).2 with
  | none => rfl
  | some found =>
    simp only [Option.map_some, Prod.map, port_caseless.ifThere_fold, Option.map_id, id_eq]
    obtain ⟨port, _ | ⟨c, rest⟩⟩ := Grammar.port.ifThere found.2
    · simp [HostPattern.small, Text.small]
    · rfl

theorem isDataMark_small (value : String) : isDataMark (Text.small value) = isDataMark value := by
  simp only [isDataMark, Text.small, String.toList_ofList, Text.alike, Text.fold_fold]

theorem isStar_small (value : String) : isStar (Text.small value) = isStar value := by
  have hstar (text : List Char) : Text.fold text = ['*'] ↔ text = ['*'] := by
    obtain _ | ⟨c, _ | ⟨d, tail⟩⟩ := text
    · simp
    · simp [toLower_eq_mark_iff '*' rfl]
    · simp
  rw [isStar, isStar, Bool.eq_iff_iff, beq_iff_eq, beq_iff_eq, ← String.toList_inj, Text.small,
    String.toList_ofList, ← String.toList_inj]
  exact hstar value.toList

theorem isSource_small (value : String) : isSource (Text.small value) = isSource value := by
  rw [isSource, isStar_small, isDataMark_small, HostPattern.parse?_small, Option.isSome_map,
    isSource]

/-- A target that does not begin with a slash is read rule by rule. -/
theorem isReportTarget_eq (value : String) :
    isReportTarget value =
      if value.toList.head? = some '/' then path.takesAll value.toList
      else
        match host false (scheme.ifThere value.toList).2 with
        | some (_, rest) =>
          match port.ifThere rest with
          | (_, []) => true
          | (_, rest) => path.takesAll rest
        | none => false := by
  unfold isReportTarget
  split
  · next rest hslash => rw [if_pos (by rw [hslash]; rfl), hslash]
  · next hother =>
    have hslash : value.toList.head? ≠ some '/' := head?_ne_of_forall_ne_cons hother
    exact (if_neg hslash).symm

theorem isReportTarget_small (value : String) :
    isReportTarget (Text.small value) = isReportTarget value := by
  have hslash := head_fold_eq_mark_iff '/' rfl value.toList
  simp only [isReportTarget_eq, Text.small, String.toList_ofList, hslash, path_caseless.takesAll_fold,
    scheme_caseless.ifThere_fold, Prod.map_snd, host_caseless false _]
  congr 1
  cases host false (scheme.ifThere value.toList).2 with
  | none => rfl
  | some found =>
    simp only [Option.map_some, Prod.map, port_caseless.ifThere_fold]
    obtain ⟨port, _ | ⟨c, rest⟩⟩ := port.ifThere found.2
    · rfl
    · exact path_caseless.takesAll_fold (c :: rest)

/-- Both patterns have the same parts, but for the case of the letters of the host. -/
structure HostPattern.Alike (pattern other : HostPattern) : Prop where
  scheme : pattern.scheme = other.scheme
  anySubdomain : pattern.anySubdomain = other.anySubdomain
  host : Text.SameButForCase pattern.host other.host
  port : pattern.port = other.port

theorem HostPattern.alike_of_small_eq {pattern other : HostPattern}
    (h : pattern.small = other.small) : pattern.Alike other := by
  obtain ⟨scheme, any, host, port⟩ := pattern
  obtain ⟨scheme', any', host', port'⟩ := other
  simp only [HostPattern.small, HostPattern.mk.injEq] at h
  obtain ⟨rfl, rfl, hhost, rfl⟩ := h
  exact ⟨rfl, rfl, (Text.sameButForCase_iff _ _).2 (String.ofList_injective hhost), rfl⟩

/-- Values that differ only in the case of letters are sources alike and report targets alike. Both are host
patterns or neither is, and then they have the same scheme, mark and port, and hosts that differ only in
the case of letters. -/
theorem values_ignore_letter_case (value other : String) (h : Text.SameButForCase value other) :
    isSource value = isSource other ∧ isReportTarget value = isReportTarget other ∧
      Option.Rel HostPattern.Alike (HostPattern.parse? value) (HostPattern.parse? other) := by
  have hsmall : Text.small value = Text.small other := by
    rw [Text.small, Text.small, (Text.sameButForCase_iff value other).1 h]
  refine ⟨?_, ?_, ?_⟩
  · rw [← isSource_small value, hsmall, isSource_small]
  · rw [← isReportTarget_small value, hsmall, isReportTarget_small]
  · have hread : (HostPattern.parse? value).map HostPattern.small =
        (HostPattern.parse? other).map HostPattern.small := by
      rw [← HostPattern.parse?_small, hsmall, HostPattern.parse?_small]
    cases hv : HostPattern.parse? value with
    | none =>
      rw [hv, Option.map_none, eq_comm, Option.map_eq_none_iff] at hread
      rw [hread]
      exact .none
    | some pattern =>
      rw [hv, Option.map_some, eq_comm, Option.map_eq_some_iff] at hread
      obtain ⟨pattern', ho, he⟩ := hread
      rw [ho]
      exact .some (HostPattern.alike_of_small_eq he.symm)

/-- Capitals in a scheme, in a host and in encoded bytes. -/
theorem values_ignore_letter_case_of_capitals :
    Text.SameButForCase "HTTPS://*.Ex%4Ample.COM:8443" "https://*.eX%4aMPLE.com:8443" ∧
      Option.Rel HostPattern.Alike (some ⟨some .https, true, "Ex%4Ample.COM", some "8443"⟩)
        (HostPattern.parse? "https://*.eX%4aMPLE.com:8443") := by
  have h : Text.SameButForCase "HTTPS://*.Ex%4Ample.COM:8443" "https://*.eX%4aMPLE.com:8443" :=
    (Text.sameButForCase_iff _ _).2 (by decide)
  obtain ⟨-, -, hread⟩ := values_ignore_letter_case _ _ h
  have hfirst : HostPattern.parse? "HTTPS://*.Ex%4Ample.COM:8443" =
      some ⟨some .https, true, "Ex%4Ample.COM", some "8443"⟩ := by decide
  rw [hfirst] at hread
  exact ⟨h, hread⟩

end ContentSecurity
