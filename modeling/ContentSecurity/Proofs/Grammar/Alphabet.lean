import ContentSecurity.Proofs.Grammar.Values

/-!
The alphabets of the value grammars. Each part of a value is written in a few characters of ASCII. So
a value that is accepted as a whole is written in the alphabets of its parts, whatever else its
author tried.
-/
namespace ContentSecurity

namespace Grammar

theorem isAlphanum_of_isHexDigit (c : Char) (h : c.isHexDigit = true) : c.isAlphanum = true := by
  simp only [Char.isHexDigit, Char.isAlphanum, Char.isAlpha, Char.isUpper, Char.isLower,
    Char.isDigit, Bool.or_eq_true, Bool.and_eq_true, decide_eq_true_eq, ge_iff_le,
    UInt32.le_iff_toNat_le] at h ⊢
  simp only [Char.reduceVal, UInt32.reduceToNat] at h ⊢
  omega

/-- The characters in which host patterns are written. -/
def isHostChar (c : Char) : Bool :=
  c.isAlphanum || "%*-.:/[]".toList.contains c

/-- The characters in which hosts and ports are written, but for the star. -/
def isPlaceChar (c : Char) : Bool :=
  c.isAlphanum || "%-.:[]".toList.contains c

/-- The characters in which report targets are written. -/
def isTargetChar (c : Char) : Bool :=
  isPathChar c || c == '%'

theorem isPlaceChar_of_isHexDigit (c : Char) (h : c.isHexDigit = true) : isPlaceChar c = true := by
  simp [isPlaceChar, isAlphanum_of_isHexDigit c h]

theorem isHostChar_of_isPlaceChar (c : Char) (h : isPlaceChar c = true) : isHostChar c = true := by
  simp only [isPlaceChar, Bool.or_eq_true, List.contains_iff_mem] at h
  obtain h | h := h
  · simp [isHostChar, h]
  · have marks : "%-.:[]".toList.all isHostChar = true := by decide
    exact List.all_eq_true.1 marks c h

theorem isHostChar_of_toLower (c : Char) (h : isHostChar c.toLower = true) :
    isHostChar c = true := by
  obtain he | ⟨hc, -⟩ := toLower_eq_or_isAlphanum c
  · rwa [he] at h
  · simp [isHostChar, hc]

/-- What stands in a host may stand in a target, but for the star. -/
theorem isTargetChar_of_isHostChar (c : Char) (h : isHostChar c = true) :
    isTargetChar c = true := by
  simp only [isHostChar, Bool.or_eq_true, List.contains_iff_mem] at h
  obtain h | h := h
  · simp [isTargetChar, isPathChar, h]
  · have marks : "%*-.:/[]".toList.all isTargetChar = true := by decide
    exact List.all_eq_true.1 marks c h

/-! ## Parts of values -/

theorem IsScheme.hostChars {found : Option Scheme} {text : List Char} (h : IsScheme found text) :
    ∀ c ∈ text, isHostChar c = true := by
  cases found with
  | none =>
    obtain rfl : text = [] := h
    nofun
  | some found =>
    have hfold : Text.fold text = found.spelling := h
    have hspelling : found.spelling.all isHostChar = true := by cases found <;> decide
    intro c hc
    have hm : c.toLower ∈ Text.fold text := List.mem_map_of_mem hc
    rw [hfold] at hm
    exact isHostChar_of_toLower c (List.all_eq_true.1 hspelling _ hm)

theorem IsDomain.placeChars {name : List Char} (h : IsDomain name) :
    ∀ c ∈ name, isPlaceChar c = true := by
  intro c hc
  obtain (hp | rfl | rfl) | hx | rfl := h.encoded.mem hc
  · simp [isPlaceChar, hp]
  · rfl
  · rfl
  · exact isPlaceChar_of_isHexDigit c hx
  · rfl

/-- Between the brackets of an address stand digits and colons. -/
theorem IsAddressLiteral.placeChars {text : List Char} (h : IsAddressLiteral text) :
    ∀ c ∈ text, isPlaceChar c = true := by
  obtain ⟨inner, hinner, rfl⟩ := h
  intro c hc
  simp only [List.cons_append, List.mem_cons, List.mem_append, List.not_mem_nil, or_false] at hc
  obtain rfl | hc | rfl := hc
  · rfl
  · obtain rfl | hx := hinner.mem hc
    · rfl
    · exact isPlaceChar_of_isHexDigit c hx
  · rfl

theorem IsHost.placeChars {any : Bool} {name : List Char} (h : IsHost any name) :
    ∀ c ∈ name, isPlaceChar c = true := by
  cases h with
  | address _ h => exact h.placeChars
  | anySubdomain _ h => exact h.placeChars
  | name _ h => exact h.placeChars

theorem IsHost.hostChars {any : Bool} {name : List Char} (h : IsHost any name) :
    ∀ c ∈ markText any ++ name, isHostChar c = true := by
  intro c hc
  obtain hc | hc := List.mem_append.1 hc
  · have marks : (markText any).all isHostChar = true := by cases any <;> decide
    exact List.all_eq_true.1 marks c hc
  · exact isHostChar_of_isPlaceChar c (h.placeChars c hc)

theorem IsPort.placeChars {port : Option (List Char)} (h : IsPort port) :
    ∀ c ∈ portText port, isPlaceChar c = true := by
  intro c hc
  cases port with
  | none => cases hc
  | some digits =>
    obtain rfl | hc := List.mem_cons.1 hc
    · rfl
    · simp [isPlaceChar, Char.isAlphanum, (h digits rfl).2 c hc]

theorem IsPath.targetChars {text : List Char} (h : IsPath text) :
    ∀ c ∈ text, isTargetChar c = true := by
  obtain ⟨run, rfl, he⟩ := h
  intro c hc
  obtain rfl | hc := List.mem_cons.1 hc
  · rfl
  · obtain hp | hx | rfl := he.mem hc
    · simp [isTargetChar, (isPathChar_iff c).2 hp]
    · simp [isTargetChar, isPathChar, isAlphanum_of_isHexDigit c hx]
    · rfl

end Grammar

open Grammar

/-! ## Whole values -/

/-- A host pattern is written in the characters of hosts. -/
theorem isHostChar_of_parse? {value : String} (h : (HostPattern.parse? value).isSome = true) :
    ∀ c ∈ value.toList, isHostChar c = true := by
  obtain ⟨pattern, hp⟩ := Option.isSome_iff_exists.1 h
  obtain ⟨division, hd, -⟩ := HostDivision.exists_divides_of_parse? hp
  rw [hd.whole]
  intro c hc
  obtain hc | hc := List.mem_append.1 hc
  · exact hd.scheme.hostChars c hc
  · obtain hc | hc := List.mem_append.1 hc
    · exact hd.host.hostChars c hc
    · exact isHostChar_of_isPlaceChar c (hd.port.placeChars c hc)

/-- A report target is written in the characters of paths, and in percent signs. -/
theorem isTargetChar_of_isReportTarget {value : String} (h : isReportTarget value = true) :
    ∀ c ∈ value.toList, isTargetChar c = true := by
  obtain hpath | ⟨division, hd⟩ := exists_divides_of_isReportTarget h
  · exact hpath.targetChars
  · rw [hd.whole]
    intro c hc
    simp only [List.mem_append] at hc
    have hplace (h : isPlaceChar c = true) : isTargetChar c = true :=
      isTargetChar_of_isHostChar c (isHostChar_of_isPlaceChar c h)
    obtain hc | hc | hc | hc := hc
    · exact isTargetChar_of_isHostChar c (hd.scheme.hostChars c hc)
    · exact hplace (hd.host.placeChars c hc)
    · exact hplace (hd.port.placeChars c hc)
    · obtain he | hpath := hd.path
      · rw [he] at hc
        cases hc
      · exact hpath.targetChars c hc

end ContentSecurity
