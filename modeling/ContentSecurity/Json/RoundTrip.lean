import ContentSecurity.Json.Quoted

/-!
Reading gives back the text that was written between quotes, and leaves what follows it.
-/
namespace ContentSecurity.Json

theorem quoted_backslash {strict : Bool} {c : Char} {text rest : List Char}
    (h : escape strict text = .ok (c, rest)) :
    quoted strict ('\\' :: text) =
      (quoted strict rest).map fun (found, rest) => (c :: found, rest) := by
  rw [quoted]
  split
  · simp_all
  · next found rest' read =>
    simp only [h, Except.ok.injEq, Prod.mk.injEq] at read
    obtain ⟨rfl, rfl⟩ := read
    rfl

theorem quoted_plain {strict : Bool} {c : Char} {text : List Char} (quote : c ≠ '"')
    (backslash : c ≠ '\\') (control : ¬ c < ' ') :
    quoted strict (c :: text) =
      (quoted strict text).map fun (found, rest) => (c :: found, rest) := by
  rw [quoted.eq_def]
  split
  · simp_all
  · simp_all
  · simp_all
  · next same =>
    obtain ⟨rfl, rfl⟩ := List.cons.inj same
    exact if_neg control

theorem hexValue_digitChar : ∀ d < 16, hexValue (Nat.digitChar d) = d := by decide

theorem isHexDigit_digitChar : ∀ d < 16, (Nat.digitChar d).isHexDigit = true := by decide

theorem fourHexDigits_control {n : Nat} (h : n < 32) (text : List Char) :
    fourHexDigits ('0' :: '0' :: Nat.digitChar (n / 16) :: Nat.digitChar (n % 16) :: text) =
      .ok (n, text) := by
  have digits : '0'.isHexDigit = true ∧ hexValue '0' = 0 := by decide
  have high := isHexDigit_digitChar (n / 16) (by omega)
  have low := isHexDigit_digitChar (n % 16) (by omega)
  have value : 16 * (n / 16) + n % 16 = n := Nat.div_add_mod n 16
  simp [fourHexDigits, digits, high, low, hexValue_digitChar (n / 16) (by omega),
    hexValue_digitChar (n % 16) (by omega), value]

theorem escape_control {strict : Bool} {c : Char} (h : c.toNat < 32) (text : List Char) :
    escape strict
      ('u' :: '0' :: '0' :: Nat.digitChar (c.toNat / 16) :: Nat.digitChar (c.toNat % 16) :: text) =
      .ok (c, text) := by
  have high : isHighSurrogate c.toNat = false := by simp [isHighSurrogate]; omega
  have low : isLowSurrogate c.toNat = false := by simp [isLowSurrogate]; omega
  simp [escape, unicodeEscape, fourHexDigits_control h, bind, Except.bind, high, low]

theorem quoted_escapeChar (strict : Bool) (c : Char) (text : List Char) :
    quoted strict (escapeChar c ++ text) =
      (quoted strict text).map fun (found, rest) => (c :: found, rest) := by
  unfold escapeChar
  split
  · next h => subst h; exact quoted_backslash rfl
  split
  · next h => subst h; exact quoted_backslash rfl
  split
  · next h => subst h; exact quoted_backslash rfl
  split
  · next h => subst h; exact quoted_backslash rfl
  split
  · next h => subst h; exact quoted_backslash rfl
  split
  · next h => subst h; exact quoted_backslash rfl
  split
  · next h => subst h; exact quoted_backslash rfl
  split
  · next h => exact quoted_backslash (escape_control h text)
  · next quote backslash _ _ _ _ _ control =>
    refine quoted_plain quote backslash fun h => control ?_
    simpa [Char.lt_def, UInt32.lt_iff_toNat_lt] using h

/-- Reading gives back the text that was written, and what follows it. -/
theorem quoted_flatMap_escapeChar (strict : Bool) (text rest : List Char) :
    quoted strict (text.flatMap escapeChar ++ '"' :: rest) = .ok (text, rest) := by
  induction text with
  | nil => simp [quoted]
  | cons c text ih => simp [quoted_escapeChar, ih, Except.map]

end ContentSecurity.Json
