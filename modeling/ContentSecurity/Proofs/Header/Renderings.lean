import ContentSecurity.Policy

/-!
The renderings of a policy. It is written as a text, as the bytes of a header value, and as a count of
bytes without being written at all. The three agree from the sources up to the policy, whatever names
and keywords the vocabulary lays down. Only control characters keep a policy from having a header value,
and a header value is read as a text only if it is in visible characters.
-/
namespace ContentSecurity

/-- Control characters other than the tab stand in no header value, and neither does `DEL`. -/
theorem isFieldByte_eq_false_iff (byte : UInt8) :
    isFieldByte byte = false ↔ (byte < 0x20 ∧ byte ≠ 0x09) ∨ byte = 0x7F := by
  have hlow : ¬ 0x20 ≤ byte ↔ byte < 0x20 := UInt8.not_le
  by_cases htab : byte = 0x09
  · subst htab
    decide
  · by_cases hdel : byte = 0x7F
    · subst hdel
      decide
    · simp [isFieldByte, htab, hdel, hlow]

theorem isVisibleByte_iff (byte : UInt8) :
    isVisibleByte byte = true ↔ byte = 0x09 ∨ 0x20 ≤ byte ∧ byte ≤ 0x7E := by
  have hhigh : byte < 127 ↔ byte ≤ 0x7E := by
    rw [UInt8.lt_iff_toNat_lt, UInt8.le_iff_toNat_le]
    exact Nat.lt_succ_iff
  simp [isVisibleByte, hhigh]

theorem fromUTF8?_toUTF8 (text : String) : String.fromUTF8? text.toUTF8 = some text := by
  rw [String.fromUTF8?, String.toUTF8_eq_toByteArray, dif_pos text.isValidUTF8]
  rfl

theorem eq_toUTF8_of_fromUTF8? {bytes : ByteArray} {text : String}
    (h : String.fromUTF8? bytes = some text) : bytes = text.toUTF8 := by
  rw [String.fromUTF8?] at h
  split at h
  · cases h
    rfl
  · cases h

namespace FieldValue

theorem ofBytes?_eq_some_iff (bytes : ByteArray) (value : FieldValue) :
    ofBytes? bytes = some value ↔ value.bytes = bytes := by
  rw [ofBytes?]
  constructor
  · intro h
    split at h
    · cases h
      rfl
    · cases h
  · rintro rfl
    rw [dif_pos value.legal]

theorem ofBytes?_eq_none_iff (bytes : ByteArray) :
    ofBytes? bytes = none ↔
      ∃ byte ∈ bytes.data, (byte < 0x20 ∧ byte ≠ 0x09) ∨ byte = 0x7F := by
  have hall : ofBytes? bytes = none ↔ ¬ bytes.data.all isFieldByte = true := by
    simp only [ofBytes?, dite_eq_right_iff, reduceCtorEq, imp_false]
  rw [hall, Array.all_eq_true_iff_forall_mem]
  simp only [Classical.not_forall, exists_prop, Bool.not_eq_true, isFieldByte_eq_false_iff]

/-- The value is this text, in visible characters. -/
def Shows (value : FieldValue) (text : String) : Prop :=
  value.bytes = text.toUTF8 ∧ ∀ byte ∈ value.bytes.data, byte = 0x09 ∨ 0x20 ≤ byte ∧ byte ≤ 0x7E

theorem text?_eq_some_iff (value : FieldValue) (text : String) :
    value.text? = some text ↔ value.Shows text := by
  rw [text?, Shows]
  simp only [Array.all_eq_true_iff_forall_mem, isVisibleByte_iff]
  constructor
  · intro h
    split at h
    · next hvisible => exact ⟨eq_toUTF8_of_fromUTF8? h, hvisible⟩
    · cases h
  · rintro ⟨hbytes, hvisible⟩
    rw [if_pos hvisible, hbytes, fromUTF8?_toUTF8]

end FieldValue

namespace Policy

theorem isEmpty_iff (policy : Policy) : policy.isEmpty = true ↔ policy.directives = [] := by
  simp [isEmpty, OrderedMap.isEmpty, directives, OrderedMap.values]

/-- The header value is made from the text. -/
theorem fieldValue_eq (policy : Policy) :
    policy.fieldValue =
      if policy.isEmpty then .ok none
      else
        match FieldValue.ofBytes? policy.render.toUTF8 with
        | some value => .ok (some value)
        | none => .error unprintable := by
  have hwrite : policy.write ByteArray.empty = policy.render.toUTF8 := by
    rw [policy.write_eq, ByteArray.empty_append]
  rw [← hwrite]
  rfl

/-- A policy with directives is written as it is rendered, unless it cannot be printed. -/
theorem fieldValue_eq_ok_iff (policy : Policy) (entry : Option FieldValue) :
    policy.fieldValue = .ok entry ↔
      if policy.isEmpty then entry = none
      else ∃ value, entry = some value ∧ value.bytes = policy.render.toUTF8 := by
  rw [fieldValue_eq]
  split
  · rw [Except.ok.injEq, eq_comm]
  · simp only [← FieldValue.ofBytes?_eq_some_iff]
    cases FieldValue.ofBytes? policy.render.toUTF8 <;> simp [eq_comm]

/-- The text alone decides whether a policy can be printed. One without directives has no text. -/
theorem fieldValue_eq_error_iff (policy : Policy) (refusal : Refusal) :
    policy.fieldValue = .error refusal ↔
      refusal = unprintable ∧ FieldValue.ofBytes? policy.render.toUTF8 = none := by
  rw [fieldValue_eq]
  split
  · next hempty =>
    have hrender : policy.render = "" := by
      rw [render, policy.isEmpty_iff.1 hempty, renderDirectives]
    have hlegal : FieldValue.ofBytes? policy.render.toUTF8 ≠ none := by
      rw [Ne, FieldValue.ofBytes?_eq_none_iff, hrender]
      simp
    simp only [hlegal, and_false, reduceCtorEq]
  · cases FieldValue.ofBytes? policy.render.toUTF8 <;> simp [eq_comm]

/-- No control character other than the tab stands in the policy. -/
def Printable (policy : Policy) : Prop :=
  ∀ byte ∈ policy.render.toUTF8.data, ¬ ((byte < 0x20 ∧ byte ≠ 0x09) ∨ byte = 0x7F)

theorem fieldValue_of_not_printable {policy : Policy} (h : ¬ policy.Printable) :
    policy.fieldValue = .error unprintable := by
  rw [fieldValue_eq_error_iff, FieldValue.ofBytes?_eq_none_iff]
  simp only [Printable, Classical.not_forall, Classical.not_not, exists_prop] at h
  exact ⟨rfl, h⟩

theorem exists_fieldValue_of_printable {policy : Policy} (h : policy.Printable) :
    ∃ entry, policy.fieldValue = .ok entry := by
  cases hf : policy.fieldValue with
  | ok entry => exact ⟨entry, rfl⟩
  | error refusal =>
    rw [fieldValue_eq_error_iff, FieldValue.ofBytes?_eq_none_iff] at hf
    obtain ⟨-, byte, hb, hcontrol⟩ := hf
    exact absurd hcontrol (h byte hb)

end Policy

/-- A policy has no header value just where it has no directive. Otherwise its header value, if it has one,
holds the bytes of its text, and it is refused just where these bytes hold a control character that a
header may not. What a policy is reckoned to take is what its text takes, and so for each directive. -/
theorem renderings_agree (policy : Policy) :
    (policy.fieldValue = .ok none ↔ policy.directives = []) ∧
    (∀ value, policy.fieldValue = .ok (some value) ↔
      policy.directives ≠ [] ∧ value.bytes = policy.render.toUTF8) ∧
    (∀ refusal, policy.fieldValue = .error refusal ↔ refusal = Policy.unprintable ∧
      ∃ byte ∈ policy.render.toUTF8.data, (byte < 0x20 ∧ byte ≠ 0x09) ∨ byte = 0x7F) ∧
    policy.size = policy.render.toUTF8.size ∧
    ∀ directive : Directive, directive.size = directive.render.toUTF8.size := by
  refine ⟨?_, fun value => ?_, fun refusal => ?_, policy.size_eq, Directive.size_eq⟩
  · rw [Policy.fieldValue_eq_ok_iff, ← Policy.isEmpty_iff]
    cases policy.isEmpty <;> simp
  · rw [Policy.fieldValue_eq_ok_iff, Ne, ← Policy.isEmpty_iff]
    cases policy.isEmpty <;> simp
  · rw [Policy.fieldValue_eq_error_iff, FieldValue.ofBytes?_eq_none_iff]

/-- A letter outside ASCII is reckoned with all its bytes. -/
example : Policy.size ⟨⟨[("é", ⟨"é", [.keyword "ß", .anywhere]⟩)], by decide⟩⟩ = 10 := by decide

end ContentSecurity
