import ContentSecurity.Text.LetterCase
import Mathlib

/-!
Texts by their bytes. A character of ASCII is one byte, its code point, and every byte of another
character is out of ASCII, so what is known of the characters of ASCII in a text can be read off its bytes.
A text can be cut at a byte only where a character begins or the text ends.
-/
namespace ContentSecurity.Text

/-- The bytes of a text. -/
def bytes (text : List Char) : List UInt8 :=
  text.flatMap String.utf8EncodeChar

@[simp] theorem bytes_nil : bytes [] = [] := rfl

@[simp] theorem bytes_cons (c : Char) (text : List Char) :
    bytes (c :: text) = String.utf8EncodeChar c ++ bytes text := rfl

@[simp] theorem bytes_append (s t : List Char) : bytes (s ++ t) = bytes s ++ bytes t :=
  List.flatMap_append

theorem bytes_toList (text : String) : bytes text.toList = text.toUTF8.data.toList := by
  rw [String.toUTF8, ← String.utf8Encode_toList, List.utf8Encode, List.data_toByteArray]
  rfl

theorem length_bytes_toList (text : String) : (bytes text.toList).length = text.utf8ByteSize := by
  rw [bytes_toList]
  rfl

theorem length_bytes (text : List Char) :
    (bytes text).length = (String.ofList text).utf8ByteSize := by
  rw [← length_bytes_toList, String.toList_ofList]

theorem bytes_injective : Function.Injective bytes := by
  intro s t h
  rw [← String.toList_ofList (l := s), ← String.toList_ofList (l := t), bytes_toList,
    bytes_toList, Array.toList_inj] at h
  exact String.ofList_injective (String.toByteArray_inj.1 (ByteArray.ext h))

/-! ## Bytes of characters -/

theorem utf8EncodeChar_of_ascii {c : Char} (h : c.toNat < 128) :
    String.utf8EncodeChar c = [UInt8.ofNat c.toNat] := by
  have hsmall : c.val.toNat ≤ 127 := Nat.le_of_lt_succ h
  simp only [String.utf8EncodeChar, if_pos hsmall]
  rfl

theorem length_bytes_cons_of_ascii {c : Char} (h : c.toNat < 128) (text : List Char) :
    (bytes (c :: text)).length = (bytes text).length + 1 := by
  rw [bytes_cons, utf8EncodeChar_of_ascii h, List.singleton_append, List.length_cons]

theorem le_of_mem_utf8EncodeChar {c : Char} (h : 128 ≤ c.toNat) {byte : UInt8}
    (hb : byte ∈ String.utf8EncodeChar c) : 128 ≤ byte.toNat := by
  have hlarge : ¬ c.val.toNat ≤ 127 := Nat.not_le.2 h
  simp only [String.utf8EncodeChar, if_neg hlarge] at hb
  split at hb
  · simp only [List.mem_cons, List.not_mem_nil, or_false] at hb
    obtain rfl | rfl := hb <;> rw [UInt8.toNat_ofNat'] <;> omega
  · split at hb
    · simp only [List.mem_cons, List.not_mem_nil, or_false] at hb
      obtain rfl | rfl | rfl := hb <;> rw [UInt8.toNat_ofNat'] <;> omega
    · simp only [List.mem_cons, List.not_mem_nil, or_false] at hb
      obtain rfl | rfl | rfl | rfl := hb <;> rw [UInt8.toNat_ofNat'] <;> omega

theorem exists_utf8EncodeChar_eq_cons (c : Char) :
    ∃ byte tail, String.utf8EncodeChar c = byte :: tail := by
  refine List.exists_cons_of_ne_nil fun hnil => ?_
  have hsize := c.utf8Size_pos
  rw [← String.length_utf8EncodeChar, hnil] at hsize
  exact absurd hsize (by decide)

theorem length_bytes_eq_zero_iff (text : List Char) : (bytes text).length = 0 ↔ text = [] := by
  cases text with
  | nil => simp
  | cons c rest =>
    obtain ⟨byte, tail, hb⟩ := exists_utf8EncodeChar_eq_cons c
    simp [hb]

theorem toNat_of_isAlphanum {c : Char} (h : c.isAlphanum = true) :
    0x30 ≤ c.toNat ∧ c.toNat ≤ 0x7A := by
  simp only [Char.isAlphanum, Char.isAlpha, Char.isUpper, Char.isLower, Char.isDigit,
    Bool.or_eq_true, Bool.and_eq_true, decide_eq_true_eq, ge_iff_le, UInt32.le_iff_toNat_le,
    Char.reduceVal, UInt32.reduceToNat] at h
  have hval : c.toNat = c.val.toNat := rfl
  omega

/-! ## Kinds of bytes -/

/-- The byte is a character of ASCII, and the character is of this kind. -/
def byteIs (kind : Char → Bool) (byte : UInt8) : Bool :=
  byte < 128 && kind (Char.ofUInt8 byte)

/-- A kind of characters of ASCII. -/
def Ascii (kind : Char → Bool) : Prop :=
  ∀ c, kind c = true → c.toNat < 128

theorem byteIs_of_le {kind : Char → Bool} {byte : UInt8} (h : 128 ≤ byte.toNat) :
    byteIs kind byte = false := by
  have hlarge : ¬ byte < 128 := by
    rw [UInt8.lt_iff_toNat_lt, Nat.not_lt]
    exact h
  simp [byteIs, hlarge]

theorem byteIs_ofNat {c : Char} (h : c.toNat < 128) (kind : Char → Bool) :
    byteIs kind (UInt8.ofNat c.toNat) = kind c := by
  have hsmall : UInt8.ofNat c.toNat < 128 := by
    rw [UInt8.lt_iff_toNat_lt, UInt8.toNat_ofNat']
    exact Nat.lt_of_le_of_lt (Nat.mod_le _ _) h
  have hchar : Char.ofUInt8 (UInt8.ofNat c.toNat) = c := by
    refine Char.ext (UInt32.toNat_inj.1 ?_)
    rw [Char.ofUInt8, UInt8.toNat_toUInt32, UInt8.toNat_ofNat']
    exact Nat.mod_eq_of_lt (Nat.lt_trans h (by decide))
  simp [byteIs, hsmall, hchar]

/-- The first byte of a character tells whether the character is of a kind of ASCII. If it is, there is no
other byte. -/
theorem exists_byteIs {kind : Char → Bool} (hk : Ascii kind) (c : Char) :
    ∃ byte tail, String.utf8EncodeChar c = byte :: tail ∧ byteIs kind byte = kind c ∧
      (kind c = true → tail = []) := by
  by_cases hc : c.toNat < 128
  · exact ⟨_, _, utf8EncodeChar_of_ascii hc, byteIs_ofNat hc kind, fun _ => rfl⟩
  · obtain ⟨byte, tail, hb⟩ := exists_utf8EncodeChar_eq_cons c
    have hlarge : 128 ≤ byte.toNat :=
      le_of_mem_utf8EncodeChar (Nat.le_of_not_lt hc) (by rw [hb]; exact List.mem_cons_self)
    have hkind : kind c = false := Bool.eq_false_iff.2 fun h => hc (hk c h)
    exact ⟨byte, tail, hb, by rw [byteIs_of_le hlarge, hkind], fun h => by simp [hkind] at h⟩

theorem all_bytes {kind : Char → Bool} (hk : Ascii kind) (text : List Char) :
    (bytes text).all (byteIs kind) = text.all kind := by
  induction text with
  | nil => rfl
  | cons c rest ih =>
    obtain ⟨byte, tail, hb, hbyte, htail⟩ := exists_byteIs hk c
    rw [bytes_cons, hb, List.cons_append, List.all_cons, hbyte, List.all_cons]
    cases hc : kind c with
    | false => rfl
    | true => rw [htail hc, List.nil_append, ih]

theorem takeWhile_bytes {kind : Char → Bool} (hk : Ascii kind) (text : List Char) :
    (bytes text).takeWhile (byteIs kind) = bytes (text.takeWhile kind) := by
  induction text with
  | nil => rfl
  | cons c rest ih =>
    obtain ⟨byte, tail, hb, hbyte, htail⟩ := exists_byteIs hk c
    rw [bytes_cons, hb, List.cons_append, List.takeWhile_cons, hbyte, List.takeWhile_cons]
    cases hc : kind c with
    | false => rfl
    | true => simp only [htail hc, List.nil_append, ih, if_true, bytes_cons, hb, List.cons_append]

/-- Characters of a kind of ASCII are as many as their bytes. -/
theorem length_bytes_of_all {kind : Char → Bool} (hk : Ascii kind) {text : List Char}
    (h : text.all kind = true) : (bytes text).length = text.length := by
  induction text with
  | nil => rfl
  | cons c rest ih =>
    rw [List.all_cons, Bool.and_eq_true] at h
    rw [length_bytes_cons_of_ascii (hk c h.1), ih h.2, List.length_cons]

/-! ## Letter case -/

/-- The letters `A` to `Z` written small, every other byte as it is. -/
def lowerByte (byte : UInt8) : UInt8 :=
  if 65 ≤ byte && byte ≤ 90 then byte + 32 else byte

theorem map_lowerByte_utf8EncodeChar (c : Char) :
    (String.utf8EncodeChar c).map lowerByte = String.utf8EncodeChar c.toLower := by
  by_cases hc : c.toNat < 128
  · have hascii : ∀ n < 128, (Char.ofNat n).toLower.toNat < 128 ∧
        lowerByte (UInt8.ofNat n) = UInt8.ofNat (Char.ofNat n).toLower.toNat := by decide
    obtain ⟨hsmall, hbyte⟩ := hascii c.toNat hc
    rw [Char.ofNat_toNat] at hsmall hbyte
    rw [utf8EncodeChar_of_ascii hc, utf8EncodeChar_of_ascii hsmall, List.map_singleton, hbyte]
  · have hlower : c.toLower = c := by
      refine Char.toLower_eq_of_not_isUpper fun hupper => hc ?_
      have hletter : c.isAlphanum = true := by simp [Char.isAlphanum, Char.isAlpha, hupper]
      exact Nat.lt_of_le_of_lt (toNat_of_isAlphanum hletter).2 (by decide)
    rw [hlower]
    refine (List.map_congr_left fun byte hb => ?_).trans (List.map_id _)
    have hlarge := le_of_mem_utf8EncodeChar (Nat.le_of_not_lt hc) hb
    have hother : ¬ byte ≤ 90 := by
      rw [UInt8.le_iff_toNat_le]
      exact Nat.not_le.2 (Nat.lt_of_lt_of_le (by decide) hlarge)
    simp [lowerByte, hother]

theorem map_lowerByte_bytes (text : List Char) :
    (bytes text).map lowerByte = bytes (fold text) := by
  induction text with
  | nil => rfl
  | cons c rest ih =>
    rw [bytes_cons, List.map_append, map_lowerByte_utf8EncodeChar, ih, fold_cons, bytes_cons]

theorem map_lowerByte_eq_iff (s t : List Char) :
    (bytes s).map lowerByte = (bytes t).map lowerByte ↔ fold s = fold t := by
  rw [map_lowerByte_bytes, map_lowerByte_bytes, bytes_injective.eq_iff]

/-! ## Places -/

/-- The byte at which a character first stands. -/
def firstByteOf? (mark : Char) (text : String) : Option Nat :=
  (text.find? mark).map fun place => place.offset.byteIdx

theorem firstByteOf?_append {mark : Char} {front : List Char} (h : mark ∉ front)
    (rest : List Char) :
    firstByteOf? mark (String.ofList (front ++ mark :: rest)) = some (bytes front).length := by
  have hsplit : String.ofList (front ++ mark :: rest) =
      String.ofList front ++ (String.singleton mark ++ String.ofList rest) := by
    rw [String.ofList_append, String.ofList_cons]
  have hplace := String.Pos.splits_ofEqAppend hsplit
  have hfind : (String.ofList (front ++ mark :: rest)).find? mark =
      some (String.Pos.ofEqAppend hsplit) := by
    refine String.find?_char_eq_some_iff_splits.2 ⟨_, _, hplace, ?_⟩
    rwa [String.toList_ofList]
  rw [firstByteOf?, hfind, Option.map_some, hplace.offset_eq_rawEndPos, length_bytes]
  rfl

theorem firstByteOf?_of_not_mem {mark : Char} {text : List Char} (h : mark ∉ text) :
    firstByteOf? mark (String.ofList text) = none := by
  rw [firstByteOf?, Option.map_eq_none_iff]
  refine Option.eq_none_iff_forall_ne_some.2 fun place hfind => h ?_
  obtain ⟨front, rest, hsplits, -⟩ := String.find?_char_eq_some_iff_splits.1 hfind
  rw [← String.toList_ofList (l := text), hsplits.eq_append]
  simp

/-! ## Cutting a text -/

/-- A text was to be cut within a character or behind its end. -/
structure BadCut where
  offset : Nat
  deriving DecidableEq, Repr

/-- What stands in front of a byte, and what follows from there. -/
def cutAt (text : String) (offset : Nat) : Except BadCut (String × String) :=
  if h : (String.Pos.Raw.mk offset).IsValid text then
    .ok ((text.sliceTo ⟨⟨offset⟩, h⟩).copy, (text.sliceFrom ⟨⟨offset⟩, h⟩).copy)
  else .error ⟨offset⟩

theorem cutAt_append (front rest : String) :
    cutAt (front ++ rest) front.utf8ByteSize = .ok (front, rest) := by
  have hvalid : (String.Pos.Raw.mk front.utf8ByteSize).IsValid (front ++ rest) :=
    String.Pos.Raw.isValid_iff_exists_append.2 ⟨front, rest, rfl, rfl⟩
  let place : (front ++ rest).Pos := ⟨⟨front.utf8ByteSize⟩, hvalid⟩
  have hsplits : place.Splits front rest := ⟨rfl, rfl⟩
  rw [cutAt, dif_pos hvalid, hsplits.copy_sliceTo_eq, hsplits.copy_sliceFrom_eq]

theorem cutAt_eq_ok_iff (text : String) (offset : Nat) (front rest : String) :
    cutAt text offset = .ok (front, rest) ↔ text = front ++ rest ∧ offset = front.utf8ByteSize := by
  constructor
  · intro h
    rw [cutAt] at h
    split at h
    · next hvalid =>
      have hsplits := String.Pos.splits (⟨⟨offset⟩, hvalid⟩ : text.Pos)
      cases h
      exact ⟨hsplits.eq_append, congrArg String.Pos.Raw.byteIdx hsplits.offset_eq_rawEndPos⟩
    · cases h
  · rintro ⟨rfl, rfl⟩
    exact cutAt_append front rest

/-- The second letter has two bytes. -/
example : cutAt "aé" 2 = .error ⟨2⟩ := by decide

/-- Between two characters a text can be cut. -/
theorem cutAt_bytes {text : String} {front rest : List Char} (h : text.toList = front ++ rest) :
    cutAt text (bytes front).length = .ok (String.ofList front, String.ofList rest) := by
  have htext : text = String.ofList front ++ String.ofList rest := by
    rw [← String.ofList_append, ← h, String.ofList_toList]
  rw [length_bytes, htext, cutAt_append]

end ContentSecurity.Text
