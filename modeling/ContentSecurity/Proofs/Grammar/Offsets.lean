import ContentSecurity.Proofs.Grammar.Alphabet
import ContentSecurity.Proofs.Text.Bytes

/-!
The rules as they are carried out on the bytes of a text. A rule goes over the bytes, counts how far it
comes, and cuts the text there. Whatever the text, each cut falls where a character begins or the text
ends, and what is cut off is what the rule recognises among the characters.
-/
namespace ContentSecurity.Grammar

open Text (BadCut Ascii bytes byteIs cutAt cutAt_bytes)

/-- A rule on the bytes of a text. A bad cut is the end of it. -/
abbrev ByteRule (α : Type) := String → Except BadCut (Option (α × String))

/-- What a rule recognises among the characters of a text, with what is left. -/
def Rule.onText {α β : Type} (rule : Rule α) (write : α → β) (text : String) :
    Option (β × String) :=
  (rule text.toList).map (Prod.map write String.ofList)

/-! ## The rules -/

/-- The first items pass the tests, each its own. -/
def frontPasses {α : Type} : List (α → Bool) → List α → Bool
  | [], _ => true
  | _ :: _, [] => false
  | test :: tests, item :: rest => test item && frontPasses tests rest

/-- The kinds of characters that make an encoded byte. -/
def encodedByte : List (Char → Bool) :=
  [(· == '%'), Char.isHexDigit, Char.isHexDigit]

def startsEncoded (front : List UInt8) : Bool :=
  frontPasses (encodedByte.map byteIs) front

/-- Goes on from a place, over encoded bytes three at a time and over plain ones, and tells the place where
it stops. What is plain may depend on the place. -/
def scan (plainAt : Nat → Char → Bool) (place : Nat) : List UInt8 → Nat
  | [] => place
  | byte :: rest =>
    if startsEncoded (byte :: rest) then scan plainAt (place + 3) (rest.drop 2)
    else if byteIs (plainAt place) byte then scan plainAt (place + 1) rest
    else place
termination_by rest => rest.length

/-- What follows the head, which is compared with as many bytes whatever their case. Where no character
begins behind so many bytes, the head is not there. -/
def afterFoldedBytes? (head text : String) : Except BadCut (Option String) :=
  match cutAt text head.utf8ByteSize with
  | .error _ => .ok none
  | .ok (front, _) =>
    if (bytes front.toList).map Text.lowerByte = (bytes head.toList).map Text.lowerByte then do
      let (_, rest) ← cutAt text head.utf8ByteSize
      return some rest
    else .ok none

/-- A dot is plain behind the first place only. -/
def isDomainCharAt (place : Nat) (c : Char) : Bool :=
  (c == '.' && 0 < place) || c.isAlphanum || c == '-'

/-- What may stand between the brackets, by the bytes of the groups. -/
def isAddressByBytes (inner : String) : Bool :=
  inner.toList.contains ':' && (inner.toList.splitOn ':').all fun group =>
    (bytes group).length ≤ 4 && (bytes group).all (byteIs Char.isHexDigit)

namespace ByteRule

def scheme : ByteRule Scheme := fun text => do
  match ← afterFoldedBytes? "https://" text with
  | some rest => return some (.https, rest)
  | none =>
    let rest ← afterFoldedBytes? "http://" text
    return rest.map fun rest => (.http, rest)

def domain : ByteRule String := fun text =>
  match scan isDomainCharAt 0 (bytes text.toList) with
  | 0 => .ok none
  | stop => some <$> cutAt text stop

def addressLiteral : ByteRule String := fun text =>
  match text.toList with
  | '[' :: inner =>
    match Text.firstByteOf? ']' (String.ofList inner) with
    | none => .ok none
    | some close => do
      let (groups, _) ← cutAt (String.ofList inner) close
      if isAddressByBytes groups then some <$> cutAt text (close + 2) else return none
  | _ => .ok none

def port : ByteRule String := fun text =>
  match text.toList with
  | ':' :: rest =>
    match ((bytes rest).takeWhile (byteIs Char.isDigit)).length with
    | 0 => .ok none
    | stop => some <$> cutAt (String.ofList rest) stop
  | _ => .ok none

def path : ByteRule String := fun text =>
  match text.toList with
  | '/' :: rest => some <$> cutAt text (scan (fun _ => isPathChar) 1 (bytes rest))
  | _ => .ok none

end ByteRule

/-! ## Kinds of characters -/

theorem ascii_isAlphanum : Ascii Char.isAlphanum :=
  fun _ h => Nat.lt_of_le_of_lt (Text.toNat_of_isAlphanum h).2 (by decide)

theorem ascii_isHexDigit : Ascii Char.isHexDigit :=
  fun c h => ascii_isAlphanum c (isAlphanum_of_isHexDigit c h)

theorem ascii_isDigit : Ascii Char.isDigit :=
  fun c h => ascii_isAlphanum c (by simp [Char.isAlphanum, h])

theorem ascii_mark {mark : Char} (hm : mark.toNat < 128) : Ascii (· == mark) := by
  intro c h
  rwa [eq_of_beq h]

theorem ascii_isPathChar : Ascii isPathChar := by
  intro c h
  simp only [isPathChar, Bool.or_eq_true, List.contains_iff_mem] at h
  obtain h | h := h
  · exact ascii_isAlphanum c h
  · have marks : "_!#$&'()*+,./:;=?@[]~-".toList.all (·.toNat < 128) = true := by decide
    simpa using List.all_eq_true.1 marks c h

theorem isDomainChar_of_isDomainCharAt {place : Nat} {c : Char}
    (h : isDomainCharAt place c = true) : isDomainChar c = true := by
  simp only [isDomainCharAt, isDomainChar, Bool.or_eq_true, Bool.and_eq_true] at h ⊢
  obtain (⟨hdot, -⟩ | hletter) | hhyphen := h
  · exact .inr hdot
  · exact .inl (.inl hletter)
  · exact .inl (.inr hhyphen)

theorem isDomainCharAt_of_ne_dot (place : Nat) {c : Char} (hc : c ≠ '.') :
    isDomainCharAt place c = isDomainChar c := by
  have hdot : (c == '.') = false := beq_false_of_ne hc
  simp [isDomainCharAt, isDomainChar, hdot]

theorem isDomainCharAt_of_pos {place : Nat} (hp : 0 < place) : isDomainCharAt place = isDomainChar := by
  funext c
  by_cases hc : c = '.'
  · subst hc
    simp [isDomainCharAt, isDomainChar, hp]
  · exact isDomainCharAt_of_ne_dot place hc

theorem ascii_isDomainChar : Ascii isDomainChar := by
  intro c h
  simp only [isDomainChar, Bool.or_eq_true, beq_iff_eq] at h
  obtain (h | rfl) | rfl := h
  · exact ascii_isAlphanum c h
  · decide
  · decide

theorem ascii_isDomainCharAt (place : Nat) : Ascii (isDomainCharAt place) :=
  fun c h => ascii_isDomainChar c (isDomainChar_of_isDomainCharAt h)

/-! ## Scanning -/

theorem frontPasses_bytes {kinds : List (Char → Bool)} (hk : ∀ kind ∈ kinds, Ascii kind)
    (text : List Char) : frontPasses (kinds.map byteIs) (bytes text) = frontPasses kinds text := by
  induction kinds generalizing text with
  | nil => rfl
  | cons kind kinds ih =>
    cases text with
    | nil => rfl
    | cons c rest =>
      obtain ⟨byte, tail, hb, hbyte, htail⟩ := Text.exists_byteIs (hk kind List.mem_cons_self) c
      rw [Text.bytes_cons, hb, List.cons_append, List.map_cons, frontPasses, hbyte, frontPasses]
      cases hc : kind c with
      | false => rfl
      | true =>
        rw [htail hc, List.nil_append, ih fun kind hm => hk kind (List.mem_cons_of_mem _ hm)]

/-- An encoded byte comes first. -/
def StartsEncoded (text : List Char) : Prop :=
  ∃ a b rest, text = '%' :: a :: b :: rest ∧ a.isHexDigit = true ∧ b.isHexDigit = true

theorem startsEncoded_percent_iff (a b : Char) (rest : List Char) :
    StartsEncoded ('%' :: a :: b :: rest) ↔ (a.isHexDigit && b.isHexDigit) = true := by
  rw [Bool.and_eq_true]
  constructor
  · rintro ⟨a', b', rest', he, ha, hb⟩
    cases he
    exact ⟨ha, hb⟩
  · rintro ⟨ha, hb⟩
    exact ⟨a, b, rest, rfl, ha, hb⟩

/-- An encoded byte needs a percent sign and two characters behind it. -/
theorem not_startsEncoded_cons {c : Char} {rest : List Char}
    (h : ∀ a b tail, c = '%' → rest = a :: b :: tail → False) : ¬ StartsEncoded (c :: rest) := by
  rintro ⟨a, b, tail, he, -⟩
  cases he
  exact h a b tail rfl rfl

theorem startsEncoded_bytes_iff (text : List Char) :
    startsEncoded (bytes text) = true ↔ StartsEncoded text := by
  have hk : ∀ kind ∈ encodedByte, Ascii kind := by
    simp only [encodedByte, List.forall_mem_cons, List.not_mem_nil, IsEmpty.forall_iff,
      implies_true, and_true]
    exact ⟨ascii_mark (by decide), ascii_isHexDigit, ascii_isHexDigit⟩
  rw [startsEncoded, frontPasses_bytes hk]
  constructor
  · intro h
    obtain _ | ⟨c, _ | ⟨a, _ | ⟨b, rest⟩⟩⟩ := text
    · simp [frontPasses, encodedByte] at h
    · simp [frontPasses, encodedByte] at h
    · simp [frontPasses, encodedByte] at h
    · simp only [frontPasses, encodedByte, Bool.and_true, Bool.and_eq_true, beq_iff_eq] at h
      obtain ⟨rfl, ha, hb⟩ := h
      exact ⟨a, b, rest, rfl, ha, hb⟩
  · rintro ⟨a, b, rest, rfl, ha, hb⟩
    simp [frontPasses, encodedByte, ha, hb]

theorem bytes_encoded {a b : Char} (ha : a.isHexDigit = true) (hb : b.isHexDigit = true)
    (rest : List Char) : bytes ('%' :: a :: b :: rest) =
      0x25 :: UInt8.ofNat a.toNat :: UInt8.ofNat b.toNat :: bytes rest := by
  rw [Text.bytes_cons, Text.bytes_cons, Text.bytes_cons,
    Text.utf8EncodeChar_of_ascii (ascii_isHexDigit a ha),
    Text.utf8EncodeChar_of_ascii (ascii_isHexDigit b hb)]
  exact List.singleton_append

section Scan

variable (plainAt : Nat → Char → Bool) (place : Nat)

theorem scan_encoded {a b : Char} (ha : a.isHexDigit = true) (hb : b.isHexDigit = true)
    (rest : List Char) :
    scan plainAt place (bytes ('%' :: a :: b :: rest)) = scan plainAt (place + 3) (bytes rest) := by
  have hencoded := (startsEncoded_bytes_iff _).2 ⟨a, b, rest, rfl, ha, hb⟩
  rw [bytes_encoded ha hb] at hencoded ⊢
  rw [scan, if_pos hencoded, List.drop_succ_cons, List.drop_succ_cons, List.drop_zero]

/-- Where no encoded byte comes first, the first byte of a character decides. -/
theorem scan_cons (hk : Ascii (plainAt place)) {c : Char} {rest : List Char}
    (h : ¬ StartsEncoded (c :: rest)) :
    scan plainAt place (bytes (c :: rest)) =
      if plainAt place c then scan plainAt (place + 1) (bytes rest) else place := by
  obtain ⟨byte, tail, hb, hbyte, htail⟩ := Text.exists_byteIs hk c
  rw [← startsEncoded_bytes_iff, Text.bytes_cons, hb, List.cons_append] at h
  rw [Text.bytes_cons, hb, List.cons_append, scan, if_neg h, hbyte]
  cases hc : plainAt place c with
  | false => rfl
  | true => rw [htail hc, List.nil_append]

end Scan

/-- The scan comes as far as the run of plain characters and encoded bytes. -/
theorem scan_bytes {plain : Char → Bool} (hplain : Ascii plain) (hp : plain '%' = false)
    (plainAt : Nat → Char → Bool) (input : List Char) (place : Nat)
    (hk : Ascii (plainAt place)) (hfirst : ∀ c ∈ input.head?, plainAt place c = plain c)
    (hlater : ∀ later, place < later → plainAt later = plain) :
    scan plainAt place (bytes input) = place + (bytes (spanEncoded plain input).1).length := by
  fun_induction spanEncoded plain input generalizing place with
  | case1 => simp [scan]
  | case2 a b rest hex run rest' hs ih =>
    rw [Bool.and_eq_true] at hex
    have hplace : plainAt (place + 3) = plain := hlater _ (by omega)
    have hrest := ih (place + 3) (hplace ▸ hplain) (fun c _ => by rw [hplace])
      fun later hl => hlater later (by omega)
    rw [scan_encoded plainAt place hex.1 hex.2, hrest, hs, bytes_encoded hex.1 hex.2]
    simp only [List.length_cons]
    omega
  | case3 a b rest hex =>
    have hother := (startsEncoded_percent_iff a b rest).not.2 hex
    rw [scan_cons plainAt place hk hother, hfirst '%' rfl, hp]
    rfl
  | case4 c rest hbyte ok run rest' hs ih =>
    have hplace : plainAt (place + 1) = plain := hlater _ (by omega)
    have hrest := ih (place + 1) (hplace ▸ hplain) (fun c _ => by rw [hplace])
      fun later hl => hlater later (by omega)
    rw [scan_cons plainAt place hk (not_startsEncoded_cons hbyte), hfirst c rfl, if_pos ok, hrest, hs]
    simp only [Text.length_bytes_cons_of_ascii (hplain c ok)]
    omega
  | case5 c rest hbyte ok =>
    rw [scan_cons plainAt place hk (not_startsEncoded_cons hbyte), hfirst c rfl, if_neg ok]
    rfl

/-! ## Rules by bytes and by characters -/

/-- Where the head is there, the text can be cut behind as many bytes as the head has. -/
theorem cutAt_of_afterFolded? {head text : String} {rest : List Char}
    (h : Text.afterFolded? head.toList text.toList = some rest) :
    ∃ front, cutAt text head.utf8ByteSize = .ok (front, String.ofList rest) ∧
      (bytes front.toList).map Text.lowerByte = (bytes head.toList).map Text.lowerByte := by
  obtain ⟨front, htext, hsame⟩ := Text.afterFolded?_eq_some_iff.1 h
  have hbytes := (Text.map_lowerByte_eq_iff front head.toList).2 (eq_of_beq hsame)
  have hlength : (bytes front).length = head.utf8ByteSize := by
    simpa [Text.length_bytes_toList] using congrArg List.length hbytes
  refine ⟨String.ofList front, ?_, ?_⟩
  · rw [← hlength, cutAt_bytes htext]
  · rw [String.toList_ofList, hbytes]

/-- What is cut off is compared with the head by its bytes, and what cannot be cut off is not the head. -/
theorem afterFoldedBytes?_eq (head text : String) :
    afterFoldedBytes? head text =
      .ok ((Text.afterFolded? head.toList text.toList).map String.ofList) := by
  unfold afterFoldedBytes?
  cases hs : Text.afterFolded? head.toList text.toList with
  | some rest =>
    obtain ⟨front, hcut, hbytes⟩ := cutAt_of_afterFolded? hs
    simp only [hcut, if_pos hbytes]
    rfl
  | none =>
    cases hcut : cutAt text head.utf8ByteSize with
    | error bad => rfl
    | ok parts =>
      obtain ⟨front, rest⟩ := parts
      obtain ⟨htext, -⟩ := (Text.cutAt_eq_ok_iff _ _ _ _).1 hcut
      have hother : (bytes front.toList).map Text.lowerByte ≠
          (bytes head.toList).map Text.lowerByte := by
        intro hbytes
        have hsome : Text.afterFolded? head.toList text.toList = some rest.toList := by
          refine Text.afterFolded?_eq_some_iff.2 ⟨front.toList, ?_, ?_⟩
          · rw [htext, String.toList_append]
          · exact beq_iff_eq.2 ((Text.map_lowerByte_eq_iff _ _).1 hbytes)
        rw [hs] at hsome
        cases hsome
      simp only [if_neg hother]
      rfl

namespace ByteRule

theorem scheme_eq (text : String) : scheme text = .ok (Grammar.scheme.onText id text) := by
  simp only [scheme, afterFoldedBytes?_eq, Rule.onText, Grammar.scheme]
  cases Text.afterFolded? "https://".toList text.toList with
  | some rest => rfl
  | none => cases Text.afterFolded? "http://".toList text.toList <;> rfl

theorem domain_eq (text : String) :
    domain text = .ok (Grammar.domain.onText String.ofList text) := by
  rw [domain, Rule.onText, Grammar.domain_eq]
  by_cases hdot : text.toList.head? = some '.'
  · obtain ⟨rest, hrest⟩ := List.head?_eq_some_iff.1 hdot
    have hother : ¬ StartsEncoded ('.' :: rest) :=
      not_startsEncoded_cons fun _ _ _ hdot _ => absurd hdot (by decide)
    have hscan : scan isDomainCharAt 0 (bytes text.toList) = 0 := by
      rw [hrest, scan_cons isDomainCharAt 0 (ascii_isDomainCharAt 0) hother]
      rfl
    rw [hscan, if_pos (.inl hdot)]
    rfl
  · have hfirst : ∀ c ∈ text.toList.head?, isDomainCharAt 0 c = isDomainChar c := by
      intro c hc
      refine isDomainCharAt_of_ne_dot 0 ?_
      rintro rfl
      exact hdot hc
    have hscan := scan_bytes ascii_isDomainChar rfl isDomainCharAt text.toList 0
      (ascii_isDomainCharAt 0) hfirst fun later hl => isDomainCharAt_of_pos hl
    have hcut := cutAt_bytes (spanEncoded_append isDomainChar text.toList).symm
    rw [hscan, Nat.zero_add]
    split
    · next hstop =>
      rw [if_pos (.inr ((Text.length_bytes_eq_zero_iff _).1 hstop))]
      rfl
    · next hstop =>
      have hrun : (spanEncoded isDomainChar text.toList).1 ≠ [] :=
        fun hrun => hstop ((Text.length_bytes_eq_zero_iff _).2 hrun)
      rw [if_neg (not_or.2 ⟨hdot, hrun⟩), hcut]
      rfl

theorem isAddressByBytes_ofList (inner : List Char) :
    isAddressByBytes (String.ofList inner) = isAddress inner := by
  have hgroup (group : List Char) : ((bytes group).length ≤ 4 &&
      (bytes group).all (byteIs Char.isHexDigit)) = isAddressGroup group := by
    rw [Text.all_bytes ascii_isHexDigit, isAddressGroup]
    cases hx : group.all Char.isHexDigit with
    | false => rw [Bool.and_false, Bool.and_false]
    | true => rw [Text.length_bytes_of_all ascii_isHexDigit hx]
  rw [isAddressByBytes, String.toList_ofList, isAddress]
  simp only [hgroup]

theorem addressLiteral_eq (text : String) :
    addressLiteral text = .ok (Grammar.addressLiteral.onText String.ofList text) := by
  unfold addressLiteral
  split
  · next inner htext =>
    rw [Rule.onText, htext]
    by_cases hclose : ']' ∈ inner
    · obtain ⟨groups, rest, rfl, hgroups⟩ := List.eq_append_cons_of_mem hclose
      have hopen : ∀ c ∈ groups, (c != ']') = true := by
        intro c hc
        rw [bne_iff_ne]
        rintro rfl
        exact hgroups hc
      have hend : ∀ c ∈ (']' :: rest).head?, (c != ']') = false := by simp
      have hinner := cutAt_bytes (String.toList_ofList (l := groups ++ ']' :: rest))
      have hwhole : text.toList = ('[' :: groups ++ [']']) ++ rest := by simp [htext]
      -- The brackets are one byte each.
      have hlength : (bytes groups).length + 2 = (bytes ('[' :: groups ++ [']'])).length := by
        rw [List.cons_append, Text.length_bytes_cons_of_ascii (by decide), Text.bytes_append,
          List.length_append]
        rfl
      simp only [Text.firstByteOf?_append hgroups, hinner, hlength, cutAt_bytes hwhole,
        Grammar.addressLiteral, takeWhile_run_append hopen hend, dropWhile_run_append hopen hend]
      change (if isAddressByBytes (String.ofList groups) then _ else _) = _
      rw [isAddressByBytes_ofList]
      split <;> rfl
    · have hdrop : inner.dropWhile (· != ']') = [] := by
        refine List.dropWhile_eq_nil_iff.2 fun c hc => ?_
        rw [bne_iff_ne]
        rintro rfl
        exact hclose hc
      simp only [Text.firstByteOf?_of_not_mem hclose, Grammar.addressLiteral, hdrop]
      rfl
  · next hother =>
    rw [Rule.onText, addressLiteral_of_head (head?_ne_of_forall_ne_cons hother)]
    rfl

theorem port_eq (text : String) : port text = .ok (Grammar.port.onText String.ofList text) := by
  unfold port
  split
  · next rest htext =>
    have hsplit : (String.ofList rest).toList =
        rest.takeWhile Char.isDigit ++ rest.dropWhile Char.isDigit := by simp
    rw [Rule.onText, htext, Text.takeWhile_bytes ascii_isDigit, Grammar.port]
    split
    · next hstop =>
      rw [(Text.length_bytes_eq_zero_iff _).1 hstop]
      rfl
    · next hstop =>
      have hdigits : rest.takeWhile Char.isDigit ≠ [] :=
        fun hdigits => hstop ((Text.length_bytes_eq_zero_iff _).2 hdigits)
      obtain ⟨digit, digits, hd⟩ := List.exists_cons_of_ne_nil hdigits
      rw [cutAt_bytes hsplit, hd]
      rfl
  · next hother =>
    rw [Rule.onText, port_of_head (head?_ne_of_forall_ne_cons hother)]
    rfl

theorem path_eq (text : String) : path text = .ok (Grammar.path.onText String.ofList text) := by
  unfold path
  split
  · next rest htext =>
    have hscan := scan_bytes ascii_isPathChar rfl (fun _ => isPathChar) rest 1 ascii_isPathChar
      (fun _ _ => rfl) fun _ _ => rfl
    have hlength : (bytes ('/' :: (spanEncoded isPathChar rest).1)).length =
        1 + (bytes (spanEncoded isPathChar rest).1).length := by
      rw [Text.length_bytes_cons_of_ascii (by decide), Nat.add_comm]
    have hwhole : text.toList = ('/' :: (spanEncoded isPathChar rest).1) ++
        (spanEncoded isPathChar rest).2 := by
      rw [htext, List.cons_append, spanEncoded_append]
    rw [hscan, ← hlength, cutAt_bytes hwhole, Rule.onText, htext]
    rfl
  · next hother =>
    rw [Rule.onText, path_of_head (head?_ne_of_forall_ne_cons hother)]
    rfl

end ByteRule

end ContentSecurity.Grammar
