import ContentSecurity.Proofs.Header.Delimiters
import ContentSecurity.Proofs.Header.Renderings
import ContentSecurity.Proofs.Text.Bytes

/-!
The headers of a store. Names, keywords and all values that a grammar lets through are written in
printing characters of ASCII, whatever else their authors tried. So a policy of the first standard
always has a header value as soon as it has a directive, and the value can be read as text.
-/
namespace ContentSecurity

/-- The blank and the visible characters of ASCII. -/
def isPrinting (c : Char) : Bool :=
  0x20 ≤ c.toNat && c.toNat ≤ 0x7E

theorem isPrinting_of_isAlphanum (c : Char) (h : c.isAlphanum = true) : isPrinting c = true := by
  have hrange := Text.toNat_of_isAlphanum h
  simp only [isPrinting, Bool.and_eq_true, decide_eq_true_eq]
  omega

theorem isPrinting_of_isTargetChar (c : Char) (h : Grammar.isTargetChar c = true) :
    isPrinting c = true := by
  simp only [Grammar.isTargetChar, Grammar.isPathChar, Bool.or_eq_true, List.contains_iff_mem,
    beq_iff_eq] at h
  obtain (h | h) | rfl := h
  · exact isPrinting_of_isAlphanum c h
  · have marks : "_!#$&'()*+,./:;=?@[]~-".toList.all isPrinting = true := by decide
    exact List.all_eq_true.1 marks c h
  · rfl

/-! ## Rendered policies -/

/-- Names and keywords are written in printing characters. -/
structure Vocabulary.Printing (vocabulary : Vocabulary) : Prop where
  names : ∀ entry ∈ vocabulary.entries, entry.1.toList.all isPrinting = true
  keywords : ∀ entry ∈ vocabulary.entries, ∀ word ∈ entry.2.keywords,
    word.toList.all isPrinting = true

theorem Vocabulary.csp1_printing : csp1.Printing :=
  ⟨by decide, by decide⟩

/-- A character that does not print occurs no more than a delimiter does. -/
theorem Vocabulary.Printing.delimiter {vocabulary : Vocabulary} (h : vocabulary.Printing)
    {mark : Char} (hm : ¬ isPrinting mark = true) : vocabulary.Delimiter mark where
  names := fun entry he hmem => hm (List.all_eq_true.1 (h.names entry he) mark hmem)
  keywords := fun entry he word hw hmem =>
    hm (List.all_eq_true.1 (h.keywords entry he word hw) mark hmem)
  hosts := by
    rw [Bool.eq_false_iff]
    intro hh
    exact hm (isPrinting_of_isTargetChar mark (Grammar.isTargetChar_of_isHostChar mark hh))
  quotes := by
    rintro rfl
    exact hm (by decide)

theorem Policy.Conforms.isReportTarget_of_mem {vocabulary : Vocabulary} {policy : Policy}
    (hp : policy.Conforms vocabulary) {text : String} (ht : text ∈ policy.targets) :
    isReportTarget text = true := by
  obtain ⟨directive, hd, hm⟩ := List.mem_flatMap.1 ht
  obtain ⟨source, hs, he⟩ := List.mem_filterMap.1 hm
  obtain ⟨form, -, hc⟩ := hp.formed directive hd
  obtain rfl := (source.target?_eq_some_iff text).1 he
  cases hc.admitted _ hs with
  | reportTarget _ _ hr => exact hr

/-- Everything in a rendered policy prints. -/
theorem Policy.Conforms.isPrinting_render {vocabulary : Vocabulary} {policy : Policy}
    (hp : policy.Conforms vocabulary) (h : vocabulary.Printing) :
    ∀ c ∈ policy.render.toList, isPrinting c = true := by
  intro c hc
  by_contra hn
  have hblank : c ≠ ' ' := by
    rintro rfl
    exact hn (by decide)
  have hend : ";".toList.count c = 0 := by
    rw [List.count_eq_zero, show ";".toList = [';'] from rfl, List.mem_singleton]
    rintro rfl
    exact hn (by decide)
  have htargets : (policy.targets.map (·.toList.count c)).sum = 0 := by
    rw [sum_count_eq_zero_iff]
    intro text ht hm
    have hr := hp.isReportTarget_of_mem ht
    exact hn (isPrinting_of_isTargetChar c (isTargetChar_of_isReportTarget hr c hm))
  have hcount := (h.delimiter hn).count_policy hblank hp
  rw [hend, htargets, Nat.mul_zero, Nat.add_zero] at hcount
  exact List.count_eq_zero.1 hcount hc

/-! ## Header values -/

theorem bytes_of_isPrinting {text : String} (h : ∀ c ∈ text.toList, isPrinting c = true) :
    ∀ byte ∈ text.toUTF8.data, 0x20 ≤ byte ∧ byte ≤ 0x7E := by
  intro byte hb
  rw [← Array.mem_toList_iff, ← Text.bytes_toList, Text.bytes, List.mem_flatMap] at hb
  obtain ⟨c, hc, hb⟩ := hb
  have hrange := h c hc
  simp only [isPrinting, Bool.and_eq_true, decide_eq_true_eq] at hrange
  rw [Text.utf8EncodeChar_of_ascii (by omega), List.mem_singleton] at hb
  simp only [hb, UInt8.le_iff_toNat_le, UInt8.toNat_ofNat', UInt8.reduceToNat]
  omega

theorem isFieldByte_of_isVisibleByte {byte : UInt8} (h : isVisibleByte byte = true) :
    isFieldByte byte = true := by
  simp only [isVisibleByte, Bool.or_eq_true, Bool.and_eq_true, decide_eq_true_eq] at h
  obtain htab | ⟨hlow, hhigh⟩ := h
  · simp only [isFieldByte, htab, Bool.true_or]
  · have hne : byte ≠ 127 := fun he => absurd hhigh (by rw [he]; decide)
    simp [isFieldByte, hlow, hne]

/-- A text in visible characters is a header value, and the value is read as that text. -/
theorem FieldValue.ofString?_of_visible {text : String}
    (h : text.toUTF8.data.all isVisibleByte = true) :
    ∃ value, ofString? text = some value ∧ value.bytes = text.toUTF8 ∧ value.text? = some text := by
  have hlegal : text.toUTF8.data.all isFieldByte = true := by
    rw [Array.all_eq_true_iff_forall_mem] at h ⊢
    exact fun byte hb => isFieldByte_of_isVisibleByte (h byte hb)
  refine ⟨⟨text.toUTF8, hlegal⟩, dif_pos hlegal, rfl, ?_⟩
  rw [text?, if_pos h, fromUTF8?_toUTF8]

theorem FieldValue.ofString?_of_printing {text : String}
    (h : ∀ byte ∈ text.toUTF8.data, 0x20 ≤ byte ∧ byte ≤ 0x7E) :
    ∃ value, ofString? text = some value ∧ value.bytes = text.toUTF8 ∧ value.text? = some text := by
  refine ofString?_of_visible (Array.all_eq_true_iff_forall_mem.2 fun byte hb => ?_)
  exact (isVisibleByte_iff byte).2 (.inr (h byte hb))

/-! ## The headers of a store -/

/-- The policies that need a header, each with the name of its header. -/
def neededHeaders (named : List (String × Policy)) : List (String × Policy) :=
  named.filter fun (_, policy) => policy.directives ≠ []

/-- A policy that prints has a header value as soon as it has a directive. -/
theorem Policy.fieldValue_cases {policy : Policy}
    (h : ∀ c ∈ policy.render.toList, isPrinting c = true) :
    (policy.isEmpty = true ∧ policy.fieldValue = .ok none) ∨
      policy.isEmpty = false ∧ ∃ value, policy.fieldValue = .ok (some value) ∧
        value.bytes = policy.render.toUTF8 ∧ value.text? = some policy.render := by
  cases hempty : policy.isEmpty with
  | true => exact .inl ⟨rfl, by rw [fieldValue, if_pos hempty]⟩
  | false =>
    obtain ⟨value, -, hbytes, htext⟩ := FieldValue.ofString?_of_printing (bytes_of_isPrinting h)
    refine .inr ⟨rfl, value, (policy.fieldValue_eq_ok_iff _).2 ?_, hbytes, htext⟩
    rw [hempty, if_neg Bool.false_ne_true]
    exact ⟨value, rfl, hbytes⟩

/-- A policy in which everything prints has the header that it needs. -/
theorem Policy.fieldValue_of_printing {policy : Policy}
    (h : ∀ c ∈ policy.render.toList, isPrinting c = true) (name : String) :
    ∃ entry, policy.fieldValue = .ok entry ∧
      (entry.toList.map fun value => (name, value.text?)) =
        (neededHeaders [(name, policy)]).map (fun (name, policy) => (name, some policy.render)) ∧
      ∀ value ∈ entry.toList, ∀ byte ∈ value.bytes.data, 0x20 ≤ byte ∧ byte ≤ 0x7E := by
  have hneeded : policy.isEmpty = policy.directives.isEmpty := by
    rw [Bool.eq_iff_iff, policy.isEmpty_iff, List.isEmpty_iff]
  obtain ⟨hempty, hnone⟩ | ⟨hfull, value, hvalue, hbytes, htext⟩ := Policy.fieldValue_cases h
  · rw [hneeded] at hempty
    exact ⟨none, hnone, by simp_all [neededHeaders], by simp⟩
  · rw [hneeded] at hfull
    exact ⟨some value, hvalue, by simp_all [neededHeaders],
      by simpa [hbytes] using bytes_of_isPrinting h⟩

/-- With the directives of the first standard, each policy that has a directive gets its header and
no other header is written, the enforced policy coming first. All that is in a header prints, and
it is read as the text of the policy. -/
theorem headers_of_reachable (store : Store) (h : store.Reachable .csp1) (names : HeaderNames) :
    ∃ headers, store.headers names = .ok headers ∧
      (headers.map fun (name, value) => (name, value.text?)) =
        (neededHeaders [(names.enforced, store.enforced), (names.reported, store.reported)]).map
          (fun (name, policy) => (name, some policy.render)) ∧
      ∀ header ∈ headers, ∀ byte ∈ header.2.bytes.data, 0x20 ≤ byte ∧ byte ≤ 0x7E := by
  have hprints (disposition : Disposition) :
      ∀ c ∈ (store.policy disposition).render.toList, isPrinting c = true := by
    have hr : Policy.Reachable .csp1 (store.policy disposition) := ⟨store, disposition, h, rfl⟩
    exact hr.conforms.isPrinting_render Vocabulary.csp1_printing
  obtain ⟨enforced, he, hetexts, hebytes⟩ :=
    Policy.fieldValue_of_printing (hprints .enforce) names.enforced
  obtain ⟨reported, hr, hrtexts, hrbytes⟩ :=
    Policy.fieldValue_of_printing (hprints .report) names.reported
  refine ⟨enforced.toList.map (names.enforced, ·) ++ reported.toList.map (names.reported, ·),
    ?_, ?_, ?_⟩
  · have he' : store.enforced.fieldValue = .ok enforced := he
    have hr' : store.reported.fieldValue = .ok reported := hr
    simp only [Store.headers, he', hr']
    rfl
  · have hneeded :
        neededHeaders [(names.enforced, store.enforced), (names.reported, store.reported)] =
          neededHeaders [(names.enforced, store.enforced)] ++
            neededHeaders [(names.reported, store.reported)] :=
      List.filter_append [_] [_]
    rw [List.map_append, List.map_map, List.map_map, hneeded, List.map_append]
    exact congrArg₂ (· ++ ·) hetexts hrtexts
  · intro header hm
    simp only [List.mem_append, List.mem_map] at hm
    obtain ⟨value, hv, rfl⟩ | ⟨value, hv, rfl⟩ := hm
    · exact hebytes value hv
    · exact hrbytes value hv

/-- A letter outside ASCII is refused, and the header is as it would have been without it. -/
theorem headers_of_reachable_after_refusal :
    ∃ start : Store, Store.Founded .csp1 start ∧
      ∃ headers, (start.run [
        .edit (.add .enforce ⟨[("img-src", ["bücher.example"])], by decide⟩),
        .edit (.add .enforce ⟨[("report-uri", ["/%7Ereport"])], by decide⟩)]).headers default =
          .ok headers ∧
        (headers.map fun (name, value) => (name, value.text?)) =
          [("content-security-policy", some "img-src 'self' data:;report-uri /%7Ereport;")] := by
  have hf : Store.Founded .csp1 _ := .ofValues ⟨[("img-src", ["self", "DATA:"])], by decide⟩ ∅ _ rfl
  obtain ⟨headers, hh, htexts, -⟩ := headers_of_reachable _ (hf.reachable.run _) default
  exact ⟨_, hf, headers, hh, htexts.trans (by decide)⟩

end ContentSecurity
