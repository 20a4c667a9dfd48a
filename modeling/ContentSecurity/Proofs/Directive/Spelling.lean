import ContentSecurity.Proofs.Directive.Conformance
import ContentSecurity.Proofs.Grammar.Alphabet

/-!
How sources are spelled. A source is kept as its author wrote it, but for `data:`, whose spellings
all become one; so what a source is called and which values name it are told by normal spellings,
as long as no keyword is itself a spelling of `data:`.
-/
namespace ContentSecurity

/-- The spelling under which a value is kept. -/
def normal (value : String) : String :=
  if isDataMark value then "data:" else value

theorem normal_of_isDataMark {value : String} (h : isDataMark value = true) :
    normal value = "data:" := if_pos h

theorem normal_of_not {value : String} (h : ¬ isDataMark value = true) : normal value = value :=
  if_neg h

/-- A spelling other than `data:` is the normal spelling of itself alone. -/
theorem eq_of_normal_eq {value word : String} (h : normal value = word) (hw : word ≠ "data:") :
    value = word := by
  by_cases hv : isDataMark value = true
  · rw [normal_of_isDataMark hv] at h
    exact absurd h.symm hw
  · rwa [normal_of_not hv] at h

/-! ## Spellings of `data:` -/

/-- A character that is written small is that small letter or the large one before it. -/
theorem eq_or_eq_of_toLower {c small : Char} (h : c.toLower = small) (large : Char)
    (hl : large.toNat + 32 = small.toNat) : c = small ∨ c = large := by
  unfold Char.toLower at h
  split at h
  · next hc =>
    right
    have hv : (c.val + 32).toNat = small.toNat := congrArg Char.toNat h
    have hhigh : c.val.toNat ≤ 90 := hc.2
    rw [UInt32.toNat_add, ← hl] at hv
    have hn : c.toNat = large.toNat := by
      simp only [UInt32.reduceToNat] at hv
      have hcv : c.toNat = c.val.toNat := rfl
      omega
    exact Char.toNat_inj.1 hn
  · exact Or.inl h

/-- All spellings of `data:`. -/
def dataSpellings : List String :=
  ['d', 'D'].flatMap fun d => ['a', 'A'].flatMap fun a => ['t', 'T'].flatMap fun t =>
    ['a', 'A'].map fun a' => String.ofList [d, a, t, a', ':']

theorem mem_dataSpellings {value : String} (h : isDataMark value = true) :
    value ∈ dataSpellings := by
  have hf : value.toList.map Char.toLower = ['d', 'a', 't', 'a', ':'] := eq_of_beq h
  simp only [List.map_eq_cons_iff, List.map_eq_nil_iff] at hf
  obtain ⟨d, _, hv, hd, a, _, rfl, ha, t, _, rfl, ht, a', _, rfl, ha', colon, _, rfl, hcolon, rfl⟩ :=
    hf
  have hc : colon = ':' := by
    obtain he | ⟨-, hletter⟩ := Grammar.toLower_eq_or_isAlphanum colon
    · rw [← he, hcolon]
    · rw [hcolon] at hletter
      exact absurd hletter (by decide)
  have hvalue : value = String.ofList [d, a, t, a', ':'] := by
    rw [← String.toList_inj, hv, String.toList_ofList, hc]
  simp only [dataSpellings, List.mem_flatMap, List.mem_map]
  exact ⟨d, by simpa using eq_or_eq_of_toLower hd 'D' (by decide),
    a, by simpa using eq_or_eq_of_toLower ha 'A' (by decide),
    t, by simpa using eq_or_eq_of_toLower ht 'T' (by decide),
    a', by simpa using eq_or_eq_of_toLower ha' 'A' (by decide), hvalue.symm⟩

/-- No spelling of `data:` is a host pattern or a report target. -/
theorem not_host_of_isDataMark {value : String} (h : isDataMark value = true) :
    HostPattern.parse? value = none ∧ isReportTarget value = false := by
  have hall : ∀ value ∈ dataSpellings,
      HostPattern.parse? value = none ∧ isReportTarget value = false := by decide
  exact hall value (mem_dataSpellings h)

/-! ## Sources and their spellings -/

/-- No keyword of the form is a spelling of `data:`. -/
def DirectiveForm.DataFree (form : DirectiveForm) : Prop :=
  ∀ word ∈ form.keywords, isDataMark word = false

def Vocabulary.DataFree (vocabulary : Vocabulary) : Prop :=
  ∀ name form, vocabulary.get? name = some form → form.DataFree

theorem Vocabulary.csp1_dataFree : csp1.DataFree := by
  have hall : ∀ entry ∈ csp1.entries, ∀ word ∈ entry.2.keywords, isDataMark word = false := by
    decide
  intro name form hf
  exact hall (name, form) ((csp1.get?_eq_some_iff name form).1 hf)

namespace DirectiveForm

variable {form : DirectiveForm}

/-- A source other than `data:` is not spelled like it. -/
theorem Admits.isDataMark_written (h : form.DataFree) {source : Source} (ha : form.Admits source)
    (hd : source ≠ .data) : isDataMark source.written = false := by
  cases ha with
  | keyword word _ hw => exact h word hw
  | anywhere => rfl
  | data => exact absurd rfl hd
  | host text _ ht =>
    rw [Bool.eq_false_iff]
    intro hm
    have hnone : HostPattern.parse? text = none := (not_host_of_isDataMark hm).1
    simp [hnone] at ht
  | allowance word _ hw => exact h word hw
  | reportTarget text _ ht =>
    rw [Bool.eq_false_iff]
    intro hm
    have hfalse : isReportTarget text = false := (not_host_of_isDataMark hm).2
    simp [hfalse] at ht

theorem Admits.normal_written (h : form.DataFree) {source : Source} (ha : form.Admits source) :
    normal source.written = source.written := by
  by_cases hd : source = .data
  · subst hd
    rfl
  · exact normal_of_not (by simp [ha.isDataMark_written h hd])

/-- A value names the source that is spelled like it. -/
theorem Admits.isNamedBy_iff (h : form.DataFree) {source : Source} (ha : form.Admits source)
    (value : String) : source.isNamedBy value = true ↔ source.written = normal value := by
  by_cases hd : source = .data
  · subst hd
    by_cases hv : isDataMark value = true
    · simp [Source.isNamedBy, Source.written, hv, normal]
    · have hne : ¬ "data:" = value := by
        rintro rfl
        exact hv (by decide)
      simp [Source.isNamedBy, Source.written, hv, normal, hne]
  · have hw := ha.isDataMark_written h hd
    have hn : source.isNamedBy value = (source.written == value) := by
      cases source <;> first | rfl | exact absurd rfl hd
    rw [hn, beq_iff_eq]
    by_cases hv : isDataMark value = true
    · rw [normal_of_isDataMark hv]
      constructor
      · rintro rfl
        simp [hw] at hv
      · intro he
        rw [he] at hw
        exact absurd hw (by decide)
    · rw [normal_of_not hv]

/-- A value names the source that it is read as. -/
theorem isNamedBy_of_classify {value : String} {source : Source}
    (hc : form.classify value = some source) : source.isNamedBy value = true := by
  cases reads_of_classify hc with
  | anywhere => rfl
  | data _ _ _ hd => exact hd
  | _ => exact beq_self_eq_true value

/-- What a value is read as is spelled like the value. -/
theorem written_of_classify (h : form.DataFree) {value : String} {source : Source}
    (hc : form.classify value = some source) : source.written = normal value :=
  ((admits_of_classify hc).isNamedBy_iff h value).1 (isNamedBy_of_classify hc)

end DirectiveForm

end ContentSecurity
