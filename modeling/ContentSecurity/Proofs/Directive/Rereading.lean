import ContentSecurity.Proofs.Directive.Spelling

/-!
Directives that are read again. What has been read is written as its author would write it and goes
through the reader once more whenever something is added. As long as no list of sources has the
keyword `data:`, it comes back unchanged, as a whole and in every part; and it makes no difference
whether values are read all at once or in steps.
-/
namespace ContentSecurity

/-- In a list of sources `data:` is no keyword, which it would be before anything else. -/
def DirectiveForm.LeavesData (form : DirectiveForm) : Prop :=
  form.kind = .sources → "data:" ∉ form.keywords

def Vocabulary.LeavesData (vocabulary : Vocabulary) : Prop :=
  ∀ name form, vocabulary.get? name = some form → form.LeavesData

theorem Vocabulary.DataFree.leavesData {vocabulary : Vocabulary} (h : vocabulary.DataFree) :
    vocabulary.LeavesData := by
  intro name form hf _ hw
  exact absurd (h name form hf _ hw) (by decide)

namespace DirectiveForm

variable {form : DirectiveForm}

/-! ## The spelling that is kept -/

/-- What a value is read as, its own spelling is read as. -/
theorem classify_written (h : form.LeavesData) {value : String} {source : Source}
    (hc : form.classify value = some source) : form.classify source.written = some source := by
  cases reads_of_classify hc with
  | data _ hk _ _ =>
    have hword : form.hasKeyword "data:" = false := by
      rw [Bool.eq_false_iff, Ne, form.hasKeyword_iff]
      exact h hk
    have hmark : isDataMark "data:" = true := by decide
    have hstar : isStar "data:" = false := by decide
    simp [classify, hk, source?, Source.written, hword, hmark, hstar]
  | _ => exact hc

/-- The spelling under which the form keeps a value, or the value where it cannot be read. -/
def kept (form : DirectiveForm) (value : String) : String :=
  ((form.classify value).map Source.written).getD value

theorem kept_of_classify {value : String} {source : Source}
    (hc : form.classify value = some source) : form.kept value = source.written := by
  rw [kept, hc]
  rfl

theorem classify_kept (h : form.LeavesData) (value : String) :
    form.classify (form.kept value) = form.classify value := by
  cases hc : form.classify value with
  | none =>
    rw [kept, hc]
    exact hc
  | some source => rw [kept_of_classify hc, classify_written h hc]

theorem kept_kept (h : form.LeavesData) (value : String) :
    form.kept (form.kept value) = form.kept value := by
  cases hc : form.classify value with
  | none => simp [kept, hc]
  | some source => rw [kept_of_classify hc, kept_of_classify (classify_written h hc)]

/-- A loner is kept as it is, and nothing else is kept like it. -/
theorem IsLoner.kept_eq_iff {loner : String} (hl : form.IsLoner loner) (value : String) :
    form.kept value = loner ↔ value = loner := by
  have hword : loner = "none" ∨ loner = "*" := hl.2.imp_left And.left
  have hdata : isDataMark loner = false ∧ loner ≠ "data:" := by
    obtain rfl | rfl := hword <;> decide
  cases hc : form.classify value with
  | none =>
    rw [kept, hc]
    rfl
  | some source =>
    rw [kept_of_classify hc]
    cases reads_of_classify hc with
    | data _ _ _ hd =>
      constructor
      · rintro rfl
        exact absurd rfl hdata.2
      · rintro rfl
        rw [hdata.1] at hd
        cases hd
    | _ => rfl

/-! ## Values that may stand together -/

/-- What may stand together, may so without some of it. -/
theorem Accepts.mono {values others : List String} (ha : form.Accepts values)
    (h : others ⊆ values) : form.Accepts others where
  readable := fun value hv => ha.readable value (h hv)
  alone := fun loner hm hl value hv => ha.alone loner (h hm) hl value (h hv)

/-- Values may stand together when the spellings that are kept of them may. -/
theorem accepts_map_kept_iff (h : form.LeavesData) (values : List String) :
    form.Accepts (values.map form.kept) ↔ form.Accepts values := by
  have hread : (∀ word ∈ values.map form.kept, (form.classify word).isSome = true) ↔
      ∀ value ∈ values, (form.classify value).isSome = true := by
    simp [classify_kept h]
  constructor
  · intro ha
    refine ⟨hread.1 ha.readable, ?_⟩
    intro loner hm hl value hv
    have hm' : loner ∈ values.map form.kept := List.mem_map.2 ⟨loner, hm, (hl.kept_eq_iff _).2 rfl⟩
    exact (hl.kept_eq_iff value).1 (ha.alone loner hm' hl _ (List.mem_map_of_mem hv))
  · intro ha
    refine ⟨hread.2 ha.readable, ?_⟩
    intro loner hm hl word hw
    obtain ⟨value, hv, rfl⟩ := List.mem_map.1 hw
    obtain ⟨other, ho, hk⟩ := List.mem_map.1 hm
    obtain rfl := (hl.kept_eq_iff other).1 hk
    exact (hl.kept_eq_iff value).2 (ha.alone other ho hl value hv)

/-! ## The directive that values make -/

/-- Values that are written twice count once, whether before they are read or after. -/
theorem sources_directive (form : DirectiveForm) (name : String) (values : List String) :
    (form.directive name values).sources = (values.filterMap form.classify).eraseDups :=
  eraseDups_filterMap form.classify values

theorem mem_written_directive_iff {values : List String} (ha : form.Accepts values) (name : String)
    (word : String) :
    word ∈ (form.directive name values).written ↔ word ∈ values.map form.kept := by
  simp only [Directive.written, List.mem_map, form.mem_directive]
  constructor
  · rintro ⟨source, ⟨value, hv, hc⟩, rfl⟩
    exact ⟨value, hv, kept_of_classify hc⟩
  · rintro ⟨value, hv, rfl⟩
    obtain ⟨source, hc⟩ := Option.isSome_iff_exists.1 (ha.readable value hv)
    exact ⟨source, ⟨value, hv, hc⟩, (kept_of_classify hc).symm⟩

end DirectiveForm

/-! ## Directives that come back -/

/-- A directive that is read as itself from what is written of it. -/
structure Directive.Rereads (form : DirectiveForm) (directive : Directive) : Prop where
  distinct : directive.sources.Nodup
  spelled : ∀ source ∈ directive.sources, form.classify source.written = some source
  accepted : form.Accepts directive.written

namespace Directive.Rereads

variable {form : DirectiveForm} {directive : Directive}

/-- Fewer sources are read as well. -/
theorem part (h : directive.Rereads form) {part : List Source} (hp : part.Sublist directive.sources)
    (name : String) : Rereads form ⟨name, part⟩ where
  distinct := h.distinct.sublist hp
  spelled := fun source hs => h.spelled source (hp.subset hs)
  accepted := h.accepted.mono ((hp.map Source.written).subset)

theorem filterMap_classify_written (h : directive.Rereads form) :
    directive.written.filterMap form.classify = directive.sources := by
  rw [Directive.written, List.filterMap_map]
  exact (List.filterMap_congr h.spelled).trans (List.filterMap_some)

/-- With more values behind it, a directive keeps its sources and gets others behind them. -/
theorem sources_append (h : directive.Rereads form) (name : String) (more : List String) :
    (form.directive name (directive.written ++ more)).sources =
      (directive.sources ++ more.filterMap form.classify).eraseDups := by
  rw [form.sources_directive, List.filterMap_append, h.filterMap_classify_written]

theorem directive_written (h : directive.Rereads form) :
    form.directive directive.name directive.written = directive := by
  have hs := h.sources_append directive.name []
  rw [List.filterMap_nil, List.append_nil, List.append_nil, eraseDups_of_nodup h.distinct] at hs
  exact congrArg (Directive.mk directive.name) hs

end Directive.Rereads

namespace DirectiveForm

variable {form : DirectiveForm}

/-- What has been read is read again as it is. -/
theorem rereads_directive (h : form.LeavesData) {values : List String} (ha : form.Accepts values)
    (name : String) : (form.directive name values).Rereads form where
  distinct := nodup_eraseDups _
  spelled := by
    intro source hs
    obtain ⟨value, -, hc⟩ := (form.mem_directive name values source).1 hs
    exact classify_written h hc
  accepted := ((accepts_map_kept_iff h values).2 ha).congr fun word =>
    (mem_written_directive_iff ha name word).symm

/-- Values may be read in two steps, the first of them through what is kept. -/
theorem accepts_append_iff (h : form.LeavesData) {values : List String} (ha : form.Accepts values)
    (name : String) (more : List String) :
    form.Accepts ((form.directive name values).written ++ more) ↔ form.Accepts (values ++ more) := by
  have hsame : ∀ word, word ∈ ((form.directive name values).written ++ more).map form.kept ↔
      word ∈ (values ++ more).map form.kept := by
    intro word
    have hwritten : word ∈ (form.directive name values).written.map form.kept ↔
        word ∈ values.map form.kept := by
      simp only [List.mem_map, mem_written_directive_iff ha]
      constructor
      · rintro ⟨_, ⟨value, hv, rfl⟩, rfl⟩
        exact ⟨value, hv, (kept_kept h value).symm⟩
      · rintro ⟨value, hv, rfl⟩
        exact ⟨_, ⟨value, hv, rfl⟩, kept_kept h value⟩
    rw [List.map_append, List.map_append, List.mem_append, List.mem_append, hwritten]
  rw [← accepts_map_kept_iff h, ← accepts_map_kept_iff h (values ++ more)]
  exact ⟨Accepts.congr hsame, Accepts.congr fun word => (hsame word).symm⟩

theorem directive_append (h : form.LeavesData) {values : List String} (ha : form.Accepts values)
    (name : String) (more : List String) :
    form.directive name ((form.directive name values).written ++ more) =
      form.directive name (values ++ more) := by
  have hs : (form.directive name ((form.directive name values).written ++ more)).sources =
      (form.directive name (values ++ more)).sources := by
    rw [(rereads_directive h ha name).sources_append, form.sources_directive, form.sources_directive,
      eraseDups_append_left, List.filterMap_append]
  exact congrArg (Directive.mk name) hs

end DirectiveForm

namespace Vocabulary

variable {vocabulary : Vocabulary}

/-- Any part of a directive, written out, is read as that part. -/
theorem readDirective_part {form : DirectiveForm} {directive : Directive}
    (hf : vocabulary.get? directive.name = some form) (h : directive.Rereads form)
    {part : List Source} (hp : part.Sublist directive.sources) :
    vocabulary.readDirective directive.name (part.map Source.written) =
      .ok ⟨directive.name, part⟩ := by
  have hpart := h.part hp directive.name
  rw [vocabulary.readDirective_eq_ok_iff]
  exact ⟨form, hf, hpart.accepted, hpart.directive_written.symm⟩

/-- Reading at once is reading in steps, where each step begins with what the one before has kept. -/
theorem readDirective_append_iff (h : vocabulary.LeavesData) (name : String)
    (values more : List String) (last : Directive) :
    vocabulary.readDirective name (values ++ more) = .ok last ↔
      ∃ first, vocabulary.readDirective name values = .ok first ∧
        vocabulary.readDirective name (first.written ++ more) = .ok last := by
  simp only [vocabulary.readDirective_eq_ok_iff]
  constructor
  · rintro ⟨form, hf, ha, rfl⟩
    have hfirst : form.Accepts values := ha.mono (List.subset_append_left _ _)
    have hform := h name form hf
    exact ⟨_, ⟨form, hf, hfirst, rfl⟩, form, hf,
      (DirectiveForm.accepts_append_iff hform hfirst name more).2 ha,
      (DirectiveForm.directive_append hform hfirst name more).symm⟩
  · rintro ⟨_, ⟨form, hf, hfirst, rfl⟩, form', hf', ha, rfl⟩
    obtain rfl : form = form' := Option.some.inj (hf.symm.trans hf')
    have hform := h name form hf
    exact ⟨form, hf, (DirectiveForm.accepts_append_iff hform hfirst name more).1 ha,
      DirectiveForm.directive_append hform hfirst name more⟩

/-- Values that are listed already change nothing. -/
theorem readDirective_append_of_subset (vocabulary : Vocabulary) (name : String)
    {values more : List String} (h : more ⊆ values) :
    vocabulary.readDirective name (values ++ more) = vocabulary.readDirective name values := by
  simp only [readDirective, eraseDups_append_of_subset h]

end Vocabulary

end ContentSecurity
