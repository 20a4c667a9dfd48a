import ContentSecurity.Proofs.Directive.Spelling
import ContentSecurity.Proofs.Store.Conformance
import ContentSecurity.Proofs.Store.Lookup

/-!
A store as a machine on sets. Of a policy only this is looked at: which directives there are, and
for each the set of its values. Adding is union, refused if a set comes out that is not legal;
removing is difference, which takes a directive along with its last value. No order, no repetition
and no spelling of `data:` is seen, and still every edit of a store does what the machine does.
-/
namespace ContentSecurity

/-- For each directive that there is, the set of its values. -/
abbrev ValueSets := String → Option (Finset String)

/-- The values under their normal spellings. -/
def normals (values : List String) : Finset String :=
  (values.map normal).toFinset

def Policy.valueSets (policy : Policy) : ValueSets := fun name =>
  (policy.get? name).map fun directive => directive.written.toFinset

theorem Policy.valueSets_apply (policy : Policy) (name : String) :
    policy.valueSets name = (policy.get? name).map fun directive => directive.written.toFinset :=
  rfl

/-! ## The machine -/

/-- A value that may stand in a directive of the form. -/
def DirectiveForm.LegalValue (form : DirectiveForm) (value : String) : Prop :=
  match form.kind with
  | .sources => value ∈ form.keywords ∨ value = "*" ∨ value = "data:" ∨
      (HostPattern.parse? value).isSome = true
  | .allowances => value ∈ form.keywords
  | .reportTargets => isReportTarget value = true

/-- A set of values that a directive of the form may have. -/
def DirectiveForm.Legal (form : DirectiveForm) (values : Finset String) : Prop :=
  (∀ value ∈ values, form.LegalValue value) ∧
    (form.kind = .sources → "none" ∈ values ∨ "*" ∈ values → values.card = 1)

def Vocabulary.Legal (vocabulary : Vocabulary) (name : String) (values : Finset String) : Prop :=
  ∃ form, vocabulary.get? name = some form ∧ form.Legal values

instance (form : DirectiveForm) (value : String) : Decidable (form.LegalValue value) := by
  unfold DirectiveForm.LegalValue
  exact match form.kind with
    | .sources => inferInstance
    | .allowances => inferInstance
    | .reportTargets => inferInstance

instance (form : DirectiveForm) (values : Finset String) : Decidable (form.Legal values) :=
  inferInstanceAs (Decidable (_ ∧ _))

instance (vocabulary : Vocabulary) (name : String) (values : Finset String) :
    Decidable (vocabulary.Legal name values) :=
  match hf : vocabulary.get? name with
  | none => .isFalse fun ⟨form, hs, _⟩ => by rw [hf] at hs; cases hs
  | some form => decidable_of_iff (form.Legal values)
      ⟨fun hl => ⟨form, hf, hl⟩, fun ⟨_, hs, hl⟩ => by rw [hf] at hs; cases hs; exact hl⟩

namespace ValueSets

/-- The values of a directive with others joined to them. -/
def joined (sets : ValueSets) (name : String) (values : List String) : Finset String :=
  (sets name).getD ∅ ∪ normals values

/-- Joins listed values to the sets, if every set that comes out is legal. -/
def add (vocabulary : Vocabulary) (sets : ValueSets) (listed : DirectiveValues) :
    Option ValueSets :=
  if ∀ entry ∈ listed.entries, vocabulary.Legal entry.1 (sets.joined entry.1 entry.2) then
    some fun name =>
      match listed.get? name with
      | none => sets name
      | some values => some (sets.joined name values)
  else none

/-- Takes listed values from the sets, and each directive whose set comes out empty. -/
def remove (sets : ValueSets) (listed : DirectiveValues) : ValueSets := fun name =>
  match listed.get? name with
  | none => sets name
  | some values => (sets name).bind fun present =>
      if present \ normals values = ∅ then none else some (present \ normals values)

end ValueSets

/-- The sets of both policies. -/
abbrev SetStore := Disposition → ValueSets

namespace SetStore

/-- One edit of the sets, or nothing where it is refused. -/
def step (vocabulary : Vocabulary) (reach : RemovalReach) (sets : SetStore) :
    Edit → Option SetStore
  | .clear scope => some fun disposition =>
      if scope.covers disposition then fun _ => none else sets disposition
  | .add scope listed => scope.disposition?.bind fun target =>
      ((sets target).add vocabulary listed).map fun added disposition =>
        if disposition = target then added else sets disposition
  | .remove scope listed =>
      if scope = .all then none
      else some fun disposition =>
        if reach = .bothPolicies ∨ scope.covers disposition then (sets disposition).remove listed
        else sets disposition

/-- Edits one after the other. One that is refused changes nothing. -/
def run (vocabulary : Vocabulary) (reach : RemovalReach) (sets : SetStore) :
    List Edit → SetStore
  | [] => sets
  | edit :: rest => run vocabulary reach ((sets.step vocabulary reach edit).getD sets) rest

end SetStore

def Store.valueSets (store : Store) : SetStore := fun disposition =>
  (store.policy disposition).valueSets

/-! ## Legal sets are the accepted values -/

theorem normals_append (values more : List String) :
    normals (values ++ more) = normals values ∪ normals more := by
  simp [normals]

theorem mem_normals_iff (values : List String) (word : String) :
    word ∈ normals values ↔ ∃ value ∈ values, normal value = word := by
  simp [normals]

namespace DirectiveForm

variable {form : DirectiveForm}

/-- A value can be read when its normal spelling is legal. -/
theorem isSome_classify_iff_legalValue (h : form.DataFree) (value : String) :
    (form.classify value).isSome = true ↔ form.LegalValue (normal value) := by
  have noMark {word : String} (hm : isDataMark word = true) : word ∉ form.keywords := by
    intro hw
    simp [h word hw] at hm
  have hdata : isDataMark "data:" = true := by decide
  rw [form.isSome_classify_iff]
  unfold LegalValue
  by_cases hv : isDataMark value = true
  · rw [normal_of_isDataMark hv]
    cases form.kind with
    | sources => simp [hv]
    | allowances => simp [noMark hv, noMark hdata]
    | reportTargets => simp [(not_host_of_isDataMark hv).2, (not_host_of_isDataMark hdata).2]
  · have hne : value ≠ "data:" := by
      rintro rfl
      exact hv hdata
    rw [normal_of_not hv]
    cases form.kind <;> simp [hv, hne]

/-- A loner is the normal spelling of itself alone. -/
theorem IsLoner.normal_eq_iff {loner : String} (hl : form.IsLoner loner) (value : String) :
    normal value = loner ↔ value = loner := by
  have hword : loner = "none" ∨ loner = "*" := hl.2.imp_left And.left
  constructor
  · intro hn
    exact eq_of_normal_eq hn (by obtain rfl | rfl := hword <;> decide)
  · rintro rfl
    obtain rfl | rfl := hword <;> rfl

/-- `none` is a loner where it can be read, and `*` in any list of sources. -/
theorem isLoner_of_legalValue (hk : form.kind = .sources) {word : String}
    (hv : form.LegalValue word) (hw : word = "none" ∨ word = "*") : form.IsLoner word := by
  refine ⟨hk, hw.imp_left ?_⟩
  rintro rfl
  have hhost : HostPattern.parse? "none" = none := by decide
  simp only [LegalValue, hk, hhost] at hv
  simpa [form.hasKeyword_iff] using hv

/-- A loner stands alone when the set of the values has no more than it. -/
theorem alone_iff_normals {values : List String} {loner : String} (hl : form.IsLoner loner)
    (hm : loner ∈ values) :
    (∀ value ∈ values, value = loner) ↔ (normals values).card = 1 := by
  have hmem : loner ∈ normals values :=
    (mem_normals_iff values loner).2 ⟨loner, hm, (hl.normal_eq_iff loner).2 rfl⟩
  constructor
  · intro ha
    have hone : normals values = {loner} := by
      refine Finset.eq_singleton_iff_unique_mem.2 ⟨hmem, ?_⟩
      intro word hw
      obtain ⟨value, hv, rfl⟩ := (mem_normals_iff values word).1 hw
      exact (hl.normal_eq_iff value).2 (ha value hv)
    rw [hone, Finset.card_singleton]
  · intro hcard value hv
    have hword : normal value ∈ normals values := (mem_normals_iff values _).2 ⟨value, hv, rfl⟩
    exact (hl.normal_eq_iff value).1 (Finset.card_le_one.1 hcard.le _ hword _ hmem)

/-- Values are accepted when the set of them is legal. -/
theorem accepts_iff_legal (h : form.DataFree) (values : List String) :
    form.Accepts values ↔ form.Legal (normals values) := by
  have hread : (∀ value ∈ values, (form.classify value).isSome = true) ↔
      ∀ word ∈ normals values, form.LegalValue word := by
    simp [mem_normals_iff, isSome_classify_iff_legalValue h]
  constructor
  · intro ha
    refine ⟨hread.1 ha.readable, ?_⟩
    intro hk hl
    obtain ⟨word, hm, hw⟩ : ∃ word ∈ normals values, word = "none" ∨ word = "*" := by
      obtain hl | hl := hl
      · exact ⟨_, hl, Or.inl rfl⟩
      · exact ⟨_, hl, Or.inr rfl⟩
    have hloner := isLoner_of_legalValue hk (hread.1 ha.readable word hm) hw
    obtain ⟨value, hv, hn⟩ := (mem_normals_iff values word).1 hm
    obtain rfl := (hloner.normal_eq_iff value).1 hn
    exact (alone_iff_normals hloner hv).1 (ha.alone value hv hloner)
  · rintro ⟨hr, hl⟩
    refine ⟨hread.2 hr, ?_⟩
    intro loner hm hloner
    have hmem : loner ∈ normals values :=
      (mem_normals_iff values loner).2 ⟨loner, hm, (hloner.normal_eq_iff loner).2 rfl⟩
    refine (alone_iff_normals hloner hm).2 (hl hloner.1 ?_)
    obtain ⟨rfl, -⟩ | rfl := hloner.2
    · exact Or.inl hmem
    · exact Or.inr hmem

/-- The directive that is read has the values that were listed. -/
theorem written_directive (h : form.DataFree) {values : List String} (ha : form.Accepts values)
    (name : String) : (form.directive name values).written.toFinset = normals values := by
  ext word
  simp only [Directive.written, List.mem_toFinset, List.mem_map, form.mem_directive,
    mem_normals_iff]
  constructor
  · rintro ⟨source, ⟨value, hv, hc⟩, rfl⟩
    exact ⟨value, hv, (written_of_classify h hc).symm⟩
  · rintro ⟨value, hv, rfl⟩
    obtain ⟨source, hc⟩ := Option.isSome_iff_exists.1 (ha.readable value hv)
    exact ⟨source, ⟨value, hv, hc⟩, written_of_classify h hc⟩

end DirectiveForm

namespace Directive.Conforms

variable {form : DirectiveForm} {directive : Directive}

/-- What is already kept is spelled normally. -/
theorem normals_written (hc : directive.Conforms form) (h : form.DataFree) :
    normals directive.written = directive.written.toFinset := by
  ext word
  simp only [mem_normals_iff, Directive.written, List.mem_toFinset, List.mem_map]
  constructor
  · rintro ⟨value, ⟨source, hs, rfl⟩, rfl⟩
    exact ⟨source, hs, ((hc.admitted source hs).normal_written h).symm⟩
  · rintro ⟨source, hs, rfl⟩
    exact ⟨_, ⟨source, hs, rfl⟩, (hc.admitted source hs).normal_written h⟩

/-- Dropping values is difference of sets. -/
theorem written_without (hc : directive.Conforms form) (h : form.DataFree)
    (values : List String) :
    (directive.without values).written.toFinset =
      directive.written.toFinset \ normals values := by
  have hnamed : ∀ source ∈ directive.sources,
      (values.any source.isNamedBy = true ↔ source.written ∈ normals values) := by
    intro source hs
    rw [List.any_eq_true, mem_normals_iff]
    constructor
    · rintro ⟨value, hv, hn⟩
      exact ⟨value, hv, (((hc.admitted source hs).isNamedBy_iff h value).1 hn).symm⟩
    · rintro ⟨value, hv, hn⟩
      exact ⟨value, hv, ((hc.admitted source hs).isNamedBy_iff h value).2 hn.symm⟩
  ext word
  simp only [Directive.written, Directive.without, List.mem_toFinset, List.mem_map,
    List.mem_filter, Finset.mem_sdiff, Bool.not_eq_true']
  constructor
  · rintro ⟨source, ⟨hs, hk⟩, rfl⟩
    refine ⟨⟨source, hs, rfl⟩, ?_⟩
    rw [← hnamed source hs]
    simp [hk]
  · rintro ⟨⟨source, hs, rfl⟩, hk⟩
    refine ⟨source, ⟨hs, ?_⟩, rfl⟩
    rw [← hnamed source hs] at hk
    simpa using hk

/-- A directive goes when the difference is empty. -/
theorem written_left? (hc : directive.Conforms form) (h : form.DataFree) (values : List String) :
    ((directive.left? values).map fun left => left.written.toFinset) =
      if directive.written.toFinset \ normals values = ∅ then none
      else some (directive.written.toFinset \ normals values) := by
  rw [← hc.written_without h values]
  unfold Directive.left?
  by_cases he : (directive.without values).sources = []
  · simp [he, Directive.written]
  · simp [he, Directive.written]

end Directive.Conforms

/-! ## Edits on policies -/

namespace Policy.Conforms

variable {vocabulary : Vocabulary} {policy : Policy}

/-- The values that are read when others are added are the joined set. -/
theorem normals_merged (hp : policy.Conforms vocabulary) (h : vocabulary.DataFree) (name : String)
    (values : List String) :
    normals (((policy.get? name).map Directive.written).getD [] ++ values) =
      policy.valueSets.joined name values := by
  rw [normals_append, ValueSets.joined, policy.valueSets_apply]
  cases hg : policy.get? name with
  | none => rfl
  | some directive =>
    obtain ⟨-, form, hf, hc⟩ := (Policy.conforms_iff vocabulary policy).1 hp name directive hg
    simp [hc.normals_written (h name form hf)]

theorem isSome_merged_iff (hp : policy.Conforms vocabulary) (h : vocabulary.DataFree)
    (entry : String × List String) :
    (Store.merged vocabulary policy entry).isSome = true ↔
      vocabulary.Legal entry.1 (policy.valueSets.joined entry.1 entry.2) := by
  rw [Option.isSome_iff_exists, ← hp.normals_merged h]
  simp only [Store.merged_eq_some_iff, Vocabulary.readDirective_eq_ok_iff, Vocabulary.Legal]
  constructor
  · rintro ⟨directive, form, hf, ha, -⟩
    exact ⟨form, hf, (DirectiveForm.accepts_iff_legal (h _ form hf) _).1 ha⟩
  · rintro ⟨form, hf, hl⟩
    exact ⟨_, form, hf, (DirectiveForm.accepts_iff_legal (h _ form hf) _).2 hl, rfl⟩

theorem written_merged (hp : policy.Conforms vocabulary) (h : vocabulary.DataFree)
    {entry : String × List String} {directive : Directive}
    (hm : Store.merged vocabulary policy entry = some directive) :
    directive.written.toFinset = policy.valueSets.joined entry.1 entry.2 := by
  rw [Store.merged_eq_some_iff, Vocabulary.readDirective_eq_ok_iff] at hm
  obtain ⟨form, hf, ha, rfl⟩ := hm
  rw [DirectiveForm.written_directive (h _ form hf) ha, hp.normals_merged h]

/-- Placing what was read joins sets. -/
theorem valueSets_withAll (hp : policy.Conforms vocabulary) (h : vocabulary.DataFree)
    (listed : DirectiveValues)
    (hr : ∀ entry ∈ listed.entries, (Store.merged vocabulary policy entry).isSome = true) :
    policy.valueSets.add vocabulary listed =
      some (Store.withAll vocabulary policy listed).valueSets := by
  have hlegal : ∀ entry ∈ listed.entries,
      vocabulary.Legal entry.1 (policy.valueSets.joined entry.1 entry.2) := fun entry he =>
    (hp.isSome_merged_iff h entry).1 (hr entry he)
  rw [ValueSets.add, if_pos hlegal]
  congr 1
  funext name
  rw [Policy.valueSets_apply (Store.withAll _ _ _), Store.get?_withAll vocabulary policy listed hr]
  cases hl : listed.get? name with
  | none => rfl
  | some values =>
    have hmem := (listed.get?_eq_some_iff name values).1 hl
    obtain ⟨directive, hm⟩ := Option.isSome_iff_exists.1 (hr _ hmem)
    simp only [hm, Option.map_some, hp.written_merged h hm]

/-- Removing values takes differences of sets. -/
theorem valueSets_withoutAll (hp : policy.Conforms vocabulary) (h : vocabulary.DataFree)
    (listed : DirectiveValues) :
    (Store.withoutAll policy listed).valueSets = policy.valueSets.remove listed := by
  funext name
  rw [ValueSets.remove, Policy.valueSets_apply, Policy.valueSets_apply, Store.get?_withoutAll]
  cases listed.get? name with
  | none => rfl
  | some values =>
    cases hg : policy.get? name with
    | none => simp
    | some directive =>
      obtain ⟨-, form, hf, hc⟩ := (Policy.conforms_iff vocabulary policy).1 hp name directive hg
      simp only [Option.bind_some, Option.map_some, hc.written_left? (h name form hf)]

end Policy.Conforms

/-! ## The simulation -/

namespace Store

theorem valueSets_modifyCovered (store : Store) (scope : Scope) (change : Policy → Policy) :
    (store.modifyCovered scope change).valueSets = fun disposition =>
      if scope.covers disposition then (change (store.policy disposition)).valueSets
      else store.valueSets disposition := by
  funext disposition
  rw [valueSets, policy_modifyCovered]
  split <;> rfl

theorem valueSets_modify (store : Store) (target : Disposition) (change : Policy → Policy) :
    (store.modify target change).valueSets = fun disposition =>
      if disposition = target then (change (store.policy target)).valueSets
      else store.valueSets disposition := by
  funext disposition
  rw [valueSets, policy_modify]
  split
  · next hd => rw [hd]
  · rfl

theorem valueSets_clear {vocabulary : Vocabulary} (store : Store) (scope : Scope) :
    (store.edit (.clear scope)).toOption.map valueSets =
      store.valueSets.step vocabulary store.reach (.clear scope) := by
  have he : store.edit (.clear scope) = .ok (store.modifyCovered scope fun _ => ∅) := rfl
  rw [he, Except.toOption, Option.map_some, valueSets_modifyCovered]
  rfl

section Simulation

variable {vocabulary : Vocabulary} (h : vocabulary.DataFree) (store : Store)
  (hp : ∀ disposition, (store.policy disposition).Conforms vocabulary)

include h hp

theorem valueSets_remove (scope : Scope) (listed : DirectiveValues) :
    (store.edit (.remove scope listed)).toOption.map valueSets =
      store.valueSets.step vocabulary store.reach (.remove scope listed) := by
  by_cases hs : scope = .all
  · subst hs
    rfl
  · have he : store.edit (.remove scope listed) =
        .ok (store.modifyCovered (store.removalScope scope) (withoutAll · listed)) :=
      (store.edit_eq_ok_iff _ _).2 (.remove scope listed hs)
    rw [he, Except.toOption, Option.map_some, valueSets_modifyCovered, SetStore.step, if_neg hs]
    congr 1
    funext disposition
    simp only [covers_removalScope, (hp disposition).valueSets_withoutAll h]
    rfl

variable (hv : store.vocabulary = vocabulary)

include hv

/-- Both refuse an addition for the same entries of what is listed. -/
theorem valueSets_add (scope : Scope) (listed : DirectiveValues) :
    (store.edit (.add scope listed)).toOption.map valueSets =
      store.valueSets.step vocabulary store.reach (.add scope listed) := by
  cases ht : scope.disposition? with
  | none => simp [Store.edit, add, SetStore.step, ht, Except.toOption]
  | some target =>
    simp only [SetStore.step, ht, Option.bind_some]
    by_cases hall : ∀ entry ∈ listed.entries,
        (merged vocabulary (store.policy target) entry).isSome = true
    · have he : store.edit (.add scope listed) =
          .ok (store.modify target (withAll vocabulary · listed)) :=
        (store.add_eq_ok_iff scope listed _).2 ⟨target, ht, by rwa [hv], by rw [hv]⟩
      rw [he, valueSets, (hp target).valueSets_withAll h listed hall, Except.toOption,
        Option.map_some, valueSets_modify]
      rfl
    · have hno : (store.edit (.add scope listed)).toOption = none := by
        cases he : store.edit (.add scope listed) with
        | error refusal => rfl
        | ok next =>
          obtain ⟨other, ho, hr, -⟩ := (store.add_eq_ok_iff scope listed next).1 he
          obtain rfl : target = other := Option.some.inj (ht.symm.trans ho)
          rw [hv] at hr
          exact absurd hr hall
      have hlegal : ¬ ∀ entry ∈ listed.entries, vocabulary.Legal entry.1
          ((store.policy target).valueSets.joined entry.1 entry.2) := fun hl =>
        hall fun entry hm => ((hp target).isSome_merged_iff h entry).2 (hl entry hm)
      rw [hno, valueSets, ValueSets.add, if_neg hlegal]
      rfl

/-- An edit of a store is a step of the machine, and is refused where the machine refuses. -/
theorem valueSets_edit (edit : Edit) :
    (store.edit edit).toOption.map valueSets =
      store.valueSets.step vocabulary store.reach edit := by
  cases edit with
  | clear scope => exact valueSets_clear store scope
  | add scope listed => exact valueSets_add h store hp hv scope listed
  | remove scope listed => exact valueSets_remove h store hp scope listed

/-- What a call leaves is what the machine leaves. -/
theorem valueSets_after (edit : Edit) :
    (store.after (.edit edit)).valueSets =
      (store.valueSets.step vocabulary store.reach edit).getD store.valueSets := by
  rw [← valueSets_edit h store hp hv edit, after, call]
  cases store.edit edit <;> rfl

end Simulation

/-- No edit changes where removals act. -/
theorem reach_edit {store next : Store} {edit : Edit} (h : store.edit edit = .ok next) :
    next.reach = store.reach := by
  cases (store.edit_eq_ok_iff edit next).1 h with
  | clear scope => rfl
  | add scope listed target ht hr => exact reach_modify _ _ _
  | remove scope listed hs => rfl

theorem reach_after (store : Store) (edit : Edit) :
    (store.after (.edit edit)).reach = store.reach := by
  obtain hn | he := store.after_cases (.edit edit)
  · exact reach_edit hn
  · rw [he]

/-- Over any edits a store does what the machine does. -/
theorem valueSets_run {vocabulary : Vocabulary} (h : vocabulary.DataFree) {store : Store}
    (hr : Reachable vocabulary store) (edits : List Edit) :
    (store.run (edits.map .edit)).reach = store.reach ∧
      (store.run (edits.map .edit)).valueSets =
        store.valueSets.run vocabulary store.reach edits := by
  induction edits generalizing store with
  | nil => exact ⟨rfl, rfl⟩
  | cons edit rest ih =>
    obtain ⟨hv, hp⟩ := (Policy.conforms_kept vocabulary).reachable hr
    obtain ⟨hreach, hsets⟩ := ih (hr.run [.edit edit])
    have hone : store.run [.edit edit] = store.after (.edit edit) := rfl
    rw [hone, reach_after] at hreach hsets
    rw [valueSets_after h store hp hv edit] at hsets
    exact ⟨hreach, hsets⟩

end Store

/-- Edits of a store with the directives of the first standard are steps of the machine. It allows
just the edits that the store does not refuse, and the sets that it keeps are the store's. -/
theorem edits_act_on_sets (store : Store) (h : store.Reachable .csp1) (edits : List Edit)
    (edit : Edit) :
    (store.run (edits.map .edit)).valueSets = store.valueSets.run .csp1 store.reach edits ∧
      ((store.run (edits.map .edit)).edit edit).toOption.map Store.valueSets =
        (store.valueSets.run .csp1 store.reach edits).step .csp1 store.reach edit := by
  obtain ⟨hreach, hsets⟩ := Store.valueSets_run Vocabulary.csp1_dataFree h edits
  obtain ⟨hv, hp⟩ := (Policy.conforms_kept _).reachable (h.run (edits.map .edit))
  refine ⟨hsets, ?_⟩
  rw [Store.valueSets_edit Vocabulary.csp1_dataFree _ hp hv, hreach, hsets]

/-- Both spellings become one value, the star is refused beside it, and `self` is taken away. -/
theorem edits_act_on_sets_from_blank :
    Store.Reachable .csp1 (.blank .csp1) ∧
      ((Store.blank .csp1).run ([
        .add .enforce ⟨[("img-src", ["DATA:", "self", "data:"])], by decide⟩,
        .add .enforce ⟨[("img-src", ["*"])], by decide⟩,
        .remove .enforce ⟨[("img-src", ["self"])], by decide⟩].map .edit)).valueSets .enforce
        "img-src" = some {"data:"} := by
  have hr : Store.Reachable .csp1 (.blank .csp1) := Store.Founded.blank.reachable
  refine ⟨hr, ?_⟩
  have hsets (edits : List Edit) :=
    (edits_act_on_sets (.blank .csp1) hr edits (.clear .all)).1
  rw [hsets]
  decide

end ContentSecurity
