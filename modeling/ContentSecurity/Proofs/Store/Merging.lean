import ContentSecurity.Proofs.Directive.Rereading
import ContentSecurity.Proofs.Store.Lookup

/-!
Adding in steps. A second addition reads what the first has kept and not what was listed for it, leaves
out repetitions once more and looks at other sets for values that stand alone. Still two additions
succeed when one addition of all the values does, and give the same store, with its directives and
sources in the same order. To add the same again changes nothing.
-/
namespace ContentSecurity

/-- The listed values with others behind them, directive by directive. -/
def DirectiveValues.extendAll (listed more : DirectiveValues) : DirectiveValues :=
  more.entries.foldl (fun listed entry => listed.extend entry.1 entry.2) listed

theorem DirectiveValues.get?_extendAll (listed more : DirectiveValues) (name : String) :
    (listed.extendAll more).get? name =
      match more.get? name with
      | none => listed.get? name
      | some values => some ((listed.get? name).getD [] ++ values) := by
  rw [extendAll, find_foldl OrderedMap.get? _
    (fun _ values found => some (found.getD [] ++ values)) more.entries
    (fun entry _ listed name => listed.get?_alter entry.1 name _) more.nodup listed name]
  unfold OrderedMap.get?
  cases lookupName name more.entries <;> rfl

theorem DirectiveValues.keys_extendAll (listed more : DirectiveValues) :
    (listed.extendAll more).keys = (listed.keys ++ more.keys).eraseDups :=
  keys_foldl OrderedMap.keys OrderedMap.nodup _ Prod.fst
    (fun listed entry => listed.keys_alter_eq entry.1 _) more.entries listed

namespace Store

section Steps

variable {vocabulary : Vocabulary} {policy : Policy} {first second : DirectiveValues}

/-- New directives come behind those that are there, in the order in which they are listed. -/
theorem keys_withAll (hf : Addable vocabulary policy first) :
    (withAll vocabulary policy first).entries.keys =
      (policy.entries.keys ++ first.keys).eraseDups := by
  have hnames : (first.entries.filterMap (merged vocabulary policy)).map Directive.name =
      first.keys := by
    rw [List.map_filterMap, OrderedMap.keys, ← List.filterMap_eq_map]
    refine List.filterMap_congr fun entry he => ?_
    obtain ⟨directive, hm⟩ := Option.isSome_iff_exists.1 (hf entry he)
    simp [hm, name_of_merged hm]
  rw [withAll, keys_foldl (fun policy : Policy => policy.entries.keys)
    (fun policy => policy.entries.nodup) Policy.insert Directive.name
    (fun policy directive => policy.entries.keys_alter_eq directive.name _), hnames]

variable (h : vocabulary.LeavesData) (hf : Addable vocabulary policy first)

include h hf

/-- What an entry makes in the second step, it makes at once behind the values of the first. -/
theorem merged_withAll (name : String) (values : List String) :
    merged vocabulary (withAll vocabulary policy first) (name, values) =
      merged vocabulary policy (name, (first.get? name).getD [] ++ values) := by
  have hfound := get?_withAll vocabulary policy first hf name
  cases hl : first.get? name with
  | none =>
    simp only [hl] at hfound
    simp only [merged, hfound, Option.getD_none, List.nil_append]
  | some before =>
    obtain ⟨directive, hm⟩ := Option.isSome_iff_exists.1
      ((first.forall_entries_iff _).1 hf name before hl)
    simp only [hl, hm] at hfound
    have hread := (merged_eq_some_iff _ _ _ _).1 hm
    ext last
    have hsteps := Vocabulary.readDirective_append_iff h name
      (((policy.get? name).map Directive.written).getD [] ++ before) values last
    simp only [merged_eq_some_iff, hfound, Option.map_some, Option.getD_some]
    rw [← List.append_assoc, hsteps, hread]
    constructor
    · intro hlast
      exact ⟨directive, rfl, hlast⟩
    · rintro ⟨directive', hd, hlast⟩
      cases hd
      exact hlast

/-- The second step can be carried out when all can be added at once. -/
theorem addable_withAll_iff :
    Addable vocabulary (withAll vocabulary policy first) second ↔
      Addable vocabulary policy (first.extendAll second) := by
  simp only [Addable, OrderedMap.forall_entries_iff, merged_withAll h hf]
  constructor
  · intro hs name values hv
    rw [first.get?_extendAll] at hv
    cases hl : second.get? name with
    | none =>
      simp only [hl] at hv
      exact (first.forall_entries_iff _).1 hf name values hv
    | some more =>
      simp only [hl, Option.some.injEq] at hv
      rw [← hv]
      exact hs name more hl
  · intro hall name more hl
    refine hall name _ ?_
    rw [first.get?_extendAll, hl]

/-- Two steps place what one step places, in the same order. -/
theorem withAll_withAll (hs : Addable vocabulary (withAll vocabulary policy first) second)
    (hall : Addable vocabulary policy (first.extendAll second)) :
    withAll vocabulary (withAll vocabulary policy first) second =
      withAll vocabulary policy (first.extendAll second) := by
  have hentries : (withAll vocabulary (withAll vocabulary policy first) second).entries =
      (withAll vocabulary policy (first.extendAll second)).entries := by
    refine OrderedMap.ext_of_keys ?_ fun name => ?_
    · rw [keys_withAll hs, keys_withAll hf, keys_withAll hall, first.keys_extendAll,
        eraseDups_append_left, eraseDups_append_right, List.append_assoc]
    · have htwo := get?_withAll vocabulary _ second hs name
      have hone := get?_withAll vocabulary policy first hf name
      have hboth := get?_withAll vocabulary policy _ hall name
      rw [first.get?_extendAll] at hboth
      refine htwo.trans (Eq.trans ?_ hboth.symm)
      cases second.get? name with
      | none => exact hone
      | some values => exact merged_withAll h hf name values
  exact congrArg Policy.mk hentries

omit hf in
/-- What can be added at once, can be added in part. -/
theorem addable_of_extendAll (hall : Addable vocabulary policy (first.extendAll second)) :
    Addable vocabulary policy first := by
  simp only [Addable, OrderedMap.forall_entries_iff] at hall ⊢
  intro name values hv
  have hboth := hall name
  rw [first.get?_extendAll, hv] at hboth
  cases hl : second.get? name with
  | none => exact hboth values (by rw [hl])
  | some more =>
    obtain ⟨last, hm⟩ := Option.isSome_iff_exists.1 (hboth (values ++ more) (by rw [hl]; rfl))
    rw [merged_eq_some_iff, ← List.append_assoc, Vocabulary.readDirective_append_iff h] at hm
    obtain ⟨directive, hread, -⟩ := hm
    exact Option.isSome_iff_exists.2 ⟨directive, (merged_eq_some_iff _ _ _ _).2 hread⟩

/-- To list the same once more makes no difference. -/
theorem merged_withAll_again {name : String} {values : List String}
    (hv : first.get? name = some values) :
    merged vocabulary (withAll vocabulary policy first) (name, values) =
      merged vocabulary policy (name, values) := by
  rw [merged_withAll h hf, hv]
  simp only [merged, Option.getD_some]
  rw [← List.append_assoc,
    Vocabulary.readDirective_append_of_subset _ _ (List.subset_append_right _ _)]

theorem addable_again : Addable vocabulary (withAll vocabulary policy first) first := by
  simp only [Addable, OrderedMap.forall_entries_iff] at hf ⊢
  intro name values hv
  rw [merged_withAll_again h ((first.forall_entries_iff _).2 hf) hv]
  exact hf name values hv

/-- Everything that is placed once more is there already, in its place. -/
theorem withAll_again :
    withAll vocabulary (withAll vocabulary policy first) first =
      withAll vocabulary policy first := by
  have hagain := addable_again h hf
  have hentries : (withAll vocabulary (withAll vocabulary policy first) first).entries =
      (withAll vocabulary policy first).entries := by
    refine OrderedMap.ext_of_keys ?_ fun name => ?_
    · rw [keys_withAll hagain, keys_withAll hf, eraseDups_append_left,
        eraseDups_append_of_subset (List.subset_append_right _ _)]
    · have htwo := get?_withAll vocabulary _ first hagain name
      have hone := get?_withAll vocabulary policy first hf name
      refine htwo.trans ?_
      cases hv : first.get? name with
      | none => rfl
      | some values =>
        rw [hv] at hone
        exact (merged_withAll_again h hf hv).trans hone.symm
  exact congrArg Policy.mk hentries

end Steps

theorem policy_modify_self (store : Store) (target : Disposition) (change : Policy → Policy) :
    (store.modify target change).policy target = change (store.policy target) := by
  rw [policy_modify, if_pos rfl]

theorem modify_modify (store : Store) (target : Disposition) (change more : Policy → Policy) :
    (store.modify target change).modify target more = store.modify target (more ∘ change) := by
  cases target <;> rfl

theorem modify_congr (store : Store) (target : Disposition) {change other : Policy → Policy}
    (h : change (store.policy target) = other (store.policy target)) :
    store.modify target change = store.modify target other := by
  cases target with
  | enforce => exact congrArg (fun policy => { store with enforced := policy }) h
  | report => exact congrArg (fun policy => { store with reported := policy }) h

end Store

/-- Two additions to a policy succeed when one addition does of all that they list, and leave the same
store as it. An addition that is made once more leaves the store as it is. -/
theorem adding_in_steps_adds_at_once (store : Store) (h : store.vocabulary.LeavesData)
    (scope : Scope) (first second : DirectiveValues) :
    (∀ last, (∃ next, store.add scope first = .ok next ∧ next.add scope second = .ok last) ↔
      store.add scope (first.extendAll second) = .ok last) ∧
    ∀ next, store.add scope first = .ok next → next.add scope first = .ok next := by
  simp only [Store.add_eq_ok_iff]
  refine ⟨fun last => ⟨?_, ?_⟩, ?_⟩
  · rintro ⟨next, ⟨target, ht, hf, rfl⟩, target', ht', hs, rfl⟩
    obtain rfl : target = target' := Option.some.inj (ht.symm.trans ht')
    rw [Store.vocabulary_modify, Store.policy_modify_self] at hs
    have hall := (Store.addable_withAll_iff h hf).1 hs
    refine ⟨target, ht, hall, ?_⟩
    rw [Store.vocabulary_modify, Store.modify_modify]
    exact store.modify_congr target (Store.withAll_withAll h hf hs hall)
  · rintro ⟨target, ht, hall, rfl⟩
    have hf := Store.addable_of_extendAll h hall
    have hs := (Store.addable_withAll_iff h hf).2 hall
    refine ⟨_, ⟨target, ht, hf, rfl⟩, target, ht, ?_, ?_⟩
    · rwa [Store.vocabulary_modify, Store.policy_modify_self]
    · rw [Store.vocabulary_modify, Store.modify_modify]
      exact store.modify_congr target (Store.withAll_withAll h hf hs hall).symm
  · rintro next ⟨target, ht, hf, rfl⟩
    refine ⟨target, ht, ?_, ?_⟩
    · rw [Store.vocabulary_modify, Store.policy_modify_self]
      exact Store.addable_again h hf
    · rw [Store.vocabulary_modify, Store.modify_modify]
      exact store.modify_congr target (Store.withAll_again h hf).symm

/-- The second step reads `data:` where the first read `DATA:`, and lists a directive that is new. -/
theorem adding_in_steps_adds_at_once_with_data :
    Vocabulary.csp1.LeavesData ∧
      ∃ next last,
        (Store.blank .csp1).add .enforce ⟨[("img-src", ["DATA:", "self"])], by decide⟩ = .ok next ∧
        next.add .enforce ⟨[("font-src", ["*"]), ("img-src", ["data:", "cdn.example.com"])],
          by decide⟩ = .ok last ∧
        last.enforced.render = "img-src data: 'self' cdn.example.com;font-src *;" := by
  have h : Vocabulary.csp1.LeavesData := Vocabulary.csp1_dataFree.leavesData
  have hsteps := adding_in_steps_adds_at_once (.blank .csp1) h .enforce
    ⟨[("img-src", ["DATA:", "self"])], by decide⟩
    ⟨[("font-src", ["*"]), ("img-src", ["data:", "cdn.example.com"])], by decide⟩
  obtain ⟨next, hfirst, hsecond⟩ := (hsteps.1 _).2 rfl
  exact ⟨h, next, _, hfirst, hsecond, by decide⟩

end ContentSecurity
