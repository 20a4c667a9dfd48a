import ContentSecurity.Proofs.Store.Merging
import ContentSecurity.Proofs.Store.Sameness
import Mathlib.Data.List.Forall2

/-!
Removing in steps. A directive may be gone before the next removal comes to it, and what is gone
shifts all that stands behind it. Still a removal does to each directive what it does to it alone,
so removals may change places, come at once or come again, and what they leave stands in its old
order. What a removal looks at is whether a directive has sources afterwards and not whether it lost
any; so one that never had any is dropped as soon as it is listed.
-/
namespace ContentSecurity

/-! ## Directive by directive -/

/-- What a removal leaves of a directive that stands under a name. -/
def DirectiveValues.leave? (listed : DirectiveValues) (name : String) :
    Directive → Option Directive :=
  match listed.get? name with
  | none => some
  | some values => (·.left? values)

/-- A directive of the same name with some of the sources, in the order in which they stand. -/
def Directive.PartOf (left directive : Directive) : Prop :=
  left.name = directive.name ∧ left.sources.Sublist directive.sources

/-- Values that a directive does not mention name none of its sources. -/
theorem Directive.mentions_eq_false_iff (directive : Directive) (values : List String) :
    (∀ value ∈ values, directive.mentions value = false) ↔
      ∀ source ∈ directive.sources, values.any source.isNamedBy = false := by
  simp only [mentions, List.any_eq_false]
  exact ⟨fun h source hs value hv => h value hv source hs,
    fun h value hv source hs => h source hs value hv⟩

namespace DirectiveValues

variable (first second listed : DirectiveValues) (name : String) (directive : Directive)

theorem leave?_extendAll :
    (first.leave? name directive).bind (second.leave? name) =
      (first.extendAll second).leave? name directive := by
  simp only [leave?, first.get?_extendAll]
  cases first.get? name with
  | none => cases second.get? name <;> rfl
  | some values =>
    cases second.get? name with
    | none => exact Option.bind_fun_some _
    | some more => exact directive.left?_append values more

theorem leave?_comm :
    (first.leave? name directive).bind (second.leave? name) =
      (second.leave? name directive).bind (first.leave? name) := by
  simp only [leave?]
  cases first.get? name with
  | none => exact (Option.bind_fun_some _).symm
  | some values =>
    cases second.get? name with
    | none => exact Option.bind_fun_some _
    | some more => exact directive.left?_comm values more

theorem leave?_again :
    (listed.leave? name directive).bind (listed.leave? name) = listed.leave? name directive := by
  simp only [leave?]
  cases listed.get? name with
  | none => rfl
  | some values =>
    have hsame : directive.without (values ++ values) = directive.without values := by
      simp only [Directive.without, List.any_append, Bool.or_self]
    refine (directive.left?_append values values).trans ?_
    simp only [Directive.left?, hsame]

variable {listed name directive}

theorem partOf_of_leave? {left : Directive} (h : listed.leave? name directive = some left) :
    left.PartOf directive := by
  unfold leave? at h
  cases hl : listed.get? name with
  | none =>
    rw [hl] at h
    cases h
    exact ⟨rfl, List.Sublist.refl _⟩
  | some values =>
    rw [hl] at h
    obtain ⟨rfl, -⟩ := (directive.left?_eq_some_iff values left).1 h
    exact ⟨rfl, List.filter_sublist⟩

/-- Where no listed value names a source, a directive is left as it is, but for one that is listed
and has no sources at all. -/
theorem leave?_of_not_mentions
    (h : ∀ values, listed.get? name = some values → ∀ value ∈ values,
      directive.mentions value = false) :
    listed.leave? name directive =
      if directive.sources.isEmpty && listed.contains name then none else some directive := by
  unfold leave? OrderedMap.contains
  cases hl : listed.get? name with
  | none => simp
  | some values =>
    have hkeep : directive.without values = directive := by
      refine congrArg (Directive.mk directive.name) (List.filter_eq_self.2 fun source hs => ?_)
      rw [(directive.mentions_eq_false_iff values).1 (h values hl) source hs]
      rfl
    simp only [Directive.left?, hkeep, Option.isSome_some, Bool.and_true]

end DirectiveValues

/-! ## Policies -/

theorem Policy.ext_entries {policy other : Policy}
    (h : policy.entries.entries = other.entries.entries) : policy = other := by
  obtain ⟨⟨entries, hd⟩⟩ := policy
  obtain ⟨⟨others, hd'⟩⟩ := other
  obtain rfl : entries = others := h
  rfl

theorem sublistForall₂_filterMap {α β γ : Type} {r : γ → β → Prop} {change : α → Option γ}
    {view : α → β} (h : ∀ a c, change a = some c → r c (view a)) (items : List α) :
    List.SublistForall₂ r (items.filterMap change) (items.map view) := by
  induction items with
  | nil => exact .nil
  | cons item rest ih =>
    cases hc : change item with
    | none => simpa [hc] using ih.cons_right
    | some changed => simpa [hc] using .cons (h item changed hc) ih

namespace Store

/-- The walk over what is listed leaves of each directive what is left of it alone. -/
theorem entries_withoutAll (policy : Policy) (listed : DirectiveValues) :
    (withoutAll policy listed).entries.entries =
      policy.entries.entries.filterMap fun entry =>
        (listed.leave? entry.1 entry.2).map (entry.1, ·) := by
  have hwalk : (withoutAll policy listed).entries =
      listed.entries.foldl (fun map entry => map.update entry.1 (·.left? entry.2))
        policy.entries :=
    (List.foldl_hom Policy.entries (fun _ _ => rfl)).symm
  have hentries := OrderedMap.entries_foldl_update
    (fun values (directive : Directive) => directive.left? values) listed.entries listed.nodup
    policy.entries
  rw [hwalk]
  refine hentries.trans (List.filterMap_congr fun entry _ => ?_)
  rw [DirectiveValues.leave?, OrderedMap.get?]
  cases lookupName entry.1 listed.entries <;> rfl

theorem directives_withoutAll (policy : Policy) (listed : DirectiveValues) :
    (withoutAll policy listed).directives =
      policy.entries.entries.filterMap fun entry => listed.leave? entry.1 entry.2 := by
  simp only [Policy.directives, OrderedMap.values, entries_withoutAll, List.map_filterMap,
    Option.map_map]
  exact List.filterMap_congr fun _ _ => Option.map_id'

/-- Two removals, one after the other, leave of each directive what they leave of it alone. -/
theorem entries_withoutAll_withoutAll (policy : Policy) (first second : DirectiveValues) :
    (withoutAll (withoutAll policy first) second).entries.entries =
      policy.entries.entries.filterMap fun entry =>
        ((first.leave? entry.1 entry.2).bind (second.leave? entry.1)).map (entry.1, ·) := by
  rw [entries_withoutAll, entries_withoutAll, List.filterMap_filterMap]
  refine List.filterMap_congr fun entry _ => ?_
  rw [Option.bind_map, Option.map_bind]
  rfl

theorem withoutAll_withoutAll (policy : Policy) (first second : DirectiveValues) :
    withoutAll (withoutAll policy first) second = withoutAll policy (first.extendAll second) := by
  refine Policy.ext_entries ?_
  rw [entries_withoutAll_withoutAll, entries_withoutAll]
  simp only [DirectiveValues.leave?_extendAll]

theorem withoutAll_comm (policy : Policy) (first second : DirectiveValues) :
    withoutAll (withoutAll policy first) second =
      withoutAll (withoutAll policy second) first := by
  refine Policy.ext_entries ?_
  rw [entries_withoutAll_withoutAll, entries_withoutAll_withoutAll]
  simp only [DirectiveValues.leave?_comm first second]

theorem withoutAll_again (policy : Policy) (listed : DirectiveValues) :
    withoutAll (withoutAll policy listed) listed = withoutAll policy listed := by
  refine Policy.ext_entries ?_
  rw [entries_withoutAll_withoutAll, entries_withoutAll]
  simp only [DirectiveValues.leave?_again]

end Store

/-- What is left of a policy from which listed values have been removed. -/
structure Policy.Loses (listed : DirectiveValues) (policy next : Policy) : Prop where
  /-- Directives that are left, and the sources in them, stand in the order in which they stood. -/
  order : List.SublistForall₂ Directive.PartOf next.directives policy.directives
  /-- No directive that is listed is left without sources, or with one that is listed for it. -/
  gone : ∀ name values, listed.get? name = some values → ∀ left, next.get? name = some left →
    left.sources ≠ [] ∧ ∀ value ∈ values, left.mentions value = false
  /-- A source is left if no value names it that is listed for its directive. -/
  kept : ∀ name directive, policy.get? name = some directive → ∀ source ∈ directive.sources,
    (∀ values, listed.get? name = some values → ∀ value ∈ values,
      source.isNamedBy value = false) →
    ∃ left, next.get? name = some left ∧ source ∈ left.sources
  others : ∀ name, listed.get? name = none → next.get? name = policy.get? name

theorem Policy.loses_withoutAll (policy : Policy) (listed : DirectiveValues) :
    policy.Loses listed (Store.withoutAll policy listed) where
  order := by
    rw [Store.directives_withoutAll]
    exact sublistForall₂_filterMap (fun _ _ hc => DirectiveValues.partOf_of_leave? hc) _
  gone := by
    intro name values hl left hg
    simp only [Store.get?_withoutAll, hl] at hg
    obtain ⟨directive, -, hleft⟩ := Option.bind_eq_some_iff.1 hg
    obtain ⟨rfl, hne⟩ := (directive.left?_eq_some_iff values left).1 hleft
    refine ⟨hne, (Directive.mentions_eq_false_iff _ values).2 fun source hs => ?_⟩
    simpa using (List.mem_filter.1 hs).2
  kept := by
    intro name directive hg source hs hn
    rw [Store.get?_withoutAll]
    cases hl : listed.get? name with
    | none => exact ⟨directive, hg, hs⟩
    | some values =>
      have hkeep : source ∈ (directive.without values).sources :=
        List.mem_filter.2 ⟨hs, by simpa using hn values hl⟩
      refine ⟨directive.without values, ?_, hkeep⟩
      simp only [hg, Option.bind_some]
      exact (directive.left?_eq_some_iff values _).2 ⟨rfl, List.ne_nil_of_mem hkeep⟩
  others := fun name hl => by rw [Store.get?_withoutAll, hl]

/-! ## Stores -/

namespace Store

theorem remove_of_ne_all (store : Store) {scope : Scope} (h : scope ≠ .all)
    (listed : DirectiveValues) :
    store.remove scope listed =
      .ok (store.modifyCovered (store.removalScope scope) (withoutAll · listed)) := by
  cases scope with
  | all => exact absurd rfl h
  | enforce => rfl
  | reportOnly => rfl

theorem modifyCovered_modifyCovered (store : Store) (scope : Scope)
    (change more : Policy → Policy) :
    (store.modifyCovered scope change).modifyCovered scope more =
      store.modifyCovered scope (more ∘ change) := by
  cases scope <;> rfl

/-- The second removal acts on the same policies as the first. -/
theorem remove_remove (store : Store) {scope : Scope} (h : scope ≠ .all)
    (first second : DirectiveValues) :
    (store.modifyCovered (store.removalScope scope) (withoutAll · first)).remove scope second =
      .ok (store.modifyCovered (store.removalScope scope)
        fun policy => withoutAll (withoutAll policy first) second) := by
  rw [remove_of_ne_all _ h]
  exact congrArg Except.ok (modifyCovered_modifyCovered store _ _ _)

end Store

/-- Removals may be carried out one after the other, in either order, or all at once: none is
refused, and they leave the same store. To remove the same again changes nothing. -/
theorem removing_in_steps_removes_at_once (store : Store) (scope : Scope) (h : scope ≠ .all)
    (first second : DirectiveValues) :
    ∃ left right last : Store,
      store.remove scope first = .ok left ∧ left.remove scope second = .ok last ∧
      store.remove scope second = .ok right ∧ right.remove scope first = .ok last ∧
      store.remove scope (first.extendAll second) = .ok last ∧
      left.remove scope first = .ok left ∧
      last.vocabulary = store.vocabulary ∧ last.reach = store.reach ∧
      ∀ disposition,
        ((store.removalScope scope).covers disposition = true →
          (store.policy disposition).Loses (first.extendAll second) (last.policy disposition)) ∧
        ((store.removalScope scope).covers disposition = false →
          last.policy disposition = store.policy disposition) := by
  refine ⟨_, _, _, store.remove_of_ne_all h first, store.remove_remove h first second,
    store.remove_of_ne_all h second, ?_, ?_, ?_, rfl, rfl,
    fun disposition => ⟨fun hc => ?_, fun hc => ?_⟩⟩
  · rw [store.remove_remove h]
    simp only [Store.withoutAll_comm _ second first]
  · rw [store.remove_of_ne_all h]
    simp only [Store.withoutAll_withoutAll]
  · rw [store.remove_remove h]
    simp only [Store.withoutAll_again]
  · rw [Store.policy_modifyCovered, if_pos hc, Store.withoutAll_withoutAll]
    exact Policy.loses_withoutAll _ _
  · rw [Store.policy_modifyCovered, hc]
    rfl

/-- Removals reach both policies here. The first drops a sandbox that has no values; the second
takes the last source of a directive that both list. -/
theorem removing_in_steps_removes_at_once_from_both_policies :
    let first : DirectiveValues :=
      ⟨[("sandbox", ["allow-forms"]), ("img-src", ["Data:"])], by decide⟩
    let second : DirectiveValues :=
      ⟨[("style-src", ["self"]), ("img-src", ["self", "data:"])], by decide⟩
    Scope.reportOnly ≠ .all ∧ ∃ store left last : Store,
      Store.Reachable .csp1 store ∧
      store.enforced.render = "img-src data: 'self';sandbox;style-src a.b 'self' c.d;" ∧
      store.remove .reportOnly first = .ok left ∧ left.remove .reportOnly second = .ok last ∧
      store.remove .reportOnly (first.extendAll second) = .ok last ∧
      left.enforced.render = "img-src 'self';style-src a.b 'self' c.d;" ∧
      last.enforced.render = "style-src a.b c.d;" ∧
      store.enforced.Loses (first.extendAll second) last.enforced := by
  intro first second
  have hs : Scope.reportOnly ≠ .all := by decide
  have hstart : Store.Founded .csp1 _ := .ofValues ⟨[("img-src", ["DATA:", "self"]),
    ("sandbox", []), ("style-src", ["a.b", "self", "c.d"])], by decide⟩ ∅ _ rfl
  have hr := hstart.reachable.run [.setReach .bothPolicies]
  obtain ⟨left, right, last, hleft, hlast, -, -, honce, -, -, -, hp⟩ :=
    removing_in_steps_removes_at_once _ .reportOnly hs first second
  refine ⟨hs, _, left, last, hr, by decide, hleft, hlast, honce, ?_, ?_, (hp .enforce).1 rfl⟩
  · cases hleft
    decide
  · cases honce
    decide

/-! ## Removing what is not there -/

/-- No value that is listed for a directive names a source that the policy has there. -/
def Policy.Lacks (policy : Policy) (listed : DirectiveValues) : Prop :=
  ∀ name values directive, listed.get? name = some values → policy.get? name = some directive →
    ∀ value ∈ values, directive.mentions value = false

/-- None of the named directives is there without sources. -/
def Policy.NoneBare (policy : Policy) (names : List String) : Prop :=
  ∀ name ∈ names, ∀ directive ∈ policy.get? name, directive.sources ≠ []

/-- The policy without those of the named directives that have no sources. -/
def Policy.withoutBare (policy : Policy) (names : List String) : Policy where
  entries :=
    { entries := policy.entries.entries.filter fun entry =>
        !(entry.2.sources.isEmpty && names.contains entry.1)
      nodup := policy.entries.nodup.sublist (List.filter_sublist.map Prod.fst) }

namespace Policy

instance (policy : Policy) (listed : DirectiveValues) : Decidable (policy.Lacks listed) :=
  decidable_of_iff (∀ entry ∈ listed.entries, ∀ directive ∈ policy.get? entry.1,
      ∀ value ∈ entry.2, directive.mentions value = false) <| by
    rw [listed.forall_entries_iff]
    exact ⟨fun h name values directive hl => h name values hl directive,
      fun h name values hl directive => h name values directive hl⟩

instance (policy : Policy) (names : List String) : Decidable (policy.NoneBare names) :=
  inferInstanceAs (Decidable (∀ name ∈ names, ∀ directive ∈ policy.get? name,
    directive.sources ≠ []))

theorem entries_withoutBare (policy : Policy) (names : List String) :
    (policy.withoutBare names).entries.entries = policy.entries.entries.filter fun entry =>
      !(entry.2.sources.isEmpty && names.contains entry.1) :=
  rfl

theorem Lacks.withoutAll {policy : Policy} {listed : DirectiveValues} (h : policy.Lacks listed) :
    Store.withoutAll policy listed = policy.withoutBare listed.keys := by
  refine ext_entries ?_
  rw [Store.entries_withoutAll, entries_withoutBare, ← List.filterMap_eq_filter]
  refine List.filterMap_congr fun entry he => ?_
  obtain ⟨name, directive⟩ := entry
  have hg := (policy.entries.get?_eq_some_iff name directive).2 he
  have hcontains : listed.keys.contains name = listed.contains name := by
    rw [Bool.eq_iff_iff, List.contains_iff_mem, listed.mem_keys_iff]
    rfl
  rw [DirectiveValues.leave?_of_not_mentions fun values hl => h name values directive hl hg,
    Option.guard_apply, hcontains]
  cases directive.sources.isEmpty && listed.contains name <;> rfl

theorem withoutBare_eq_self_iff (policy : Policy) (names : List String) :
    policy.withoutBare names = policy ↔ policy.NoneBare names := by
  have hentries : policy.withoutBare names = policy ↔
      (policy.withoutBare names).entries.entries = policy.entries.entries :=
    ⟨fun he => by rw [he], ext_entries⟩
  rw [hentries, entries_withoutBare, List.filter_eq_self, OrderedMap.forall_entries_iff]
  simp only [Bool.not_eq_true', Bool.and_eq_false_iff, List.isEmpty_eq_false_iff,
    List.contains_eq_mem, decide_eq_false_iff_not]
  constructor
  · intro hall name hn directive hg
    exact (hall name directive hg).resolve_right fun habsent => habsent hn
  · intro hnone name directive hg
    exact or_iff_not_imp_right.2 fun hn => hnone name (not_not.1 hn) directive hg

end Policy

/-- To remove values that are not there is not quite to do nothing: the directives for which they
are listed are dropped where they have no sources. So the store stays as it is just where none of
them is there without sources. -/
theorem removing_unknown_values_drops_bare_directives (store : Store) (scope : Scope)
    (h : scope ≠ .all) (listed : DirectiveValues)
    (hlacks : ∀ disposition, (store.removalScope scope).covers disposition = true →
      (store.policy disposition).Lacks listed) :
    ∃ next, store.remove scope listed = .ok next ∧
      next.vocabulary = store.vocabulary ∧ next.reach = store.reach ∧
      (∀ disposition,
        ((store.removalScope scope).covers disposition = true →
          next.policy disposition = (store.policy disposition).withoutBare listed.keys) ∧
        ((store.removalScope scope).covers disposition = false →
          next.policy disposition = store.policy disposition)) ∧
      (next = store ↔ ∀ disposition, (store.removalScope scope).covers disposition = true →
        (store.policy disposition).NoneBare listed.keys) := by
  have hcovered (disposition : Disposition)
      (hc : (store.removalScope scope).covers disposition = true) :
      (store.modifyCovered (store.removalScope scope) (Store.withoutAll · listed)).policy
        disposition = (store.policy disposition).withoutBare listed.keys := by
    rw [Store.policy_modifyCovered, if_pos hc, (hlacks disposition hc).withoutAll]
  have hother (disposition : Disposition)
      (hc : (store.removalScope scope).covers disposition = false) :
      (store.modifyCovered (store.removalScope scope) (Store.withoutAll · listed)).policy
        disposition = store.policy disposition := by
    rw [Store.policy_modifyCovered, hc]
    rfl
  refine ⟨_, store.remove_of_ne_all h listed, rfl, rfl,
    fun disposition => ⟨hcovered disposition, hother disposition⟩, ?_⟩
  rw [Store.eq_iff_policies]
  constructor
  · rintro ⟨-, -, hp⟩ disposition hc
    rw [← Policy.withoutBare_eq_self_iff, ← hcovered disposition hc, hp]
  · refine fun hnone => ⟨rfl, rfl, fun disposition => ?_⟩
    cases hc : (store.removalScope scope).covers disposition with
    | false => exact hother disposition hc
    | true =>
      rw [hcovered disposition hc, Policy.withoutBare_eq_self_iff]
      exact hnone disposition hc

/-- Removals reach both policies here. The sandbox that is only reported has no values and is
dropped; the one that is enforced has a value, though not the one that is listed, and stays. -/
theorem removing_unknown_values_drops_bare_directives_of_one_policy :
    let listed : DirectiveValues :=
      ⟨[("img-src", ["data:"]), ("sandbox", ["allow-forms"]), ("font-src", ["*"])], by decide⟩
    let scripts : Directive := ⟨"sandbox", [.allowance "allow-scripts"]⟩
    let bare : Directive := ⟨"sandbox", []⟩
    let image : Directive := ⟨"img-src", [.keyword "self"]⟩
    let store : Store := ⟨⟨⟨[("sandbox", scripts)], by decide⟩⟩,
      ⟨⟨[("sandbox", bare), ("img-src", image)], by decide⟩⟩, .csp1, .bothPolicies⟩
    Store.Reachable .csp1 store ∧ Scope.enforce ≠ .all ∧
      (∀ disposition, (store.policy disposition).Lacks listed) ∧
      ∃ next, store.remove .enforce listed = .ok next ∧ next ≠ store ∧
        next.enforced = store.enforced ∧ next.reported.directives = [image] := by
  intro listed scripts bare image store
  have hstart : Store.Founded .csp1 _ := .ofValues ⟨[("sandbox", ["allow-scripts"])], by decide⟩
    ⟨[("sandbox", []), ("img-src", ["self"])], by decide⟩ _ rfl
  have hs : Scope.enforce ≠ .all := by decide
  have hlacks : ∀ disposition, (store.policy disposition).Lacks listed := by
    rintro (_ | _) <;> decide
  have hbare : ¬ (store.policy .report).NoneBare listed.keys := by decide
  obtain ⟨next, hn, -, -, hp, hsame⟩ := removing_unknown_values_drops_bare_directives store .enforce
    hs listed fun disposition _ => hlacks disposition
  refine ⟨hstart.reachable.run [.setReach .bothPolicies], hs, hlacks, next, hn, ?_, ?_, ?_⟩
  · exact fun he => hbare (hsame.1 he .report rfl)
  · exact ((hp .enforce).1 rfl).trans (by decide)
  · exact (congrArg Policy.directives ((hp .report).1 rfl)).trans (by decide)

/-- A sandbox that lets nothing pass has no values, and is lost when one is removed that it does not
have. -/
theorem removing_unknown_value_drops_bare_sandbox :
    ∃ (store next : Store) (listed : DirectiveValues),
      Store.Reachable .csp1 store ∧ store.enforced.render = "sandbox;" ∧
      (∀ disposition, (store.removalScope .enforce).covers disposition = true →
        (store.policy disposition).Lacks listed) ∧
      store.remove .enforce listed = .ok next ∧ next.enforced.render = "" ∧ next ≠ store := by
  have hstart : Store.Founded .csp1 _ := .ofValues ⟨[("sandbox", [])], by decide⟩ ∅ _ rfl
  refine ⟨_, _, ⟨[("sandbox", ["allow-forms"])], by decide⟩, hstart.reachable, by decide, ?_, rfl,
    by decide, by decide⟩
  rintro (_ | _) - <;> decide

end ContentSecurity
