import ContentSecurity.Proofs.Store.Removal
import ContentSecurity.Proofs.Store.Rereading

/-!
Taking back what was added. An addition tells sources apart by what they are read as, a removal by
how they are written; the two agree on every value that has been accepted, since it names the source
that it was read as. So to remove what has just been added leaves the store as it was, with
everything in its old place, as long as no listed value was there before and no listed directive was
there without sources.
-/
namespace ContentSecurity

/-- The sources that values name are dropped behind those that they do not name. -/
theorem Directive.left?_append_sources {name : String} {old more : List Source}
    {values : List String} (hold : ∀ source ∈ old, values.any source.isNamedBy = false)
    (hmore : ∀ source ∈ more, values.any source.isNamedBy = true) :
    left? ⟨name, old ++ more⟩ values = if old.isEmpty then none else some ⟨name, old⟩ := by
  have hkeep : old.filter (fun source => !values.any source.isNamedBy) = old :=
    List.filter_eq_self.2 fun source hs => by simp [hold source hs]
  have hdrop : more.filter (fun source => !values.any source.isNamedBy) = [] :=
    List.filter_eq_nil_iff.2 fun source hs => by simp [hmore source hs]
  simp only [left?, without, List.filter_append, hkeep, hdrop, List.append_nil]

namespace DirectiveForm

variable {form : DirectiveForm}

/-- What values add is named by them. -/
theorem Adds.any_isNamedBy {old more : List Source} {values : List String}
    (h : form.Adds old values more) {source : Source} (hs : source ∈ more) :
    values.any source.isNamedBy = true := by
  obtain ⟨value, hv, hread, -⟩ := (h.new.mem_iff source).1 hs
  exact List.any_eq_true.2
    ⟨value, hv, isNamedBy_of_classify ((form.classify_eq_some_iff value source).2 hread)⟩

/-- A directive mentions the values that it was read from. -/
theorem mentions_directive {values : List String} (h : form.Accepts values) (name : String)
    {value : String} (hv : value ∈ values) :
    (form.directive name values).mentions value = true := by
  obtain ⟨source, hc⟩ := Option.isSome_iff_exists.1 (h.readable value hv)
  exact List.any_eq_true.2
    ⟨source, (form.mem_directive name values source).2 ⟨value, hv, hc⟩, isNamedBy_of_classify hc⟩

end DirectiveForm

namespace Store

/-- A scope that means one policy covers that policy alone. -/
theorem modifyCovered_of_disposition? {scope : Scope} {target : Disposition}
    (ht : scope.disposition? = some target) (store : Store) (change : Policy → Policy) :
    store.modifyCovered scope change = store.modify target change := by
  cases scope <;> cases ht <;> rfl

theorem modify_eq_self (store : Store) {target : Disposition} {change : Policy → Policy}
    (h : change (store.policy target) = store.policy target) :
    store.modify target change = store := by
  have hsame : change (store.policy target) = id (store.policy target) := h
  rw [store.modify_congr target hsame]
  cases target <;> rfl

/-- The names that are left stand in the order in which they stood. -/
theorem keys_withoutAll (policy : Policy) (listed : DirectiveValues) :
    (withoutAll policy listed).entries.keys = policy.entries.keys.filter fun name =>
      ((withoutAll policy listed).get? name).isSome := by
  rw [OrderedMap.keys, OrderedMap.keys, entries_withoutAll, List.filter_map, List.map_filterMap,
    ← List.filterMap_eq_filter, List.map_filterMap]
  refine List.filterMap_congr fun entry he => ?_
  have hg : policy.get? entry.1 = some entry.2 := (policy.entries.get?_eq_some_iff _ _).2 he
  have hleft : (withoutAll policy listed).get? entry.1 = listed.leave? entry.1 entry.2 := by
    rw [get?_withoutAll, DirectiveValues.leave?, hg]
    cases listed.get? entry.1 <;> rfl
  simp only [Option.guard_apply, Function.comp_apply, hleft]
  cases listed.leave? entry.1 entry.2 <;> rfl

variable {vocabulary : Vocabulary} {policy : Policy} {listed : DirectiveValues}

/-- Each value that was added names a source of its directive. -/
theorem exists_mentions_of_withAll (hl : Addable vocabulary policy listed) {name : String}
    {values : List String} (hv : listed.get? name = some values) {value : String}
    (hm : value ∈ values) :
    ∃ directive, (withAll vocabulary policy listed).get? name = some directive ∧
      directive.mentions value = true := by
  obtain ⟨directive, hmerged⟩ := Option.isSome_iff_exists.1
    ((listed.forall_entries_iff _).1 hl name values hv)
  refine ⟨directive, ?_, ?_⟩
  · rw [get?_withAll vocabulary policy listed hl, hv]
    exact hmerged
  · rw [merged_eq_some_iff, Vocabulary.readDirective_eq_ok_iff] at hmerged
    obtain ⟨form, -, ha, rfl⟩ := hmerged
    exact DirectiveForm.mentions_directive ha name (List.mem_append_right _ hm)

variable (hp : policy.Each vocabulary fun form directive => directive.Rereads form)
  (hl : Addable vocabulary policy listed) (hlacks : policy.Lacks listed)
  (hbare : policy.NoneBare listed.keys)

include hp hl hlacks hbare

theorem get?_withoutAll_withAll (name : String) :
    (withoutAll (withAll vocabulary policy listed) listed).get? name = policy.get? name := by
  rw [get?_withoutAll]
  cases hv : listed.get? name with
  | none => rw [get?_withAll vocabulary policy listed hl, hv]
  | some values =>
    obtain ⟨form, more, -, hfound, hadds⟩ := Policy.exists_adds_of_withAll hp hl hv
    simp only [hfound, Option.bind_some]
    -- Everything behind the old sources is named; none of the old ones is.
    cases hg : policy.get? name with
    | none =>
      have hold : policy.sourcesOf name = [] := by rw [Policy.sourcesOf, hg]; rfl
      rw [hold] at hadds ⊢
      exact Directive.left?_append_sources (fun _ hs => absurd hs List.not_mem_nil)
        fun _ hs => hadds.any_isNamedBy hs
    | some directive =>
      obtain ⟨rfl, -⟩ := hp name directive hg
      have hold : policy.sourcesOf directive.name = directive.sources := by
        rw [Policy.sourcesOf, hg]; rfl
      have hne : directive.sources ≠ [] :=
        hbare directive.name ((listed.mem_keys_iff _).2 (by rw [hv]; rfl)) directive hg
      have hunnamed := (directive.mentions_eq_false_iff values).1 (hlacks _ values directive hv hg)
      rw [hold] at hadds ⊢
      rw [Directive.left?_append_sources hunnamed fun _ hs => hadds.any_isNamedBy hs]
      simp [hne]

/-- To remove what has been added leaves the policy as it was. -/
theorem withoutAll_withAll :
    withoutAll (withAll vocabulary policy listed) listed = policy := by
  have hfind := get?_withoutAll_withAll hp hl hlacks hbare
  have hentries : (withoutAll (withAll vocabulary policy listed) listed).entries =
      policy.entries := by
    refine OrderedMap.ext_of_keys ?_ hfind
    -- New names were put at the end, and all of them are gone.
    have hnew : (listed.keys.filter (· ∉ policy.entries.keys)).filter
        (fun name => (policy.get? name).isSome) = [] := by
      refine List.filter_eq_nil_iff.2 fun name hn => ?_
      have habsent := (List.mem_filter.1 hn).2
      rwa [decide_eq_true_iff, policy.entries.mem_keys_iff] at habsent
    have hold : policy.entries.keys.filter (fun name => (policy.get? name).isSome) =
        policy.entries.keys :=
      List.filter_eq_self.2 fun name hn => (policy.entries.mem_keys_iff name).1 hn
    have hd : policy.entries.keys.Nodup := policy.entries.nodup
    have hd' : listed.keys.Nodup := listed.nodup
    rw [keys_withoutAll, keys_withAll hl]
    simp only [hfind]
    rw [eraseDups_append_of_nodup hd hd', List.filter_append, hold, hnew, List.append_nil]
  exact congrArg Policy.mk hentries

end Store

/-- What has been added is removed by the spellings that it was added with, and nothing else is: the
removal of what was listed gives back the store as it was before the addition. -/
theorem removal_undoes_addition (vocabulary : Vocabulary) (h : vocabulary.LeavesData)
    (store : Store) (hr : store.Reachable vocabulary) (hreach : store.reach = .ownScope)
    (scope : Scope) (target : Disposition) (ht : scope.disposition? = some target)
    (listed : DirectiveValues) (next : Store) (ha : store.add scope listed = .ok next) :
    (∀ name values, listed.get? name = some values → ∀ value ∈ values,
      (∃ directive, (next.policy target).get? name = some directive ∧
        directive.mentions value = true) ∧
      ∀ (others : DirectiveValues) more, others.get? name = some more → value ∈ more →
        ∃ last, next.remove scope others = .ok last ∧
          ∀ left, (last.policy target).get? name = some left → left.mentions value = false) ∧
    ((store.policy target).Lacks listed → (store.policy target).NoneBare listed.keys →
      next.remove scope listed = .ok store) := by
  have hstore := (Policy.rereads_kept h).reachable hr
  have hs : scope ≠ .all := by
    rintro rfl
    cases ht
  obtain ⟨_, ht', hl, rfl⟩ := (store.add_eq_ok_iff scope listed next).1 ha
  obtain rfl := Option.some.inj (ht.symm.trans ht')
  have hremove (others : DirectiveValues) :
      (store.modify target (Store.withAll store.vocabulary · listed)).remove scope others =
        .ok (store.modify target fun policy =>
          Store.withoutAll (Store.withAll store.vocabulary policy listed) others) := by
    have hscope : (store.modify target (Store.withAll store.vocabulary · listed)).removalScope
        scope = scope := by
      rw [Store.removalScope, Store.reach_modify, hreach]
    rw [Store.remove_of_ne_all _ hs, hscope, Store.modifyCovered_of_disposition? ht,
      Store.modify_modify]
    rfl
  refine ⟨fun name values hv value hm => ⟨?_, fun others more hmore hv' => ?_⟩,
    fun hlacks hbare => ?_⟩
  · rw [Store.policy_modify_self]
    exact Store.exists_mentions_of_withAll hl hv hm
  · refine ⟨_, hremove others, fun left hleft => ?_⟩
    rw [Store.policy_modify_self] at hleft
    exact ((Policy.loses_withoutAll _ others).gone name more hmore left hleft).2 value hv'
  · rw [hremove listed]
    refine congrArg Except.ok (store.modify_eq_self ?_)
    rw [← hstore.1] at hstore
    exact Store.withoutAll_withAll (hstore.2 target) hl hlacks hbare

/-- The data mark is listed in two spellings, between directives that are there and directives that
are not, among these a sandbox without values. -/
theorem removal_undoes_addition_of_bare_sandbox :
    let image : Directive := ⟨"img-src", [.keyword "self"]⟩
    let style : Directive := ⟨"style-src", [.host "a.b"]⟩
    let store : Store := ⟨⟨⟨[("img-src", image), ("style-src", style)], by decide⟩⟩, ∅, .csp1,
      .ownScope⟩
    let listed : DirectiveValues := ⟨[("font-src", ["*"]),
      ("img-src", ["DATA:", "data:", "cdn.example.com"]), ("sandbox", [])], by decide⟩
    Store.Reachable .csp1 store ∧ store.enforced.Lacks listed ∧
      store.enforced.NoneBare listed.keys ∧
      ∃ next last, store.add .enforce listed = .ok next ∧
        next.enforced.render =
          "img-src 'self' data: cdn.example.com;style-src a.b;font-src *;sandbox;" ∧
        next.remove .enforce ⟨[("img-src", ["DATA:"])], by decide⟩ = .ok last ∧
        last.enforced.render = "img-src 'self' cdn.example.com;style-src a.b;font-src *;sandbox;" ∧
        next.remove .enforce listed = .ok store := by
  intro image style store listed
  have hstart : Store.Founded .csp1 store :=
    .ofValues ⟨[("img-src", ["self"]), ("style-src", ["a.b"])], by decide⟩ ∅ _ rfl
  have hlacks : store.enforced.Lacks listed := by decide
  have hbare : store.enforced.NoneBare listed.keys := by decide
  obtain ⟨hnamed, hback⟩ := removal_undoes_addition .csp1 Vocabulary.csp1_dataFree.leavesData store
    hstart.reachable rfl .enforce .enforce rfl listed _ rfl
  obtain ⟨-, hone⟩ := hnamed "img-src" _ rfl "DATA:" (by decide)
  obtain ⟨last, hlast, -⟩ := hone ⟨[("img-src", ["DATA:"])], by decide⟩ _ rfl (by decide)
  refine ⟨hstart.reachable, hlacks, hbare, _, last, rfl, by decide, hlast, ?_, hback hlacks hbare⟩
  cases hlast
  decide

end ContentSecurity
