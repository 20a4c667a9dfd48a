import ContentSecurity.Proofs.Directive.Rereading
import ContentSecurity.Proofs.Directive.Verdict
import ContentSecurity.Proofs.Store.Lookup

/-!
What a store holds is read again and again: an addition writes out the directive that is there and
reads it with the new values, and a removal reads nothing. Neither can harm. Every directive that has
come into a store is read as itself, and so is every part of it that removals may leave.
-/
namespace ContentSecurity

/-- What values add to sources that are there already: all of them are read, and what is new comes in
the order in which it first comes among them. -/
structure DirectiveForm.Adds (form : DirectiveForm) (old : List Source) (values : List String)
    (more : List Source) : Prop where
  read : ∀ value ∈ values, ∃ source, form.Reads value source
  new : FirstSeen (fun value source => form.Reads value source ∧ source ∉ old) values more

/-- A directive that is read as itself keeps its sources, in front, when it is read with more values. -/
theorem Directive.Rereads.exists_adds {form : DirectiveForm} {directive : Directive}
    (h : directive.Rereads form) {values : List String}
    (ha : form.Accepts (directive.written ++ values)) (name : String) :
    ∃ more, (form.directive name (directive.written ++ values)).sources =
      directive.sources ++ more ∧ form.Adds directive.sources values more := by
  obtain ⟨more, hmore, hnew⟩ := exists_firstSeen_append h.distinct form.classify values
  refine ⟨more, by rw [h.sources_append, hmore], fun value hv => ?_, ?_⟩
  · have hread := ha.readable value (List.mem_append_right _ hv)
    simpa only [Option.isSome_iff_exists, form.classify_eq_some_iff] using hread
  · simpa only [form.classify_eq_some_iff] using hnew

/-- A directive without sources is read as itself. -/
theorem Directive.rereads_nil (form : DirectiveForm) (name : String) : Rereads form ⟨name, []⟩ where
  distinct := List.nodup_nil
  spelled := nofun
  accepted := ⟨nofun, nofun⟩

namespace Policy

/-- The sources that the policy has for a directive, none where the directive is not there. -/
def sourcesOf (policy : Policy) (name : String) : List Source :=
  ((policy.get? name).map Directive.sources).getD []

/-- Reading, placing and removing directives leave directives that are read as themselves. -/
theorem rereads_kept {vocabulary : Vocabulary} (h : vocabulary.LeavesData) :
    Kept vocabulary (Each vocabulary fun form directive => directive.Rereads form) :=
  each_kept (fun name form _ hf ha => DirectiveForm.rereads_directive (h name form hf) ha name)
    fun _ directive _ hr => hr.part List.filter_sublist directive.name

variable {vocabulary : Vocabulary} {policy : Policy}

/-- Every part of a directive of the policy is read as it is. -/
theorem readDirective_part
    (hp : policy.Each vocabulary fun form directive => directive.Rereads form)
    {directive : Directive} (hd : directive ∈ policy.directives) {part : List Source}
    (hpart : part.Sublist directive.sources) :
    vocabulary.readDirective directive.name (part.map Source.written) =
      .ok ⟨directive.name, part⟩ := by
  obtain ⟨name, hg⟩ := (policy.mem_directives_iff directive).1 hd
  obtain ⟨rfl, form, hf, hr⟩ := hp name directive hg
  exact Vocabulary.readDirective_part hf hr hpart

/-- Placing what listed values make puts their sources behind those that are there. -/
theorem exists_adds_of_withAll
    (hp : policy.Each vocabulary fun form directive => directive.Rereads form)
    {listed : DirectiveValues} (hl : Store.Addable vocabulary policy listed) {name : String}
    {values : List String} (hv : listed.get? name = some values) :
    ∃ form more, vocabulary.get? name = some form ∧
      (Store.withAll vocabulary policy listed).get? name =
        some ⟨name, policy.sourcesOf name ++ more⟩ ∧
      form.Adds (policy.sourcesOf name) values more := by
  obtain ⟨grown, hm⟩ := Option.isSome_iff_exists.1 ((listed.forall_entries_iff _).1 hl name values hv)
  have hfound := Store.get?_withAll vocabulary policy listed hl name
  simp only [hv, hm] at hfound
  rw [Store.merged_eq_some_iff, Vocabulary.readDirective_eq_ok_iff] at hm
  obtain ⟨form, hf, ha, rfl⟩ := hm
  -- What the policy has for the directive, be it nothing, is read as itself.
  have hold : ∃ old : Directive, old.sources = policy.sourcesOf name ∧ old.Rereads form ∧
      ((policy.get? name).map Directive.written).getD [] = old.written := by
    cases hg : policy.get? name with
    | none => exact ⟨⟨name, []⟩, by simp [sourcesOf, hg], Directive.rereads_nil form name, rfl⟩
    | some directive =>
      obtain ⟨-, form', hf', hr⟩ := hp name directive hg
      obtain rfl : form = form' := Option.some.inj (hf.symm.trans hf')
      exact ⟨directive, by simp [sourcesOf, hg], hr, rfl⟩
  obtain ⟨old, hsources, hr, hwritten⟩ := hold
  rw [hwritten] at ha hfound
  obtain ⟨more, hmore, hadds⟩ := hr.exists_adds ha name
  rw [hsources] at hmore hadds
  exact ⟨form, more, hf, hfound.trans (congrArg (some ∘ Directive.mk name) hmore), hadds⟩

/-- Placing what listed values make leaves each source of the policy where it was. -/
theorem get?_withAll_of_rereads
    (hp : policy.Each vocabulary fun form directive => directive.Rereads form)
    {listed : DirectiveValues}
    (hl : Store.Addable vocabulary policy listed) {name : String} {directive : Directive}
    (hg : policy.get? name = some directive) :
    ∃ more, (Store.withAll vocabulary policy listed).get? name =
      some ⟨directive.name, directive.sources ++ more⟩ := by
  cases hv : listed.get? name with
  | none =>
    rw [Store.get?_withAll vocabulary policy listed hl, hv]
    exact ⟨[], by simpa using hg⟩
  | some values =>
    obtain ⟨rfl, -⟩ := hp name directive hg
    obtain ⟨form, more, -, hfound, -⟩ := exists_adds_of_withAll hp hl hv
    have hsources : policy.sourcesOf directive.name = directive.sources := by simp [sourcesOf, hg]
    rw [hsources] at hfound
    exact ⟨more, hfound⟩

end Policy

/-- Every directive of a store, and every part of one, is read as itself. So an addition keeps each
source that it finds, in its place, and what a removal leaves is what would be read of it. -/
theorem parts_are_read_as_themselves (vocabulary : Vocabulary) (h : vocabulary.LeavesData)
    (store : Store) (hr : store.Reachable vocabulary) (disposition : Disposition) :
    (∀ directive ∈ (store.policy disposition).directives, ∀ part : List Source,
      part.Sublist directive.sources →
        vocabulary.readDirective directive.name (part.map Source.written) =
          .ok ⟨directive.name, part⟩) ∧
    (∀ scope listed next, store.add scope listed = .ok next →
      ∀ name directive, (store.policy disposition).get? name = some directive →
        ∃ more, (next.policy disposition).get? name =
          some ⟨directive.name, directive.sources ++ more⟩) ∧
    ∀ scope listed next, store.remove scope listed = .ok next →
      ∀ left ∈ (next.policy disposition).directives,
        vocabulary.readDirective left.name left.written = .ok left := by
  have hkept := Policy.rereads_kept h
  have hstore := hkept.reachable hr
  refine ⟨fun directive hd part hp => Policy.readDirective_part (hstore.2 disposition) hd hp, ?_, ?_⟩
  · intro scope listed next ha name directive hg
    obtain ⟨target, -, hl, rfl⟩ := (store.add_eq_ok_iff scope listed next).1 ha
    rw [Store.policy_modify]
    split
    · next ht =>
      subst ht
      rw [hstore.1] at hl ⊢
      exact Policy.get?_withAll_of_rereads (hstore.2 disposition) hl hg
    · exact ⟨[], by simpa using hg⟩
  · intro scope listed next hremove left hleft
    have hnext := hkept.edit store (.remove scope listed) next hstore hremove
    exact Policy.readDirective_part (hnext.2 disposition) hleft (List.Sublist.refl _)

/-- A keyword may be spelled like `data:` in another case. It is kept beside the mark, and either is
read as what it is when it stands alone. -/
theorem parts_are_read_as_themselves_beside_keyword :
    ∃ (vocabulary : Vocabulary) (store : Store), vocabulary.LeavesData ∧
      store.Reachable vocabulary ∧
      store.enforced.directives =
        [⟨"img-src", [.keyword "DATA:", .data, .host "cdn.example.com"]⟩] ∧
      vocabulary.readDirective "img-src" ["DATA:", "cdn.example.com"] =
        .ok ⟨"img-src", [.keyword "DATA:", .host "cdn.example.com"]⟩ := by
  let vocabulary : Vocabulary := ⟨[("img-src", ⟨.sources, ["none", "DATA:"]⟩)], by decide⟩
  have hleaves : vocabulary.LeavesData := by
    have hall : ∀ entry ∈ vocabulary.entries,
        entry.2.kind = .sources → "data:" ∉ entry.2.keywords := by decide
    intro name form hf
    exact hall (name, form) ((vocabulary.get?_eq_some_iff name form).1 hf)
  have hstart : Store.Founded vocabulary _ :=
    .ofValues ⟨[("img-src", ["DATA:", "Data:", "cdn.example.com"])], by decide⟩ ∅ _ rfl
  refine ⟨vocabulary, _, hleaves, hstart.reachable, by decide, ?_⟩
  exact (parts_are_read_as_themselves vocabulary hleaves _ hstart.reachable .enforce).1
    ⟨"img-src", [.keyword "DATA:", .data, .host "cdn.example.com"]⟩ (by decide)
    [.keyword "DATA:", .host "cdn.example.com"] (by decide)

end ContentSecurity
