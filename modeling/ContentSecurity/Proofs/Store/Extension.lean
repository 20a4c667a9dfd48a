import ContentSecurity.Proofs.Store.Merging
import ContentSecurity.Proofs.Store.Rereading

/-!
An addition only extends. It writes out what is there, reads it anew with what is listed and puts the
result in the place of the old; yet every directive and every source stays where it was, and what is
new comes behind, in the order in which it is listed.
-/
namespace ContentSecurity

/-- What becomes of a policy to which values are added. -/
structure Policy.Extends (vocabulary : Vocabulary) (listed : DirectiveValues) (policy next : Policy) :
    Prop where
  /-- Directives that are new stand at the end, as they are listed. -/
  names : next.directives.map Directive.name = policy.directives.map Directive.name ++
    listed.keys.filter (· ∉ policy.directives.map Directive.name)
  /-- In a directive that is listed the sources that are new stand at the end, as they are listed. -/
  extended : ∀ name values, listed.get? name = some values →
    ∃ form more, vocabulary.get? name = some form ∧
      next.get? name = some ⟨name, policy.sourcesOf name ++ more⟩ ∧
      form.Adds (policy.sourcesOf name) values more
  left : ∀ name, listed.get? name = none → next.get? name = policy.get? name

theorem Policy.extends_withAll {vocabulary : Vocabulary} (h : vocabulary.LeavesData)
    {policy : Policy} (hp : policy.Each vocabulary fun form directive => directive.Rereads form)
    {listed : DirectiveValues} (hl : Store.Addable vocabulary policy listed) :
    policy.Extends vocabulary listed (Store.withAll vocabulary policy listed) where
  names := by
    have hnext := (rereads_kept h).withAll listed hp
    rw [hnext.map_name_directives, hp.map_name_directives, Store.keys_withAll hl]
    exact eraseDups_append_of_nodup policy.entries.nodup listed.nodup
  extended := fun name values hv => exists_adds_of_withAll hp hl hv
  left := fun name hn => by rw [Store.get?_withAll vocabulary policy listed hl, hn]

/-- An addition extends the policy that it is for and leaves everything else as it is. -/
theorem additions_extend (vocabulary : Vocabulary) (h : vocabulary.LeavesData) (store : Store)
    (hr : store.Reachable vocabulary) (scope : Scope) (listed : DirectiveValues) (next : Store)
    (ha : store.add scope listed = .ok next) :
    ∃ target, scope.disposition? = some target ∧
      (store.policy target).Extends vocabulary listed (next.policy target) ∧
      (∀ other, other ≠ target → next.policy other = store.policy other) ∧
      next.reach = store.reach ∧ next.vocabulary = store.vocabulary := by
  obtain ⟨hv, hp⟩ := (Policy.rereads_kept h).reachable hr
  obtain ⟨target, ht, hl, rfl⟩ := (store.add_eq_ok_iff scope listed next).1 ha
  rw [hv] at hl
  refine ⟨target, ht, ?_, fun other ho => ?_, store.reach_modify _ _, store.vocabulary_modify _ _⟩
  · rw [Store.policy_modify_self, hv]
    exact Policy.extends_withAll h (hp target) hl
  · rw [Store.policy_modify, if_neg ho]

/-- Of what is listed for a directive that is there, one source is new under two spellings, one is
there already and one is new. -/
theorem additions_extend_with_data :
    ∃ store next : Store, Vocabulary.csp1.LeavesData ∧ store.Reachable .csp1 ∧
      store.add .enforce ⟨[("font-src", ["*"]),
        ("img-src", ["DATA:", "self", "data:", "cdn.example.com"])], by decide⟩ = .ok next ∧
      store.enforced.Extends .csp1 ⟨[("font-src", ["*"]),
        ("img-src", ["DATA:", "self", "data:", "cdn.example.com"])], by decide⟩ next.enforced ∧
      next.enforced.render = "img-src 'self' data: cdn.example.com;font-src *;" := by
  have h : Vocabulary.csp1.LeavesData := Vocabulary.csp1_dataFree.leavesData
  have hstart : Store.Founded .csp1 _ := .ofValues ⟨[("img-src", ["self"])], by decide⟩ ∅ _ rfl
  obtain ⟨target, ht, hextends, -⟩ := additions_extend .csp1 h _ hstart.reachable .enforce
    ⟨[("font-src", ["*"]), ("img-src", ["DATA:", "self", "data:", "cdn.example.com"])], by decide⟩
    _ rfl
  cases ht
  exact ⟨_, _, h, hstart.reachable, rfl, hextends, by decide⟩

end ContentSecurity
