import ContentSecurity.Proofs.Store.SideBySide

/-!
Stores that are the same but for the order of directives, and amendments that are the same but for
the order of scopes and directives. What an edit leaves to be found under each name hangs on what it
finds under that name and nothing else. Removals may change places, and additions under different
scopes do not meet; so the order makes no difference, neither to what is left nor to whether
amendments are refused.
-/
namespace ContentSecurity

/-- What is found in a policy under each name. -/
abbrev LookUps := String → Option Directive

namespace LookUps

/-- The directive that an entry of listed values makes beside what was found. -/
def merged (vocabulary : Vocabulary) (found : LookUps) (entry : String × List String) :
    Option Directive :=
  (vocabulary.readDirective entry.1
    (((found entry.1).map Directive.written).getD [] ++ entry.2)).toOption

/-- What is found after an addition, if every directive of it can be read. -/
def add (vocabulary : Vocabulary) (found : LookUps) (listed : DirectiveValues) : Option LookUps :=
  if ∀ entry ∈ listed.entries, (found.merged vocabulary entry).isSome = true then
    some fun name =>
      match listed.get? name with
      | none => found name
      | some values => found.merged vocabulary (name, values)
  else none

/-- What is found after a removal. -/
def remove (found : LookUps) (listed : DirectiveValues) : LookUps := fun name =>
  match listed.get? name with
  | none => found name
  | some values => (found name).bind (·.left? values)

theorem add_congr (vocabulary : Vocabulary) (found : LookUps) {listed other : DirectiveValues}
    (h : ∀ name, listed.get? name = other.get? name) :
    found.add vocabulary listed = found.add vocabulary other := by
  have hread : (∀ entry ∈ listed.entries, (found.merged vocabulary entry).isSome = true) ↔
      ∀ entry ∈ other.entries, (found.merged vocabulary entry).isSome = true := by
    rw [OrderedMap.forall_entries_iff, OrderedMap.forall_entries_iff]
    simp only [h]
  simp only [add, hread, h]

theorem remove_congr (found : LookUps) {listed other : DirectiveValues}
    (h : ∀ name, listed.get? name = other.get? name) :
    found.remove listed = found.remove other := by
  funext name
  simp only [remove, h]

end LookUps

/-- Values dropped one after the other are dropped together. -/
theorem Directive.left?_append (directive : Directive) (values more : List String) :
    (directive.left? values).bind (·.left? more) = directive.left? (values ++ more) := by
  have hsteps : (directive.without values).without more = directive.without (values ++ more) := by
    simp only [without, List.filter_filter, List.any_append, Bool.not_or, Bool.and_comm]
  by_cases he : (directive.without values).sources = []
  · have hall : (directive.without (values ++ more)).sources = [] := by
      rw [← hsteps]
      simp only [without] at he ⊢
      rw [he, List.filter_nil]
    simp [left?, he, hall]
  · simp [left?, he, ← hsteps]

theorem Directive.left?_comm (directive : Directive) (values more : List String) :
    (directive.left? values).bind (·.left? more) =
      (directive.left? more).bind (·.left? values) := by
  rw [left?_append, left?_append]
  simp only [left?, without, List.any_append, Bool.or_comm]

/-- It makes no difference which of two removals comes first. -/
theorem LookUps.remove_comm (found : LookUps) (listed other : DirectiveValues) :
    (found.remove listed).remove other = (found.remove other).remove listed := by
  funext name
  simp only [remove]
  cases listed.get? name with
  | none => rfl
  | some values =>
    cases other.get? name with
    | none => rfl
    | some more =>
      cases found name with
      | none => rfl
      | some directive => exact directive.left?_comm values more

/-- Policies kept by what is found in them. -/
def Vocabulary.keepingLookUps (vocabulary : Vocabulary) : Keeping LookUps where
  blank := fun _ => none
  add := LookUps.add vocabulary
  remove := LookUps.remove

/-- Edits change what is found in a policy as they change the policy. -/
theorem Vocabulary.seen_lookUps (vocabulary : Vocabulary) :
    vocabulary.keeping.Seen vocabulary.keepingLookUps Policy.get? where
  blank := rfl
  add := by
    intro policy listed
    have hadd := Store.keeping_add_eq_some_iff vocabulary policy
    by_cases hr : Store.Addable vocabulary policy listed
    · have hfound : (Store.withAll vocabulary policy listed).get? = fun name =>
          match listed.get? name with
          | none => policy.get? name
          | some values => LookUps.merged vocabulary policy.get? (name, values) := by
        funext name
        exact Store.get?_withAll vocabulary policy listed hr name
      rw [(hadd _ listed).2 ⟨hr, rfl⟩, Option.map_some, hfound]
      exact (if_pos hr).symm
    · have hnone : vocabulary.keeping.add policy listed = none :=
        Option.eq_none_iff_forall_ne_some.2 fun next hn => hr ((hadd next listed).1 hn).1
      rw [hnone]
      exact (if_neg hr).symm
  remove := by
    intro policy listed
    funext name
    exact Store.get?_withoutAll policy listed name

/-- Two stores do alike with amendments when what is found in each policy does. -/
theorem Store.apply_rel {result : LookUps → LookUps → Prop} {store other : Store}
    {amendments others : Amendments}
    (h : ∀ disposition, Option.Rel result
      (store.vocabulary.keepingLookUps.editAll store.reach disposition
        (store.policy disposition).get? amendments.edits)
      (other.vocabulary.keepingLookUps.editAll other.reach disposition
        (other.policy disposition).get? others.edits)) :
    ((∃ next, store.apply amendments = .ok next) ↔ ∃ next, other.apply others = .ok next) ∧
      ∀ next next', store.apply amendments = .ok next → other.apply others = .ok next' →
        ∀ disposition, result (next.policy disposition).get? (next'.policy disposition).get? := by
  simp only [← (Vocabulary.seen_lookUps _).editAll] at h
  constructor
  · simp only [Store.apply, exists_editAll_iff]
    refine forall_congr' fun disposition => ?_
    have hsome := isSome_eq_of_rel (h disposition)
    rw [Option.isSome_map, Option.isSome_map] at hsome
    rw [hsome]
  · intro next next' hleft hright disposition
    have hpolicies := h disposition
    rw [((store.editAll_eq_ok_iff _ next).1 hleft).2.2 disposition,
      ((other.editAll_eq_ok_iff _ next').1 hright).2.2 disposition] at hpolicies
    cases hpolicies with
    | some hresult => exact hresult

theorem Amendments.sameScopes_iff (listed other : ScopedValues) :
    sameScopes listed other = true ↔ ∀ scope, Option.Rel
      (fun values others : DirectiveValues => ∀ name, values.get? name = others.get? name)
      (listed.get? scope) (other.get? scope) := by
  rw [sameScopes, OrderedMap.sameEntries_iff]
  simp only [OrderedMap.sameEntries_beq_iff]

theorem Amendments.alike_of_sameEntries {amendments others : Amendments}
    (h : amendments.sameEntries others = true) :
    amendments.Alike (fun listed other => ∀ name, listed.get? name = other.get? name) others := by
  simp only [sameEntries, Bool.and_eq_true, beq_iff_eq, sameScopes_iff] at h
  exact ⟨h.1.1, h.1.2, h.2⟩

theorem Vocabulary.keepingLookUps_respects (vocabulary : Vocabulary) :
    vocabulary.keepingLookUps.Respects
      (fun listed other => ∀ name, listed.get? name = other.get? name) Eq where
  remove_comm := LookUps.remove_comm
  remove := fun found _ _ h => found.remove_congr h
  add := by
    intro found listed other h
    change Option.Rel Eq (found.add vocabulary listed) (found.add vocabulary other)
    rw [found.add_congr vocabulary h]
    cases found.add vocabulary other with
    | none => exact .none
    | some next => exact .some rfl
  refl := fun _ => rfl

theorem Policy.sameDirectives_iff (policy other : Policy) :
    policy.sameDirectives other = true ↔ policy.get? = other.get? := by
  rw [sameDirectives, OrderedMap.sameEntries_beq_iff, funext_iff]
  rfl

/-- Stores with the same directives, whatever their order, do the same with amendments that have the
same entries: both carry them out or both refuse, and the same directives are left. -/
theorem same_amendments_leave_same_directives (store other : Store)
    (hv : store.vocabulary = other.vocabulary) (hr : store.reach = other.reach)
    (hp : ∀ disposition,
      (store.policy disposition).sameDirectives (other.policy disposition) = true)
    (amendments others : Amendments) (hm : amendments.sameEntries others = true) :
    ((∃ next, store.apply amendments = .ok next) ↔ ∃ next, other.apply others = .ok next) ∧
      ∀ next next', store.apply amendments = .ok next → other.apply others = .ok next' →
        ∀ disposition,
          (next.policy disposition).sameDirectives (next'.policy disposition) = true := by
  simp only [Policy.sameDirectives_iff] at hp ⊢
  refine Store.apply_rel fun disposition => ?_
  rw [hv, hr, hp]
  exact (Vocabulary.keepingLookUps_respects _).editAll_edits _ disposition _
    (Amendments.alike_of_sameEntries hm)

/-- Removals reach both policies here. Whichever directive and scope comes first, the same is left in
the enforced policy, in another order. -/
theorem same_amendments_leave_same_directives_in_two_orders :
    let image : String × Directive := ("img-src", ⟨"img-src", [.data, .keyword "self"]⟩)
    let script : String × Directive := ("script-src", ⟨"script-src", [.keyword "self", .host "a.b"]⟩)
    let store : Store := ⟨⟨⟨[image, script], by decide⟩⟩, ∅, .csp1, .bothPolicies⟩
    let other : Store := ⟨⟨⟨[script, image], by decide⟩⟩, ∅, .csp1, .bothPolicies⟩
    let amendments : Amendments := ⟨none,
      ⟨[("enforce", ⟨[("img-src", ["self"])], by decide⟩),
        ("report-only", ⟨[("script-src", ["a.b"])], by decide⟩)], by decide⟩,
      ⟨[("enforce", ⟨[("font-src", ["*"]), ("media-src", ["self"])], by decide⟩)], by decide⟩⟩
    let others : Amendments := ⟨none,
      ⟨[("report-only", ⟨[("script-src", ["a.b"])], by decide⟩),
        ("enforce", ⟨[("img-src", ["self"])], by decide⟩)], by decide⟩,
      ⟨[("enforce", ⟨[("media-src", ["self"]), ("font-src", ["*"])], by decide⟩)], by decide⟩⟩
    ∃ next next', store.apply amendments = .ok next ∧ other.apply others = .ok next' ∧
      next.enforced.render = "img-src data:;script-src 'self';font-src *;media-src 'self';" ∧
      next'.enforced.render = "script-src 'self';img-src data:;media-src 'self';font-src *;" ∧
      next.enforced.sameDirectives next'.enforced = true := by
  intro image script store other amendments others
  have hp : ∀ disposition,
      (store.policy disposition).sameDirectives (other.policy disposition) = true := by
    rintro (_ | _) <;> decide
  obtain ⟨hboth, hsame⟩ := same_amendments_leave_same_directives store other rfl rfl hp
    amendments others (by decide)
  obtain ⟨next', hn'⟩ := hboth.1 ⟨_, rfl⟩
  refine ⟨_, next', rfl, hn', by decide, ?_, hsame _ _ rfl hn' .enforce⟩
  cases hn'
  decide

end ContentSecurity
