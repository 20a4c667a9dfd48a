import ContentSecurity.Proofs.Deployment.Clearing
import ContentSecurity.Proofs.Directive.Verdict

/-!
Two parties that record calls for one request, say a layer around the service and the service itself.
Their calls may come in any order. As long as all their clears name one scope, nothing hangs on it but
the order in which sources and directives stand, and the refusal that is met first: what may stand
together in a directive and what a removal drops is told by which values are listed.
-/
namespace ContentSecurity

/-- Two lists put together to one, in which the items of each keep their order. -/
inductive Interleaves {α : Type} : List α → List α → List α → Prop where
  | nil : Interleaves [] [] []
  | first (item : α) {items others whole : List α} (h : Interleaves items others whole) :
      Interleaves (item :: items) others (item :: whole)
  | second (item : α) {items others whole : List α} (h : Interleaves items others whole) :
      Interleaves items (item :: others) (item :: whole)

theorem Interleaves.mem_iff {α : Type} {items others whole : List α}
    (h : Interleaves items others whole) (item : α) : item ∈ whole ↔ item ∈ items ++ others := by
  induction h with
  | nil => rfl
  | first head _ ih => simp [ih]
  | second head _ ih =>
    simp only [List.mem_cons, List.mem_append] at ih ⊢
    rw [ih, or_left_comm]

/-! ## Values as sets -/

def LookUps.SameSources (found other : LookUps) : Prop :=
  ∀ name, Option.Rel Directive.SameSources (found name) (other name)

/-- The same directives with the same sources, in whatever order both stand. -/
def Policy.SameSources (policy other : Policy) : Prop :=
  LookUps.SameSources policy.get? other.get?

theorem LookUps.SameSources.refl (found : LookUps) : found.SameSources found := by
  intro name
  cases found name with
  | none => exact .none
  | some directive => exact .some ⟨rfl, fun _ => Iff.rfl⟩

/-- Which of the values comes first makes no difference to what a removal drops. -/
theorem Directive.left?_congr (directive : Directive) {values others : List String}
    (h : ∀ value, value ∈ values ↔ value ∈ others) :
    directive.left? values = directive.left? others := by
  have hany (source : Source) : values.any source.isNamedBy = others.any source.isNamedBy := by
    rw [Bool.eq_iff_iff, List.any_eq_true, List.any_eq_true]
    simp only [h]
  have hwithout : directive.without values = directive.without others := by
    simp only [without, hany]
  rw [left?, left?, hwithout]

/-- Values that are the same as sets are read alike, or refused alike. -/
theorem Vocabulary.readDirective_rel (vocabulary : Vocabulary) (name : String)
    {values others : List String} (h : ∀ value, value ∈ values ↔ value ∈ others) :
    Option.Rel Directive.SameSources (vocabulary.readDirective name values).toOption
      (vocabulary.readDirective name others).toOption := by
  have hsame := vocabulary.readDirective_alike name h
  generalize vocabulary.readDirective name values = read at hsame ⊢
  generalize vocabulary.readDirective name others = read' at hsame ⊢
  cases hsame with
  | ok hsources => exact .some hsources
  | error => exact .none

namespace LookUps

variable (found : LookUps) {listed other : DirectiveValues} (h : listed.SameSets other)

include h

theorem remove_of_sameSets : found.remove listed = found.remove other := by
  funext name
  have hname := h name
  simp only [remove]
  generalize listed.get? name = values at hname ⊢
  generalize other.get? name = values' at hname ⊢
  cases hname with
  | none => rfl
  | some hsets => exact Option.bind_congr fun directive _ => directive.left?_congr hsets

theorem add_of_sameSets (vocabulary : Vocabulary) :
    Option.Rel SameSources (found.add vocabulary listed) (found.add vocabulary other) := by
  have hmerged {name : String} {values others : List String}
      (hsets : ∀ value, value ∈ values ↔ value ∈ others) :
      Option.Rel Directive.SameSources (found.merged vocabulary (name, values))
        (found.merged vocabulary (name, others)) :=
    vocabulary.readDirective_rel name fun value => by simp only [List.mem_append, hsets]
  have hread : (∀ entry ∈ listed.entries, (found.merged vocabulary entry).isSome = true) ↔
      ∀ entry ∈ other.entries, (found.merged vocabulary entry).isSome = true := by
    rw [OrderedMap.forall_entries_iff, OrderedMap.forall_entries_iff]
    refine forall_congr' fun name => ?_
    have hname := h name
    generalize listed.get? name = values at hname ⊢
    generalize other.get? name = values' at hname ⊢
    cases hname with
    | none => simp
    | some hsets => simp [isSome_eq_of_rel (hmerged hsets)]
  simp only [add, hread]
  split
  · refine .some fun name => ?_
    have hname := h name
    generalize listed.get? name = values at hname ⊢
    generalize other.get? name = values' at hname ⊢
    cases hname with
    | none => exact SameSources.refl found name
    | some hsets => exact hmerged hsets
  · exact .none

end LookUps

/-- Values that are listed in another order or number are removed and added alike. -/
theorem Vocabulary.keepingLookUps_respects_sameSets (vocabulary : Vocabulary) :
    vocabulary.keepingLookUps.Respects DirectiveValues.SameSets LookUps.SameSources where
  remove_comm := LookUps.remove_comm
  remove := fun found _ _ h => found.remove_of_sameSets h
  add := fun found _ _ h => found.add_of_sameSets h vocabulary
  refl := LookUps.SameSources.refl

/-! ## Recorded calls in another order -/

/-- The last of some items does not depend on their order if all are the same. -/
theorem getLast?_eq_of_mem {α : Type} {items others : List α}
    (h : ∀ item, item ∈ items ↔ item ∈ others) (hone : ∀ a ∈ items, ∀ b ∈ items, a = b) :
    items.getLast? = others.getLast? := by
  cases hl : items.getLast? with
  | none =>
    rw [List.getLast?_eq_none_iff] at hl
    subst hl
    rw [eq_comm, List.getLast?_eq_none_iff, List.eq_nil_iff_forall_not_mem]
    exact fun item hi => List.not_mem_nil ((h item).2 hi)
  | some last =>
    have hmem := List.mem_of_getLast? hl
    cases ho : others.getLast? with
    | none =>
      rw [List.getLast?_eq_none_iff] at ho
      subst ho
      exact absurd ((h last).1 hmem) List.not_mem_nil
    | some last' => rw [hone last hmem last' ((h last').2 (List.mem_of_getLast? ho))]

/-- Calls that are the same but for order and number are recorded alike, as long as all clears name one
scope. -/
theorem Amendments.alike_of_mem {calls others : List RecordedCall}
    (h : ∀ call, call ∈ calls ↔ call ∈ others)
    (hclear : ∀ scope scope', RecordedCall.clear scope ∈ calls → RecordedCall.clear scope' ∈ calls →
      scope = scope') :
    (calls.foldl record ∅).Alike DirectiveValues.SameSets (others.foldl record ∅) := by
  have hview {α : Type} (view : RecordedCall → Option α) (item : α) :
      item ∈ calls.filterMap view ↔ item ∈ others.filterMap view := by
    simp only [List.mem_filterMap, h]
  rw [foldl_record, foldl_record]
  refine ⟨congrArg (Option.map Scope.name) (getLast?_eq_of_mem (hview RecordedCall.cleared?) ?_),
    ScopedValues.sameSets_ofMentions (hview _), ScopedValues.sameSets_ofMentions (hview _)⟩
  -- The last clear of the one may be another call than that of the other, but it names the same scope.
  intro scope hs scope' hs'
  simp only [List.mem_filterMap, RecordedCall.cleared?_eq_some_iff, exists_eq_right] at hs hs'
  exact hclear scope scope' hs hs'

/-- It makes no difference in which order two parties record their calls, as long as all their clears
name one scope: the store for the request is made or refused, and its policies have the same directives
with the same sources. -/
theorem interleavings_leave_same_sources (deployment : Deployment)
    (first second calls others : List RecordedCall) (hcalls : Interleaves first second calls)
    (hothers : Interleaves first second others)
    (hclear : ∀ scope scope', RecordedCall.clear scope ∈ first ++ second →
      RecordedCall.clear scope' ∈ first ++ second → scope = scope') :
    ((∃ next, (deployment.compile (Amendments.recorded? calls)).result = .ok next) ↔
      ∃ next, (deployment.compile (Amendments.recorded? others)).result = .ok next) ∧
    ∀ next next', (deployment.compile (Amendments.recorded? calls)).result = .ok next →
      (deployment.compile (Amendments.recorded? others)).result = .ok next' →
        ∀ disposition, (next.policy disposition).SameSources (next'.policy disposition) := by
  have halike := Amendments.alike_of_mem
    (fun call => (hcalls.mem_iff call).trans (hothers.mem_iff call).symm)
    fun scope scope' hs hs' =>
      hclear scope scope' ((hcalls.mem_iff _).1 hs) ((hcalls.mem_iff _).1 hs')
  simp only [deployment.compile_recorded?]
  exact Store.apply_rel fun disposition =>
    (Vocabulary.keepingLookUps_respects_sameSets _).editAll_edits _ disposition _ halike

/-- A layer clears both policies and lists sources, and so does the service. Either may come first. -/
theorem interleavings_leave_same_sources_of_layer_and_service :
    let site : SitePolicies := ⟨⟨[("default-src", ["self"])], by decide⟩, ∅, .ownScope⟩
    let layer : List RecordedCall := [.clear .all, .add .enforce "img-src" ["self", "data:"]]
    let service : List RecordedCall := [.add .enforce "img-src" ["cdn.example.com", "self"],
      .add .enforce "font-src" ["*"], .clear .all]
    ∃ deployment next next', Deployment.start site .csp1 = .ok deployment ∧
      (deployment.compile (Amendments.recorded? (layer ++ service))).result = .ok next ∧
      (deployment.compile (Amendments.recorded? (service ++ layer))).result = .ok next' ∧
      next.enforced.render = "img-src 'self' data: cdn.example.com;font-src *;" ∧
      next'.enforced.render = "img-src cdn.example.com 'self' data:;font-src *;" ∧
      next.enforced.SameSources next'.enforced := by
  intro site layer service
  have hlayer : Interleaves layer service (layer ++ service) :=
    .first _ (.first _ (.second _ (.second _ (.second _ .nil))))
  have hservice : Interleaves layer service (service ++ layer) :=
    .second _ (.second _ (.second _ (.first _ (.first _ .nil))))
  have hclear : ∀ scope scope', RecordedCall.clear scope ∈ layer ++ service →
      RecordedCall.clear scope' ∈ layer ++ service → scope = scope' := by
    intro scope scope' hs hs'
    simp [layer, service] at hs hs'
    rw [hs, hs']
  obtain ⟨deployment, hstart⟩ : ∃ deployment, Deployment.start site .csp1 = .ok deployment :=
    ⟨_, rfl⟩
  obtain ⟨hboth, hsame⟩ := interleavings_leave_same_sources deployment layer service _ _ hlayer
    hservice hclear
  obtain ⟨next, hn, hr⟩ : ∃ next,
      (deployment.compile (Amendments.recorded? (layer ++ service))).result = .ok next ∧
        next.enforced.render = "img-src 'self' data: cdn.example.com;font-src *;" := by
    cases hstart
    exact ⟨_, rfl, by decide⟩
  obtain ⟨next', hn'⟩ := hboth.1 ⟨next, hn⟩
  refine ⟨deployment, next, next', hstart, hn, hn', hr, ?_, hsame next next' hn hn' .enforce⟩
  cases hstart
  cases hn'
  decide

end ContentSecurity
