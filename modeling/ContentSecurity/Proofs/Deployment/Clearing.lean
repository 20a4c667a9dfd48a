import ContentSecurity.Deployment
import ContentSecurity.Proofs.Recording
import ContentSecurity.Proofs.Store.Sameness

/-!
What is left of a policy that is cleared for a request. The last clear that is recorded comes before
everything else, so a policy that it covers has those sources only that recorded additions list. Earlier
clears are lost when a later one is recorded, and what they cleared stays as the base has it.
-/
namespace ContentSecurity

/-- The store for a request is the base with everything applied that has been recorded. -/
theorem Deployment.compile_recorded? (deployment : Deployment) (calls : List RecordedCall) :
    (deployment.compile (Amendments.recorded? calls)).result =
      deployment.base.apply (calls.foldl Amendments.record ∅) := by
  rw [Amendments.recorded?_eq]
  split
  · next hc =>
    subst hc
    rfl
  · rfl

/-- Of a policy that is cleared first, what is added under its scope is left and nothing else. -/
theorem Keeping.editAll_edits_of_cleared {σ : Type} (keeping : Keeping σ)
    (hblank : ∀ listed, keeping.remove keeping.blank listed = keeping.blank)
    (reach : RemovalReach) (disposition : Disposition) {amendments : Amendments} {scope : Scope}
    (hc : amendments.cleared = some scope.name) (hcovers : scope.covers disposition = true)
    {kept left : σ} (h : keeping.editAll reach disposition kept amendments.edits = some left) :
    match amendments.added.get? disposition.scope.name with
    | none => left = keeping.blank
    | some listed => keeping.add keeping.blank listed = some left := by
  have hclear : keeping.editAll reach disposition kept
      [Edit.clear <$> Scope.parse "clear" scope.name] = some keeping.blank := by
    rw [Scope.parse_name]
    exact congrArg some (if_pos hcovers)
  rw [editAll_edits, hc, Option.toList_some, List.map_singleton, hclear, Option.bind_some] at h
  obtain ⟨mid, hremoved, hadded⟩ := Option.bind_eq_some_iff.1 h
  obtain rfl := keeping.eq_of_foldlM_removeUnder reach disposition hblank hremoved
  rw [keeping.foldlM_addUnder disposition amendments.added.nodup,
    Option.ite_none_right_eq_some] at hadded
  rw [OrderedMap.get?]
  generalize lookupName disposition.scope.name amendments.added.entries = found at hadded ⊢
  cases found with
  | none => exact (Option.some.inj hadded.2).symm
  | some listed => exact hadded.2

namespace DirectiveForm

/-- A value that has been read beside others is read as the same source when it stands alone. -/
theorem readDirective_singleton {vocabulary : Vocabulary} {form : DirectiveForm} {name value : String}
    {source : Source} (hf : vocabulary.get? name = some form)
    (hc : form.classify value = some source) :
    vocabulary.readDirective name [value] = .ok ⟨name, [source]⟩ := by
  rw [vocabulary.readDirective_eq_ok_iff]
  refine ⟨form, hf, ⟨?_, ?_⟩, ?_⟩
  · simp [hc]
  · simp
  · have hvalue : [value].eraseDups = [value] := eraseDups_of_nodup (List.nodup_singleton value)
    have hsource : [source].eraseDups = [source] := eraseDups_of_nodup (List.nodup_singleton source)
    simp [directive, hvalue, hc, hsource]

end DirectiveForm

theorem LookUps.remove_blank (listed : DirectiveValues) :
    LookUps.remove (fun _ => none) listed = fun _ => none := by
  funext name
  rw [remove]
  cases listed.get? name <;> rfl

/-- Each source that is found once values have been added to nothing is one of the values, as it is
read alone. -/
theorem LookUps.exists_value_of_add_blank {vocabulary : Vocabulary} {listed : DirectiveValues}
    {left : LookUps} (h : LookUps.add vocabulary (fun _ => none) listed = some left) {name : String}
    {directive : Directive} (hg : left name = some directive) {source : Source}
    (hs : source ∈ directive.sources) :
    directive.name = name ∧ ∃ values, listed.get? name = some values ∧ ∃ value ∈ values,
      vocabulary.readDirective name [value] = .ok ⟨name, [source]⟩ := by
  rw [LookUps.add, Option.ite_none_right_eq_some, Option.some.injEq] at h
  obtain ⟨-, rfl⟩ := h
  cases hl : listed.get? name with
  | none => simp [hl] at hg
  | some values =>
    simp only [hl] at hg
    have hread := (Store.merged_eq_some_iff vocabulary ∅ (name, values) directive).1 hg
    obtain ⟨form, hf, -, rfl⟩ := (vocabulary.readDirective_eq_ok_iff _ _ _).1 hread
    obtain ⟨value, hv, hc⟩ := (form.mem_directive _ _ source).1 hs
    exact ⟨rfl, values, rfl, value, hv, DirectiveForm.readDirective_singleton hf hc⟩

theorem RecordedCall.filterMap_cleared?_append_clear (before : List RecordedCall) (scope : Scope)
    {after : List RecordedCall} (hlast : ∀ other, clear other ∉ after) :
    ((before ++ .clear scope :: after).filterMap cleared?).getLast? = some scope := by
  have hnone : after.filterMap cleared? = [] := by
    refine List.filterMap_eq_nil_iff.2 fun call hcall => ?_
    cases call with
    | clear other => exact absurd hcall (hlast other)
    | add => rfl
    | remove => rfl
  simp [cleared?, hnone]

/-- Whatever looks at no clear does not see that clears are missing. -/
theorem RecordedCall.filterMap_filter_cleared? {α : Type} (view : RecordedCall → Option α)
    (hview : ∀ scope, view (.clear scope) = none) (calls : List RecordedCall) :
    (calls.filter (·.cleared?.isNone)).filterMap view = calls.filterMap view := by
  rw [List.filterMap_filter]
  refine List.filterMap_congr fun call _ => ?_
  cases call with
  | clear scope => exact (hview scope).symm
  | add => rfl
  | remove => rfl

/-- What a policy has that the last recorded clear covers, recorded additions have put there: each
source is one of the values that they list. Clears that were recorded before it might as well not have
been. -/
theorem last_clear_leaves_what_is_added (deployment : Deployment) (before after : List RecordedCall)
    (scope : Scope) (hlast : ∀ other, RecordedCall.clear other ∉ after) (next : Store)
    (h : (deployment.compile
      (Amendments.recorded? (before ++ .clear scope :: after))).result = .ok next) :
    (∀ disposition, scope.covers disposition = true →
      ∀ directive ∈ (next.policy disposition).directives, ∀ source ∈ directive.sources,
        ∃ values, RecordedCall.add disposition.scope directive.name values ∈
            before ++ .clear scope :: after ∧
          ∃ value ∈ values, deployment.base.vocabulary.readDirective directive.name [value] =
            .ok ⟨directive.name, [source]⟩) ∧
    Amendments.recorded? (before ++ .clear scope :: after) =
      Amendments.recorded? (before.filter (·.cleared?.isNone) ++ .clear scope :: after) := by
  have hcleared := RecordedCall.filterMap_cleared?_append_clear before scope hlast
  constructor
  · intro disposition hcovers directive hd source hs
    rw [deployment.compile_recorded?, Amendments.foldl_record, hcleared] at h
    -- What becomes of the cleared policy is told without the other one, as look-ups by name.
    have hfound := congrArg (Option.map Policy.get?)
      (((deployment.base.editAll_eq_ok_iff _ next).1 h).2.2 disposition)
    rw [(Vocabulary.seen_lookUps _).editAll, Option.map_some] at hfound
    have hleft := Keeping.editAll_edits_of_cleared _ LookUps.remove_blank _ disposition rfl hcovers
      hfound
    obtain ⟨name, hg⟩ := ((next.policy disposition).mem_directives_iff directive).1 hd
    split at hleft
    · simp [hleft, Vocabulary.keepingLookUps] at hg
    · next listed hlisted =>
      obtain ⟨rfl, values, hvalues, value, hv, hread⟩ :=
        LookUps.exists_value_of_add_blank hleft hg hs
      obtain ⟨mention, hm, hscope, hdirective, hmv⟩ :=
        ScopedValues.mem_ofMentions hlisted hvalues hv
      obtain ⟨call, hcall, hadded⟩ := List.mem_filterMap.1 hm
      obtain rfl := (call.added?_eq_some_iff mention).1 hadded
      rw [Scope.eq_of_name_eq hscope, hdirective] at hcall
      exact ⟨mention.values, hcall, value, hmv, hread⟩
  · -- Removals and additions are gathered as they were, since no clear is among them.
    have hothers := RecordedCall.filterMap_cleared?_append_clear (before.filter (·.cleared?.isNone))
      scope hlast
    have hremoved := RecordedCall.filterMap_filter_cleared? RecordedCall.removed? (fun _ => rfl) before
    have hadded := RecordedCall.filterMap_filter_cleared? RecordedCall.added? (fun _ => rfl) before
    rw [Amendments.recorded?_eq, Amendments.recorded?_eq, if_neg (by simp), if_neg (by simp),
      Amendments.foldl_record, Amendments.foldl_record, hcleared, hothers]
    simp only [List.filterMap_append, hremoved, hadded]

/-- What is added before the clear stays as well, since clears come first when amendments are applied. -/
theorem last_clear_leaves_what_is_added_before_it :
    let site : SitePolicies :=
      ⟨⟨[("default-src", ["self"]), ("img-src", ["*"])], by decide⟩, ∅, .ownScope⟩
    let calls : List RecordedCall := [.add .enforce "img-src" ["data:"], .clear .enforce,
      .add .enforce "img-src" ["cdn.example.com"]]
    ∃ deployment next, Deployment.start site .csp1 = .ok deployment ∧
      (deployment.compile (Amendments.recorded? calls)).result = .ok next ∧
      next.enforced.render = "img-src data: cdn.example.com;" ∧
      ∀ directive ∈ next.enforced.directives, ∀ source ∈ directive.sources,
        ∃ values, .add .enforce directive.name values ∈ calls ∧
          ∃ value ∈ values, Vocabulary.csp1.readDirective directive.name [value] =
            .ok ⟨directive.name, [source]⟩ := by
  intro site calls
  obtain ⟨deployment, hstart, hv⟩ : ∃ deployment, Deployment.start site .csp1 = .ok deployment ∧
      deployment.base.vocabulary = .csp1 := ⟨_, rfl, rfl⟩
  obtain ⟨next, hn, hrender⟩ : ∃ next,
      (deployment.compile (Amendments.recorded? calls)).result = .ok next ∧
        next.enforced.render = "img-src data: cdn.example.com;" := by
    cases hstart
    exact ⟨_, rfl, by decide⟩
  refine ⟨deployment, next, hstart, hn, hrender, ?_⟩
  rw [← hv]
  exact (last_clear_leaves_what_is_added deployment [.add .enforce "img-src" ["data:"]]
    [.add .enforce "img-src" ["cdn.example.com"]] .enforce (by simp) next hn).1 .enforce rfl

/-- The enforced policy has been cleared, nothing has been added, and it still has a directive of the
base: the clear of the other policy has taken the place of the first. -/
theorem earlier_clear_leaves_directive :
    ∃ deployment next,
      Deployment.start ⟨⟨[("default-src", ["self"])], by decide⟩, ∅, .ownScope⟩ .csp1 =
        .ok deployment ∧
      (deployment.compile (Amendments.recorded? [.clear .enforce, .clear .reportOnly])).result =
        .ok next ∧
      Scope.enforce.covers .enforce = true ∧
      next.enforced.directives = [⟨"default-src", [.keyword "self"]⟩] ∧
      ∀ scope directive values,
        RecordedCall.add scope directive values ∉ [.clear .enforce, .clear .reportOnly] :=
  ⟨_, _, rfl, rfl, rfl, by decide, by simp⟩

end ContentSecurity
