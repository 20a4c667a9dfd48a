import ContentSecurity.Proofs.Store.SideBySide

/-!
Two policies that do not meet. As long as removals stay in their own scope, what becomes of a policy
and how its edits are answered is settled by the edits whose scope covers it. All other edits might as
well not have been asked for, and the other policy might as well be any other. So edits of different
policies may change places.
-/
namespace ContentSecurity

/-- The other one of the two policies. -/
def Disposition.opposite : Disposition → Disposition
  | enforce => report
  | report => enforce

namespace Edit

def scope : Edit → Scope
  | clear scope => scope
  | add scope _ => scope
  | remove scope _ => scope

/-- The edit names a scope that covers the policy. -/
def concerns (edit : Edit) (disposition : Disposition) : Bool :=
  edit.scope.covers disposition

end Edit

theorem Scope.covers_of_disposition? {scope : Scope} {target : Disposition}
    (h : scope.disposition? = some target) (disposition : Disposition) :
    scope.covers disposition = true ↔ disposition = target := by
  cases scope <;> cases h <;> cases disposition <;> decide

namespace Store

/-- How an edit is answered: it is carried out, or refused for a reason. -/
def answer (store : Store) (edit : Edit) : Except Refusal Unit :=
  (store.edit edit).map fun _ => ()

/-- The store after edits one after the other; those that are refused leave it as it was. -/
def runEdits (store : Store) (edits : List Edit) : Store :=
  store.run (edits.map Call.edit)

/-- Edits one after the other, each with its answer. -/
def answers (store : Store) : List Edit → List (Edit × Except Refusal Unit)
  | [] => []
  | edit :: rest => (edit, store.answer edit) :: (store.after (.edit edit)).answers rest

theorem runEdits_cons (store : Store) (edit : Edit) (rest : List Edit) :
    store.runEdits (edit :: rest) = (store.after (.edit edit)).runEdits rest :=
  rfl

theorem runEdits_append (store : Store) (edits more : List Edit) :
    store.runEdits (edits ++ more) = (store.runEdits edits).runEdits more := by
  rw [runEdits, List.map_append, run_append]
  rfl

theorem answers_append (store : Store) (edits more : List Edit) :
    store.answers (edits ++ more) = store.answers edits ++ (store.runEdits edits).answers more := by
  induction edits generalizing store with
  | nil => rfl
  | cons edit rest ih =>
    rw [List.cons_append, answers, answers, ih, runEdits_cons, List.cons_append]

/-- Two stores that agree on one policy and read values alike, while removals stay in their own
scope in both. -/
structure AgreesOn (disposition : Disposition) (store other : Store) : Prop where
  vocabulary : store.vocabulary = other.vocabulary
  reach : store.reach = .ownScope
  reach' : other.reach = .ownScope
  policy : store.policy disposition = other.policy disposition

/-- With the policies of both dispositions, all of a store is agreed on. -/
theorem AgreesOn.eq {store other : Store} (h : ∀ disposition, AgreesOn disposition store other) :
    store = other :=
  (eq_iff_policies store other).2 ⟨(h .enforce).vocabulary,
    (h .enforce).reach.trans (h .enforce).reach'.symm, fun disposition => (h disposition).policy⟩

/-! ## One edit -/

theorem kept_of_edit {store next : Store} {edit : Edit} (h : store.edit edit = .ok next) :
    store.vocabulary = next.vocabulary ∧ store.reach = next.reach := by
  obtain ⟨hv, hr, -⟩ := (store.edit_eq_ok_iff_keeping edit next).1 h
  exact ⟨hv, hr⟩

theorem answer_eq_map_policy (store : Store) (edit : Edit) (disposition : Disposition) :
    store.answer edit = ((store.edit edit).map (·.policy disposition)).map fun _ => () := by
  rw [answer]
  cases store.edit edit <;> rfl

/-- An edit in another scope leaves the policy as it was. -/
theorem policy_of_edit {store next : Store} {edit : Edit} {disposition : Disposition}
    (hr : store.reach = .ownScope) (hc : edit.concerns disposition = false)
    (h : store.edit edit = .ok next) : next.policy disposition = store.policy disposition := by
  rw [Edit.concerns] at hc
  cases (store.edit_eq_ok_iff edit next).1 h with
  | clear scope =>
    rw [policy_modifyCovered, show scope.covers disposition = false from hc]
    rfl
  | add scope listed target ht =>
    have hne : disposition ≠ target := fun he => by
      rw [← Scope.covers_of_disposition? ht] at he
      exact Bool.false_ne_true (hc.symm.trans he)
    rw [policy_modify, if_neg hne]
  | remove scope listed =>
    rw [policy_modifyCovered, removalScope, hr, show scope.covers disposition = false from hc]
    rfl

namespace AgreesOn

variable {disposition : Disposition} {store other : Store}

theorem symm (h : AgreesOn disposition store other) : AgreesOn disposition other store :=
  ⟨h.vocabulary.symm, h.reach', h.reach, h.policy.symm⟩

theorem trans {third : Store} (h : AgreesOn disposition store other)
    (h' : AgreesOn disposition other third) : AgreesOn disposition store third :=
  ⟨h.vocabulary.trans h'.vocabulary, h.reach, h'.reach', h.policy.trans h'.policy⟩

section Step

variable (h : AgreesOn disposition store other) {edit : Edit}

include h

/-- An edit of the policy makes the same of it in both stores, or is refused for the same reason. -/
theorem edit_eq (hc : edit.concerns disposition = true) :
    (store.edit edit).map (·.policy disposition) = (other.edit edit).map (·.policy disposition) := by
  rw [Edit.concerns] at hc
  cases edit with
  | clear scope =>
    have hcover : scope.covers disposition = true := hc
    simp only [Store.edit, clear, Except.map, policy_modifyCovered, hcover, if_true]
  | add scope listed =>
    cases ht : scope.disposition? with
    | none => simp only [Store.edit, add, ht, Except.map]
    | some target =>
      obtain rfl : disposition = target := (Scope.covers_of_disposition? ht disposition).1 hc
      simp only [Store.edit, add, ht, h.vocabulary, h.policy, bind, Except.bind]
      cases staged other.vocabulary (other.policy disposition) listed with
      | error refusal => rfl
      | ok directives =>
        simp only [pure, Except.pure, Except.map, policy_modify, if_true, h.policy]
  | remove scope listed =>
    cases ht : scope.disposition? with
    | none => simp only [Store.edit, remove, ht, Except.map]
    | some source =>
      simp only [Store.edit, remove, ht, Except.map, policy_modifyCovered, removalScope, h.reach,
        h.reach', h.policy]

theorem answer (hc : edit.concerns disposition = true) :
    store.answer edit = other.answer edit := by
  rw [answer_eq_map_policy store edit disposition, answer_eq_map_policy other edit disposition,
    h.edit_eq hc]

theorem after (hc : edit.concerns disposition = true) :
    AgreesOn disposition (store.after (.edit edit)) (other.after (.edit edit)) := by
  have hedit := h.edit_eq hc
  simp only [Store.after, Store.call]
  cases hs : store.edit edit with
  | error refusal =>
    cases ho : other.edit edit with
    | error refusal' => exact h
    | ok next' =>
      rw [hs, ho] at hedit
      cases hedit
  | ok next =>
    cases ho : other.edit edit with
    | error refusal' =>
      rw [hs, ho] at hedit
      cases hedit
    | ok next' =>
      rw [hs, ho] at hedit
      obtain ⟨hv, hr⟩ := kept_of_edit hs
      obtain ⟨hv', hr'⟩ := kept_of_edit ho
      exact ⟨hv.symm.trans (h.vocabulary.trans hv'), hr ▸ h.reach, hr' ▸ h.reach',
        Except.ok.inj hedit⟩

/-- An edit in another scope may be carried out in one store alone. -/
theorem after_left (hc : edit.concerns disposition = false) :
    AgreesOn disposition (store.after (.edit edit)) other := by
  simp only [Store.after, Store.call]
  cases hs : store.edit edit with
  | error refusal => exact h
  | ok next =>
    obtain ⟨hv, hr⟩ := kept_of_edit hs
    exact ⟨hv.symm.trans h.vocabulary, hr ▸ h.reach, h.reach',
      (policy_of_edit h.reach hc hs).trans h.policy⟩

end Step

/-! ## Edits one after the other -/

/-- The edits that concern a policy, carried out alone, leave the same of it and get the same
answers. -/
theorem runEdits (h : AgreesOn disposition store other) (edits : List Edit) :
    AgreesOn disposition (store.runEdits edits)
        (other.runEdits (edits.filter (·.concerns disposition))) ∧
      (store.answers edits).filter (·.1.concerns disposition) =
        other.answers (edits.filter (·.concerns disposition)) := by
  induction edits generalizing store other with
  | nil => exact ⟨h, rfl⟩
  | cons edit rest ih =>
    cases hc : edit.concerns disposition with
    | false =>
      simp only [answers, List.filter_cons, hc, Bool.false_eq_true, if_false]
      exact ih (h.after_left hc)
    | true =>
      obtain ⟨hrun, hanswers⟩ := ih (h.after hc)
      simp only [answers, List.filter_cons, hc, if_true, h.answer hc, hanswers]
      exact ⟨hrun, trivial⟩

end AgreesOn

section Swap

variable (store : Store) (hr : store.reach = .ownScope) {first second : Edit}
  (hf : first.scope = .enforce) (hs : second.scope = .reportOnly)

include hr hf hs

/-- An edit of each policy, in either order: the same is left and the answers are the same. -/
theorem after_comm :
    (store.after (.edit first)).after (.edit second) =
        (store.after (.edit second)).after (.edit first) ∧
      (store.after (.edit first)).answer second = store.answer second ∧
      (store.after (.edit second)).answer first = store.answer first := by
  have hself (disposition : Disposition) : AgreesOn disposition store store := ⟨rfl, hr, hr, rfl⟩
  have hfirst : first.concerns .enforce = true ∧ first.concerns .report = false := by
    simp only [Edit.concerns, hf]
    decide
  have hsecond : second.concerns .report = true ∧ second.concerns .enforce = false := by
    simp only [Edit.concerns, hs]
    decide
  -- Each policy looks as if the edit of the other one had not been made.
  have hpassed := (hself .enforce).after_left hsecond.2
  have hpassed' := (hself .report).after_left hfirst.2
  refine ⟨AgreesOn.eq ?_, hpassed'.answer hsecond.1, hpassed.answer hfirst.1⟩
  rintro (_ | _)
  · exact (((hself .enforce).after hfirst.1).after_left hsecond.2).trans (hpassed.after hfirst.1).symm
  · exact (hpassed'.after hsecond.1).trans (((hself .report).after hsecond.1).after_left hfirst.2).symm

end Swap

end Store

/-- While removals stay in their own scope, the edits that concern a policy decide what is left of it and
how they are answered: it makes no difference if all others are left out and the other policy is replaced.
So an edit of the enforced policy and one of the reported policy that stand side by side may change places;
the same store is left, and every edit has the answer that it had. -/
theorem policies_are_edited_apart (store : Store) (hr : store.reach = .ownScope) :
    (∀ (disposition : Disposition) (replaced : Policy) (edits : List Edit),
      let own := edits.filter (·.concerns disposition)
      let other := store.modify disposition.opposite fun _ => replaced
      (store.runEdits edits).policy disposition = (other.runEdits own).policy disposition ∧
        (store.answers edits).filter (·.1.concerns disposition) = other.answers own) ∧
    ∀ (before rest : List Edit) (first second : Edit), first.scope = .enforce →
      second.scope = .reportOnly →
      let now := store.runEdits before
      store.runEdits (before ++ first :: second :: rest) =
          store.runEdits (before ++ second :: first :: rest) ∧
        ∃ later, store.answers (before ++ first :: second :: rest) = store.answers before ++
            (first, now.answer first) :: (second, now.answer second) :: later ∧
          store.answers (before ++ second :: first :: rest) = store.answers before ++
            (second, now.answer second) :: (first, now.answer first) :: later := by
  constructor
  · intro disposition replaced edits own other
    have hagree : Store.AgreesOn disposition store other := by
      refine ⟨?_, hr, ?_, ?_⟩
      · exact (Store.vocabulary_modify _ _ _).symm
      · exact (Store.reach_modify _ _ _).trans hr
      · cases disposition <;> rfl
    obtain ⟨hrun, hanswers⟩ := hagree.runEdits edits
    exact ⟨hrun.policy, hanswers⟩
  · intro before rest first second hf hs now
    have hnow : now.reach = .ownScope := by
      have hself : Store.AgreesOn .enforce store store := ⟨rfl, hr, hr, rfl⟩
      exact (hself.runEdits before).1.reach
    obtain ⟨hafter, hsecond, hfirst⟩ := now.after_comm hnow hf hs
    refine ⟨?_, ((now.after (.edit first)).after (.edit second)).answers rest, ?_, ?_⟩
    · simp only [Store.runEdits_append, Store.runEdits_cons]
      exact congrArg (Store.runEdits · rest) hafter
    · simp only [Store.answers_append, Store.answers]
      rw [← hsecond]
    · simp only [Store.answers_append, Store.answers]
      rw [← hfirst, hafter]

/-- Among the edits are one that is refused in each scope, and one that clears both policies. What is
left of the enforced policy, and the answers to its edits, do not tell of the reported one. -/
theorem policies_are_edited_apart_after_refusals :
    let image : String × Directive := ("img-src", ⟨"img-src", [.keyword "self", .host "a.b"]⟩)
    let script : String × Directive := ("script-src", ⟨"script-src", [.keyword "self"]⟩)
    let store : Store := ⟨⟨⟨[image, script], by decide⟩⟩, ⟨⟨[image], by decide⟩⟩, .csp1, .ownScope⟩
    let other : Store := ⟨⟨⟨[image, script], by decide⟩⟩, ⟨⟨[script], by decide⟩⟩, .csp1, .ownScope⟩
    let own : List Edit := [.remove .enforce ⟨[("img-src", ["a.b"])], by decide⟩,
      .add .enforce ⟨[("font-src", ["data:"]), ("script-src", ["none"])], by decide⟩,
      .add .all ⟨[("img-src", ["*"])], by decide⟩]
    let remove : Edit := .remove .reportOnly ⟨[("img-src", ["a.b", "self"])], by decide⟩
    let add : Edit := .add .reportOnly ⟨[("script-src", ["self", "*"])], by decide⟩
    (store.runEdits (remove :: own ++ [add])).enforced.render = "img-src 'self';script-src 'self';" ∧
      (store.runEdits (remove :: own ++ [add])).enforced = (other.runEdits own).enforced ∧
      (store.answers (remove :: own ++ [add])).filter (·.1.concerns .enforce) =
        other.answers own ∧
      store.runEdits (own.take 1 ++ [.clear .enforce, add]) =
        store.runEdits (own.take 1 ++ [add, .clear .enforce]) := by
  intro image script store other own remove add
  obtain ⟨hapart, hswap⟩ := policies_are_edited_apart store rfl
  obtain ⟨hrun, hanswers⟩ :=
    hapart .enforce ⟨⟨[script], by decide⟩⟩ (remove :: own ++ [add])
  refine ⟨by decide, hrun, hanswers, ?_⟩
  exact (hswap (own.take 1) [] (.clear .enforce) add rfl rfl).1

end ContentSecurity
