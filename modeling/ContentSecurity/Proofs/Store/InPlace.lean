import ContentSecurity.Proofs.Store.History

/-!
Stores that are written in place. A call reads, checks and writes one thing after the other, and
what it has written stays written although it is refused later on. Still a refused call leaves no
trace. An addition has read all its directives before it writes the first, and amendments are
carried out on a copy, which takes the place of the store when the last of them has succeeded.
-/
namespace ContentSecurity

/-- A step of amendments, with its scope as it was written. -/
inductive Step where
  | clear (scope : String)
  | remove (scope : String) (listed : DirectiveValues)
  | add (scope : String) (listed : DirectiveValues)
  deriving DecidableEq

/-- The steps of amendments in the order in which they are carried out. -/
def Amendments.steps (amendments : Amendments) : List Step :=
  amendments.cleared.toList.map Step.clear ++
    amendments.removed.entries.map (fun (scope, listed) => Step.remove scope listed) ++
    amendments.added.entries.map (fun (scope, listed) => Step.add scope listed)

/-- Something that is done to a store in place. Where it is refused, what it has written by then
is left behind. -/
abbrev InPlace := EStateM Refusal Store

namespace InPlace

def write (target : Disposition) (change : Policy → Policy) : InPlace Unit :=
  modify fun store => store.modify target change

def writeCovered (scope : Scope) (change : Policy → Policy) : InPlace Unit := do
  if scope.covers .enforce then write .enforce change
  if scope.covers .report then write .report change

def clear (scope : Scope) : InPlace Unit :=
  writeCovered scope fun _ => ∅

/-- Reads the directive that an entry makes beside what the store has. -/
def read (target : Disposition) (entry : String × List String) : InPlace Directive := do
  let store ← get
  let present := ((store.policy target).get? entry.1).map Directive.written
  ofExcept (store.vocabulary.readDirective entry.1 (present.getD [] ++ entry.2))

def add (scope : Scope) (listed : DirectiveValues) : InPlace Unit :=
  match scope.disposition? with
  | none => throw (.unfitScope "addToPolicy" scope.name)
  | some target => do
    let directives ← listed.entries.mapM (read target)
    forM directives fun directive => writeCovered scope (·.insert directive)

def remove (scope : Scope) (listed : DirectiveValues) : InPlace Unit :=
  match scope.disposition? with
  | none => throw (.unfitScope "removeFromPolicy" scope.name)
  | some _ => do
    let store ← get
    forM listed.entries fun entry =>
      writeCovered (store.removalScope scope) (·.without entry.1 entry.2)

def edit : Edit → InPlace Unit
  | .clear scope => clear scope
  | .add scope listed => add scope listed
  | .remove scope listed => remove scope listed

/-- Reads the scope of a step just before the step is carried out. -/
def step : Step → InPlace Unit
  | .clear scope => do clear (← ofExcept (Scope.parse "clear" scope))
  | .remove scope listed => do remove (← ofExcept (Scope.parse "removeFromPolicy" scope)) listed
  | .add scope listed => do add (← ofExcept (Scope.parse "addToPolicy" scope)) listed

/-- Carries out amendments on a copy, which is put in the place of the store at the end. -/
def apply (amendments : Amendments) : InPlace Unit := do
  let store ← get
  match (forM amendments.steps step).run store with
  | .ok _ copy => set copy
  | .error refusal _ => throw refusal

def call : Call → InPlace Unit
  | .edit edit => InPlace.edit edit
  | .apply amendments => apply amendments
  | .setReach reach => modify fun store => store.withReach reach

/-! ## What is left behind -/

/-- How something ends that has only read. -/
def unwritten (store : Store) : Except Refusal α → EStateM.Result Refusal Store α
  | .ok found => .ok found store
  | .error refusal => .error refusal store

/-- How something ends that does all it is asked for, or nothing. -/
def settled (store : Store) : Except Refusal Store → EStateM.Result Refusal Store Unit
  | .ok next => .ok () next
  | .error refusal => .error refusal store

/-- The store that is left behind, as long as nothing is refused. -/
def outcome : EStateM.Result Refusal Store Unit → Except Refusal Store
  | .ok _ next => .ok next
  | .error refusal _ => .error refusal

theorem run_ofExcept (store : Store) (result : Except Refusal α) :
    (ofExcept result : InPlace α).run store = unwritten store result := by
  cases result <;> rfl

theorem run_read (target : Disposition) (entry : String × List String) (store : Store) :
    (read target entry).run store =
      unwritten store (store.vocabulary.readDirective entry.1
        ((((store.policy target).get? entry.1).map Directive.written).getD [] ++ entry.2)) :=
  run_ofExcept store _

/-- Things that only read, one after the other, read what each reads alone. -/
theorem run_mapM_of_unwritten {act : α → InPlace β} {found : α → Except Refusal β} {store : Store}
    (h : ∀ item, (act item).run store = unwritten store (found item)) (items : List α) :
    (items.mapM act).run store = unwritten store (items.mapM found) := by
  induction items with
  | nil => rfl
  | cons item rest ih =>
    rw [List.mapM_cons, List.mapM_cons, EStateM.run_bind, h]
    cases found item with
    | error refusal => rfl
    | ok first =>
      simp only [unwritten, EStateM.run_bind, ih]
      cases rest.mapM found <;> rfl

theorem run_writeCovered (scope : Scope) (change : Policy → Policy) (store : Store) :
    (writeCovered scope change).run store = .ok () (store.modifyCovered scope change) := by
  cases scope <;> rfl

/-- Writing one thing after the other is never refused. -/
theorem run_forM_writeCovered (scope : Scope) (change : Policy → α → Policy) (items : List α)
    (store : Store) :
    (forM items fun item => writeCovered scope (change · item)).run store =
      .ok () (store.modifyCovered scope fun policy => items.foldl change policy) := by
  induction items generalizing store with
  | nil => cases scope <;> rfl
  | cons item rest ih =>
    rw [List.forM_cons, EStateM.run_bind, run_writeCovered]
    simp only [ih]
    cases scope <;> rfl

/-! ## Calls -/

theorem run_add (scope : Scope) (listed : DirectiveValues) (store : Store) :
    (add scope listed).run store = settled store (store.add scope listed) := by
  cases ht : scope.disposition? with
  | none =>
    simp only [add, Store.add, ht]
    rfl
  | some target =>
    have hread : (listed.entries.mapM (read target)).run store =
        unwritten store (Store.staged store.vocabulary (store.policy target) listed) :=
      run_mapM_of_unwritten (fun entry => run_read target entry store) listed.entries
    simp only [add, Store.add, ht, EStateM.run_bind, hread]
    cases Store.staged store.vocabulary (store.policy target) listed with
    | error refusal => rfl
    | ok directives =>
      simp only [unwritten, run_forM_writeCovered]
      cases scope <;> cases ht <;> rfl

theorem run_remove (scope : Scope) (listed : DirectiveValues) (store : Store) :
    (remove scope listed).run store = settled store (store.remove scope listed) := by
  cases ht : scope.disposition? with
  | none =>
    simp only [remove, Store.remove, ht]
    rfl
  | some target =>
    simp only [remove, Store.remove, ht]
    exact run_forM_writeCovered (store.removalScope scope)
      (fun policy entry => policy.without entry.1 entry.2) listed.entries store

/-- An edit is carried out altogether, or leaves the store as it was. -/
theorem run_edit (edit : Edit) (store : Store) :
    (InPlace.edit edit).run store = settled store (store.edit edit) := by
  cases edit with
  | clear scope => exact run_writeCovered scope _ store
  | add scope listed => exact run_add scope listed store
  | remove scope listed => exact run_remove scope listed store

/-- The edit that a step asks for. -/
def edited : Step → Except Refusal Edit
  | .clear scope => Edit.clear <$> Scope.parse "clear" scope
  | .remove scope listed => (Edit.remove · listed) <$> Scope.parse "removeFromPolicy" scope
  | .add scope listed => (Edit.add · listed) <$> Scope.parse "addToPolicy" scope

theorem run_step (asked : Step) (store : Store) :
    (step asked).run store = settled store (edited asked >>= store.edit) := by
  have whole (operation scope : String) (make : Scope → Edit) :
      (do InPlace.edit (make (← ofExcept (Scope.parse operation scope))) : InPlace Unit).run store =
        settled store ((make <$> Scope.parse operation scope) >>= store.edit) := by
    rw [EStateM.run_bind, run_ofExcept]
    cases Scope.parse operation scope with
    | error refusal => rfl
    | ok scope => exact run_edit (make scope) store
  cases asked with
  | clear scope => exact whole "clear" scope Edit.clear
  | remove scope listed => exact whole "removeFromPolicy" scope (Edit.remove · listed)
  | add scope listed => exact whole "addToPolicy" scope (Edit.add · listed)

theorem edits_eq (amendments : Amendments) : amendments.edits = amendments.steps.map edited := by
  simp only [Amendments.edits, Amendments.steps, List.map_append, List.map_map]
  rfl

/-- What steps written in place leave behind when none is refused. -/
theorem outcome_steps (steps : List Step) (store : Store) :
    outcome ((forM steps step).run store) = store.editAll (steps.map edited) := by
  induction steps generalizing store with
  | nil => rfl
  | cons first rest ih =>
    rw [List.forM_cons, EStateM.run_bind, run_step, List.map_cons, Store.editAll]
    cases edited first with
    | error refusal => rfl
    | ok edit =>
      simp only [bind, Except.bind]
      cases store.edit edit with
      | error refusal => rfl
      | ok next => exact ih next

theorem run_apply (amendments : Amendments) (store : Store) :
    (apply amendments).run store = settled store (store.apply amendments) := by
  rw [Store.apply, edits_eq, ← outcome_steps]
  simp only [apply, EStateM.run_bind, EStateM.run_get]
  cases (forM amendments.steps step).run store <;> rfl

theorem run_call (asked : Call) (store : Store) :
    (call asked).run store = settled store (store.call asked) := by
  cases asked with
  | edit edit => exact run_edit edit store
  | apply amendments => exact run_apply amendments store
  | setReach reach => rfl

/-! ## Histories -/

/-- A call with what came of it. -/
structure Ended where
  call : Call
  result : EStateM.Result Refusal Store Unit

def Ended.succeeded (ended : Ended) : Bool :=
  match ended.result with
  | .ok _ _ => true
  | .error _ _ => false

def left : EStateM.Result Refusal Store Unit → Store
  | .ok _ next => next
  | .error _ next => next

/-- What comes of calls one after the other. A refusal does not keep the next call from being
carried out, on the store that it finds. -/
def performed (store : Store) : List Call → List Ended
  | [] => []
  | asked :: rest => ⟨asked, (call asked).run store⟩ :: performed (left ((call asked).run store)) rest

/-- The store that calls leave behind. -/
def leftBy (store : Store) : List Call → Store
  | [] => store
  | asked :: rest => leftBy (left ((call asked).run store)) rest

theorem left_run_call (asked : Call) (store : Store) :
    left ((call asked).run store) = store.after asked := by
  rw [run_call, Store.after]
  cases store.call asked <;> rfl

theorem leftBy_eq_run (calls : List Call) (store : Store) : leftBy store calls = store.run calls := by
  induction calls generalizing store with
  | nil => rfl
  | cons asked rest ih => rw [leftBy, left_run_call, ih, Store.run]

/-- The calls that are not refused, with what came of them. -/
def succeeding (store : Store) (calls : List Call) : List Ended :=
  (performed store calls).filter Ended.succeeded

/-- Without the refused calls everything comes out as with them. -/
theorem performed_succeeding (calls : List Call) (store : Store) :
    performed store ((succeeding store calls).map Ended.call) = succeeding store calls ∧
      leftBy store ((succeeding store calls).map Ended.call) = leftBy store calls := by
  induction calls generalizing store with
  | nil => exact ⟨rfl, rfl⟩
  | cons asked rest ih =>
    have hrun := run_call asked store
    cases hc : store.call asked with
    | error refusal =>
      rw [hc, settled] at hrun
      have hdrop : succeeding store (asked :: rest) = succeeding store rest := by
        simp [succeeding, performed, hrun, Ended.succeeded, left]
      rw [hdrop, leftBy, hrun, left]
      exact ih store
    | ok next =>
      rw [hc, settled] at hrun
      have hkeep : succeeding store (asked :: rest) =
          ⟨asked, .ok () next⟩ :: succeeding next rest := by
        rw [succeeding, performed, hrun]
        exact List.filter_cons_of_pos rfl
      obtain ⟨hp, hl⟩ := ih next
      simp only [hkeep, List.map_cons, performed, leftBy, hrun, left, hp, hl, and_self]

/-! ## The first refusal -/

/-- The refusal that is met first when the steps of amendments are carried out one by one on a copy
of the store: all steps before it succeed. -/
def MetFirst (store : Store) (steps : List Step) (refusal : Refusal) : Prop :=
  ∃ before asked after copy behind, steps = before ++ asked :: after ∧
    (forM before step).run store = .ok () copy ∧ (step asked).run copy = .error refusal behind

/-- The first step is refused, or succeeds and leaves it to the others. -/
theorem metFirst_cons_iff (store : Store) (first : Step) (rest : List Step) (refusal : Refusal) :
    MetFirst store (first :: rest) refusal ↔
      match (step first).run store with
      | .ok _ next => MetFirst next rest refusal
      | .error met _ => met = refusal := by
  constructor
  · rintro ⟨before, asked, after, copy, behind, hs, hb, ha⟩
    cases before with
    | nil =>
      cases hs
      cases hb
      rw [ha]
    | cons head tail =>
      cases hs
      rw [List.forM_cons, EStateM.run_bind] at hb
      cases hf : (step first).run store with
      | ok _ next =>
        rw [hf] at hb
        exact ⟨tail, asked, after, copy, behind, rfl, hb, ha⟩
      | error met behind' =>
        rw [hf] at hb
        cases hb
  · intro h
    cases hf : (step first).run store with
    | ok _ next =>
      rw [hf] at h
      obtain ⟨before, asked, after, copy, behind, rfl, hb, ha⟩ := h
      refine ⟨first :: before, asked, after, copy, behind, rfl, ?_, ha⟩
      rw [List.forM_cons, EStateM.run_bind, hf]
      exact hb
    | error met behind =>
      rw [hf] at h
      exact ⟨[], first, rest, store, behind, rfl, rfl, by rw [hf, h]⟩

/-- Steps stop at the first refusal. -/
theorem run_forM_step_eq_error_iff (steps : List Step) (store : Store) (refusal : Refusal) :
    (∃ behind, (forM steps step).run store = .error refusal behind) ↔
      MetFirst store steps refusal := by
  induction steps generalizing store with
  | nil =>
    constructor
    · rintro ⟨behind, he⟩
      cases he
    · rintro ⟨before, asked, after, copy, behind, hs, -, -⟩
      simp at hs
  | cons first rest ih =>
    rw [metFirst_cons_iff, List.forM_cons, EStateM.run_bind]
    cases (step first).run store with
    | ok _ next => exact ih next
    | error met behind => simp

end InPlace

/-- Calls that are carried out in place leave what they give, and a refused call leaves the store as
it was, amendments too. So whatever else is asked, it comes out as if the refused calls had not been
made. Amendments are refused for the refusal that is met first when they are carried out step by
step on a copy. -/
theorem refused_calls_leave_no_trace (store : Store) :
    (∀ asked, (InPlace.call asked).run store =
      match store.call asked with
      | .ok next => .ok () next
      | .error refusal => .error refusal store) ∧
    (∀ calls, InPlace.leftBy store calls = store.run calls ∧
      InPlace.performed store ((InPlace.succeeding store calls).map InPlace.Ended.call) =
        InPlace.succeeding store calls ∧
      InPlace.leftBy store ((InPlace.succeeding store calls).map InPlace.Ended.call) =
        InPlace.leftBy store calls) ∧
    ∀ amendments refusal, store.apply amendments = .error refusal ↔
      InPlace.MetFirst store amendments.steps refusal := by
  refine ⟨fun asked => InPlace.run_call asked store, fun calls =>
    ⟨InPlace.leftBy_eq_run calls store, InPlace.performed_succeeding calls store⟩, ?_⟩
  intro amendments refusal
  rw [← InPlace.run_forM_step_eq_error_iff, Store.apply, InPlace.edits_eq, ← InPlace.outcome_steps]
  cases (forM amendments.steps InPlace.step).run store with
  | ok _ copy => simp [InPlace.outcome]
  | error met behind => simp [InPlace.outcome]

/-- The steps before the refusal have been carried out on the copy, which is not the store any
more. -/
example :
    ∃ store copy, Store.ofValues .csp1 ⟨[("img-src", ["self"])], by decide⟩ ∅ = .ok store ∧
      (forM (Amendments.steps ⟨some "all", ∅, ⟨[("enforce", ∅), ("everywhere", ∅)], by decide⟩⟩)
        InPlace.step).run store = .error (.unfitScope "addToPolicy" "everywhere") copy ∧
      copy ≠ store :=
  ⟨_, _, rfl, rfl, by decide⟩

end ContentSecurity
