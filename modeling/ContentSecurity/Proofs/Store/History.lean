import ContentSecurity.Proofs.Directive.Reading
import ContentSecurity.Store

/-!
The history of a store. It begins blank or with listed values; then calls follow one another, and a
refused call leaves the store as it was. What each edit keeps is kept by amendments, which are edits
one after the other, and so by every history.
-/
namespace ContentSecurity

/-- What can be asked of a store. -/
inductive Call where
  | edit (edit : Edit)
  | apply (amendments : Amendments)
  | setReach (reach : RemovalReach)
  deriving DecidableEq

namespace Store

def call (store : Store) : Call → Except Refusal Store
  | .edit edit => store.edit edit
  | .apply amendments => store.apply amendments
  | .setReach reach => .ok (store.withReach reach)

/-- The store after a call, which may have been refused. -/
def after (store : Store) (call : Call) : Store :=
  match store.call call with
  | .ok next => next
  | .error _ => store

/-- Either a call succeeds, or it leaves the store as it was. -/
theorem after_cases (store : Store) (call : Call) :
    store.call call = .ok (store.after call) ∨ store.after call = store := by
  rw [after]
  cases store.call call with
  | ok next => exact Or.inl rfl
  | error refusal => exact Or.inr rfl

def run (store : Store) : List Call → Store
  | [] => store
  | call :: rest => (store.after call).run rest

/-- How a store begins. -/
inductive Founded (vocabulary : Vocabulary) : Store → Prop where
  | blank : Founded vocabulary (.blank vocabulary)
  | ofValues (enforced reported : DirectiveValues) (store : Store)
      (h : Store.ofValues vocabulary enforced reported = .ok store) : Founded vocabulary store

/-- The stores that come about with a vocabulary. -/
def Reachable (vocabulary : Vocabulary) (store : Store) : Prop :=
  ∃ start calls, Founded vocabulary start ∧ start.run calls = store

theorem Founded.reachable {vocabulary : Vocabulary} {store : Store}
    (h : Founded vocabulary store) : Reachable vocabulary store :=
  ⟨store, [], h, rfl⟩

/-! ## The policies of a changed store -/

theorem policy_modify (store : Store) (target disposition : Disposition)
    (change : Policy → Policy) :
    (store.modify target change).policy disposition =
      if disposition = target then change (store.policy disposition)
      else store.policy disposition := by
  cases target <;> cases disposition <;> rfl

theorem policy_modifyCovered (store : Store) (scope : Scope) (disposition : Disposition)
    (change : Policy → Policy) :
    (store.modifyCovered scope change).policy disposition =
      if scope.covers disposition then change (store.policy disposition)
      else store.policy disposition := by
  cases disposition <;> rfl

theorem covers_removalScope (store : Store) (scope : Scope) (disposition : Disposition) :
    (store.removalScope scope).covers disposition = true ↔
      store.reach = .bothPolicies ∨ scope.covers disposition = true := by
  rw [removalScope]
  cases store.reach with
  | ownScope => simp
  | bothPolicies => cases disposition <;> simp [Scope.covers]

@[simp] theorem policy_withReach (store : Store) (reach : RemovalReach)
    (disposition : Disposition) :
    (store.withReach reach).policy disposition = store.policy disposition := by
  cases disposition <;> rfl

@[simp] theorem policy_blank (vocabulary : Vocabulary) (disposition : Disposition) :
    (blank vocabulary).policy disposition = ∅ := by
  cases disposition <;> rfl

@[simp] theorem vocabulary_modify (store : Store) (target : Disposition)
    (change : Policy → Policy) : (store.modify target change).vocabulary = store.vocabulary := by
  cases target <;> rfl

@[simp] theorem reach_modify (store : Store) (target : Disposition)
    (change : Policy → Policy) : (store.modify target change).reach = store.reach := by
  cases target <;> rfl

/-! ## What an edit does -/

/-- The directive that an entry of listed values makes beside what a policy has. -/
def merged (vocabulary : Vocabulary) (policy : Policy) (entry : String × List String) :
    Option Directive :=
  (vocabulary.readDirective entry.1
    (((policy.get? entry.1).map Directive.written).getD [] ++ entry.2)).toOption

theorem merged_eq_some_iff (vocabulary : Vocabulary) (policy : Policy)
    (entry : String × List String) (directive : Directive) :
    merged vocabulary policy entry = some directive ↔
      vocabulary.readDirective entry.1
        (((policy.get? entry.1).map Directive.written).getD [] ++ entry.2) = .ok directive := by
  unfold merged
  cases vocabulary.readDirective entry.1
    (((policy.get? entry.1).map Directive.written).getD [] ++ entry.2) <;> simp [Except.toOption]

theorem staged_eq_ok_iff (vocabulary : Vocabulary) (policy : Policy) (listed : DirectiveValues)
    (directives : List Directive) :
    staged vocabulary policy listed = .ok directives ↔
      (∀ entry ∈ listed.entries, (merged vocabulary policy entry).isSome = true) ∧
        directives = listed.entries.filterMap (merged vocabulary policy) :=
  mapM_eq_ok_iff (merged vocabulary policy) (fun _ => rfl) listed.entries directives

/-- A policy with everything placed in it that listed values make. -/
def withAll (vocabulary : Vocabulary) (policy : Policy) (listed : DirectiveValues) : Policy :=
  (listed.entries.filterMap (merged vocabulary policy)).foldl Policy.insert policy

/-- A policy with values dropped from it. -/
def withoutAll (policy : Policy) (listed : DirectiveValues) : Policy :=
  listed.entries.foldl (fun policy entry => policy.without entry.1 entry.2) policy

/-- Everything that a successful edit can have done. -/
inductive Edited (store : Store) : Edit → Store → Prop where
  | clear (scope : Scope) : Edited store (.clear scope) (store.modifyCovered scope fun _ => ∅)
  | add (scope : Scope) (listed : DirectiveValues) (target : Disposition)
      (ht : scope.disposition? = some target)
      (hr : ∀ entry ∈ listed.entries,
        (merged store.vocabulary (store.policy target) entry).isSome = true) :
      Edited store (.add scope listed)
        (store.modify target (withAll store.vocabulary · listed))
  | remove (scope : Scope) (listed : DirectiveValues) (hs : scope ≠ .all) :
      Edited store (.remove scope listed)
        (store.modifyCovered (store.removalScope scope) (withoutAll · listed))

theorem edit_eq_ok_iff (store : Store) (edit : Edit) (next : Store) :
    store.edit edit = .ok next ↔ store.Edited edit next := by
  constructor
  · intro h
    cases edit with
    | clear scope =>
      cases h
      exact .clear scope
    | add scope listed =>
      simp only [Store.edit, Store.add] at h
      split at h
      · cases h
      · next target ht =>
        cases hs : staged store.vocabulary (store.policy target) listed with
        | error refusal =>
          rw [hs] at h
          cases h
        | ok directives =>
          rw [hs] at h
          cases h
          obtain ⟨hr, rfl⟩ := (staged_eq_ok_iff _ _ _ _).1 hs
          cases target <;> exact .add scope listed _ ht hr
    | remove scope listed =>
      simp only [Store.edit, Store.remove] at h
      split at h
      · cases h
      · next target ht =>
        cases h
        exact .remove scope listed (by rintro rfl; cases ht)
  · intro h
    cases h with
    | clear scope => rfl
    | add scope listed target ht hr =>
      simp only [Store.edit, Store.add, ht, (staged_eq_ok_iff _ _ _ _).2 ⟨hr, rfl⟩]
      cases target <;> rfl
    | remove scope listed hs =>
      cases scope with
      | all => exact absurd rfl hs
      | enforce => rfl
      | reportOnly => rfl

/-- Every directive that listed values make beside what a policy has can be read. -/
def Addable (vocabulary : Vocabulary) (policy : Policy) (listed : DirectiveValues) : Prop :=
  ∀ entry ∈ listed.entries, (merged vocabulary policy entry).isSome = true

theorem add_eq_ok_iff (store : Store) (scope : Scope) (listed : DirectiveValues) (next : Store) :
    store.add scope listed = .ok next ↔ ∃ target, scope.disposition? = some target ∧
      Addable store.vocabulary (store.policy target) listed ∧
      next = store.modify target (withAll store.vocabulary · listed) := by
  have hedit := store.edit_eq_ok_iff (.add scope listed) next
  constructor
  · intro h
    cases hedit.1 h with
    | add _ _ target ht hr => exact ⟨target, ht, hr, rfl⟩
  · rintro ⟨target, ht, hr, rfl⟩
    exact hedit.2 (.add scope listed target ht hr)

theorem remove_eq_ok_iff (store : Store) (scope : Scope) (listed : DirectiveValues)
    (next : Store) :
    store.remove scope listed = .ok next ↔ ∃ source, scope.disposition? = some source ∧
      next = store.modifyCovered (store.removalScope scope) (withoutAll · listed) := by
  have hedit := store.edit_eq_ok_iff (.remove scope listed) next
  constructor
  · intro h
    cases hedit.1 h with
    | remove _ _ hs =>
      cases scope with
      | all => exact absurd rfl hs
      | enforce => exact ⟨.enforce, rfl, rfl⟩
      | reportOnly => exact ⟨.report, rfl, rfl⟩
  · rintro ⟨source, hs, rfl⟩
    exact hedit.2 (.remove scope listed (by rintro rfl; cases hs))

/-! ## What edits keep, histories keep -/

theorem editAll_keeps {P : Store → Prop}
    (hedit : ∀ store edit next, P store → store.edit edit = .ok next → P next)
    (asked : List (Except Refusal Edit)) {store last : Store} (h : P store)
    (he : store.editAll asked = .ok last) : P last := by
  induction asked generalizing store with
  | nil =>
    cases he
    exact h
  | cons first rest ih =>
    cases first with
    | error refusal => cases he
    | ok edit =>
      cases hn : store.edit edit with
      | error refusal =>
        simp [editAll, bind, Except.bind, hn] at he
      | ok next =>
        simp only [editAll, bind, Except.bind, hn] at he
        exact ih (hedit store edit next h hn) he

theorem after_keeps {P : Store → Prop}
    (hedit : ∀ store edit next, P store → store.edit edit = .ok next → P next)
    (hreach : ∀ store reach, P store → P (store.withReach reach))
    (call : Call) {store : Store} (h : P store) : P (store.after call) := by
  obtain hn | he := store.after_cases call
  · cases call with
    | edit edit => exact hedit store edit _ h hn
    | apply amendments => exact editAll_keeps hedit amendments.edits h hn
    | setReach reach => exact hreach store reach h
  · rwa [he]

theorem run_keeps {P : Store → Prop}
    (hedit : ∀ store edit next, P store → store.edit edit = .ok next → P next)
    (hreach : ∀ store reach, P store → P (store.withReach reach))
    (calls : List Call) {store : Store} (h : P store) : P (store.run calls) := by
  induction calls generalizing store with
  | nil => exact h
  | cons call rest ih => exact ih (after_keeps hedit hreach call h)

/-- A store begins with two edits at most. -/
theorem founded_keeps {P : Store → Prop} {vocabulary : Vocabulary} (hblank : P (blank vocabulary))
    (hedit : ∀ store edit next, P store → store.edit edit = .ok next → P next) {store : Store}
    (h : Founded vocabulary store) : P store := by
  cases h with
  | blank => exact hblank
  | ofValues enforced reported _ h =>
    unfold Store.ofValues at h
    cases hf : (Store.blank vocabulary).add .enforce enforced with
    | error refusal =>
      rw [hf] at h
      cases h
    | ok first =>
      rw [hf] at h
      exact hedit first (.add .reportOnly reported) store
        (hedit _ (.add .enforce enforced) first hblank hf) h

theorem run_append (store : Store) (calls more : List Call) :
    store.run (calls ++ more) = (store.run calls).run more := by
  induction calls generalizing store with
  | nil => rfl
  | cons call rest ih => exact ih (store.after call)

theorem Reachable.run {vocabulary : Vocabulary} {store : Store} (h : Reachable vocabulary store)
    (calls : List Call) : Reachable vocabulary (store.run calls) := by
  obtain ⟨start, before, hs, rfl⟩ := h
  exact ⟨start, before ++ calls, hs, run_append start before calls⟩

end Store

/-- The policies of such stores. -/
def Policy.Reachable (vocabulary : Vocabulary) (policy : Policy) : Prop :=
  ∃ store disposition, Store.Reachable vocabulary store ∧ store.policy disposition = policy

/-- What holds of the policy without directives, of every policy with a directive more that has
been read, and of every policy with fewer values. -/
structure Policy.Kept (vocabulary : Vocabulary) (P : Policy → Prop) : Prop where
  empty : P ∅
  insert : ∀ policy name values directive, P policy →
    vocabulary.readDirective name values = .ok directive → P (policy.insert directive)
  without : ∀ policy name values, P policy → P (policy.without name values)

namespace Policy.Kept

variable {vocabulary : Vocabulary} {P : Policy → Prop}

theorem insertAll (h : Kept vocabulary P) (directives : List Directive)
    (hd : ∀ directive ∈ directives, ∃ name values,
      vocabulary.readDirective name values = .ok directive)
    {policy : Policy} (hp : P policy) : P (directives.foldl Policy.insert policy) := by
  induction directives generalizing policy with
  | nil => exact hp
  | cons directive rest ih =>
    obtain ⟨name, values, hr⟩ := hd directive List.mem_cons_self
    exact ih (fun other ho => hd other (List.mem_cons_of_mem _ ho))
      (h.insert policy name values directive hp hr)

theorem withAll (h : Kept vocabulary P) (listed : DirectiveValues) {policy : Policy}
    (hp : P policy) : P (Store.withAll vocabulary policy listed) := by
  refine h.insertAll _ ?_ hp
  intro directive hd
  obtain ⟨entry, -, hm⟩ := List.mem_filterMap.1 hd
  exact ⟨entry.1, _, (Store.merged_eq_some_iff _ _ _ _).1 hm⟩

theorem withoutAll (h : Kept vocabulary P) (listed : DirectiveValues) {policy : Policy}
    (hp : P policy) : P (Store.withoutAll policy listed) := by
  rw [Store.withoutAll]
  induction listed.entries generalizing policy with
  | nil => exact hp
  | cons entry rest ih => exact ih (h.without policy entry.1 entry.2 hp)

/-- An edit keeps the vocabulary, and with it what is kept of both policies. -/
theorem edit (h : Kept vocabulary P) (store : Store) (edit : Edit) (next : Store)
    (hs : store.vocabulary = vocabulary ∧ ∀ disposition, P (store.policy disposition))
    (he : store.edit edit = .ok next) :
    next.vocabulary = vocabulary ∧ ∀ disposition, P (next.policy disposition) := by
  obtain ⟨hv, hp⟩ := hs
  cases (store.edit_eq_ok_iff edit next).1 he with
  | clear scope =>
    refine ⟨hv, ?_⟩
    intro disposition
    rw [Store.policy_modifyCovered]
    split
    · exact h.empty
    · exact hp disposition
  | add scope listed target ht hr =>
    refine ⟨by rw [Store.vocabulary_modify, hv], ?_⟩
    intro disposition
    rw [Store.policy_modify]
    split
    · rw [hv]
      exact h.withAll listed (hp disposition)
    · exact hp disposition
  | remove scope listed hn =>
    refine ⟨hv, ?_⟩
    intro disposition
    rw [Store.policy_modifyCovered]
    split
    · exact h.withoutAll listed (hp disposition)
    · exact hp disposition

theorem run (h : Kept vocabulary P) (calls : List Call) {store : Store}
    (hs : store.vocabulary = vocabulary ∧ ∀ disposition, P (store.policy disposition)) :
    (store.run calls).vocabulary = vocabulary ∧
      ∀ disposition, P ((store.run calls).policy disposition) :=
  Store.run_keeps h.edit
    (fun store reach hs => ⟨hs.1, by simpa using hs.2⟩) calls hs

/-- What is kept holds of both policies of every store that comes about. -/
theorem reachable (h : Kept vocabulary P) {store : Store}
    (hr : Store.Reachable vocabulary store) :
    store.vocabulary = vocabulary ∧ ∀ disposition, P (store.policy disposition) := by
  obtain ⟨start, calls, hf, rfl⟩ := hr
  refine h.run calls (Store.founded_keeps ⟨rfl, ?_⟩ h.edit hf)
  intro disposition
  rw [Store.policy_blank]
  exact h.empty

end Policy.Kept

/-- Each directive stands under its own name, which the vocabulary knows, and has what is asked of
the directives of its form. -/
def Policy.Each (vocabulary : Vocabulary) (Q : DirectiveForm → Directive → Prop)
    (policy : Policy) : Prop :=
  ∀ name directive, policy.get? name = some directive →
    directive.name = name ∧ ∃ form, vocabulary.get? name = some form ∧ Q form directive

/-- The directives have the names under which they stand. -/
theorem Policy.Each.map_name_directives {vocabulary : Vocabulary}
    {Q : DirectiveForm → Directive → Prop} {policy : Policy} (h : policy.Each vocabulary Q) :
    policy.directives.map Directive.name = policy.entries.keys := by
  simp only [directives, OrderedMap.values, OrderedMap.keys, List.map_map]
  refine List.map_congr_left fun entry he => ?_
  exact (h entry.1 entry.2 ((policy.entries.get?_eq_some_iff _ _).2 he)).1

/-- What holds of every directive that is read, and is kept when values are dropped from it, is kept
of each directive of a policy. -/
theorem Policy.each_kept {vocabulary : Vocabulary} {Q : DirectiveForm → Directive → Prop}
    (hread : ∀ name form values, vocabulary.get? name = some form → form.Accepts values →
      Q form (form.directive name values))
    (hwithout : ∀ form directive values, Q form directive → Q form (directive.without values)) :
    Kept vocabulary (Each vocabulary Q) where
  empty := fun name directive hg => by cases hg
  insert := by
    intro policy name values directive hp hr
    obtain ⟨form, hf, ha, rfl⟩ := (vocabulary.readDirective_eq_ok_iff name values directive).1 hr
    intro other found hg
    rw [get?_insert] at hg
    split at hg
    · next hn =>
      cases hg
      exact ⟨hn, form, by rw [← hn]; exact hf, hread name form values hf ha⟩
    · exact hp other found hg
  without := by
    intro policy name values hp other found hg
    rw [get?_without] at hg
    split at hg
    · next hn =>
      subst hn
      obtain ⟨directive, hd, hleft⟩ := Option.bind_eq_some_iff.1 hg
      obtain ⟨rfl, -⟩ := (directive.left?_eq_some_iff values found).1 hleft
      obtain ⟨hname, form, hf, hq⟩ := hp name directive hd
      exact ⟨hname, form, hf, hwithout form directive values hq⟩
    · exact hp other found hg

end ContentSecurity
