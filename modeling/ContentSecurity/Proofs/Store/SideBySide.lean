import ContentSecurity.Proofs.Store.Lookup

/-!
A store as two policies side by side. What an edit makes of one policy, and whether it is refused
there, hangs on that policy and on where removals act, never on the other policy. The same goes for
edits one after the other, and it is told of anything that is kept in the place of a policy, as long
as it can be emptied, added to and removed from. Amendments are edits in three stages; in the last, no
policy gets anything under more than one scope. So where values are listed alike, amendments come to alike
results, whatever that means for the values.
-/
namespace ContentSecurity

/-- A way of keeping a policy: what is kept of the one without directives, and what comes of adding
listed values and of removing them. -/
structure Keeping (σ : Type) where
  blank : σ
  add : σ → DirectiveValues → Option σ
  remove : σ → DirectiveValues → σ

namespace Keeping

section Edits

variable {σ τ : Type} (keeping : Keeping σ) (reach : RemovalReach) (disposition : Disposition)

/-- What an edit makes of what is kept of one policy, or nothing where it is refused. -/
def edit (kept : σ) : Edit → Option σ
  | .clear scope => some (if scope.covers disposition then keeping.blank else kept)
  | .add scope listed => scope.disposition?.bind fun target =>
      if target = disposition then keeping.add kept listed else some kept
  | .remove scope listed => scope.disposition?.map fun source =>
      if reach = .bothPolicies ∨ source = disposition then keeping.remove kept listed else kept

/-- What edits make of it one after the other, up to the first refusal. -/
def editAll (kept : σ) (asked : List (Except Refusal Edit)) : Option σ :=
  asked.foldlM (fun kept asked => asked.toOption.bind (keeping.edit reach disposition kept)) kept

theorem editAll_ok_cons (kept : σ) (edit : Edit) (rest : List (Except Refusal Edit)) :
    keeping.editAll reach disposition kept (.ok edit :: rest) =
      (keeping.edit reach disposition kept edit).bind
        (keeping.editAll reach disposition · rest) :=
  rfl

end Edits

/-- One way of keeping is seen in another by a view that every change goes along with. -/
structure Seen {σ τ : Type} (keeping : Keeping σ) (other : Keeping τ) (view : σ → τ) : Prop where
  blank : view keeping.blank = other.blank
  add : ∀ kept listed, (keeping.add kept listed).map view = other.add (view kept) listed
  remove : ∀ kept listed, view (keeping.remove kept listed) = other.remove (view kept) listed

namespace Seen

variable {σ τ : Type} {keeping : Keeping σ} {other : Keeping τ} {view : σ → τ}
  (h : keeping.Seen other view) (reach : RemovalReach) (disposition : Disposition)

include h

theorem edit (kept : σ) (edit : Edit) :
    (keeping.edit reach disposition kept edit).map view =
      other.edit reach disposition (view kept) edit := by
  cases edit with
  | clear scope =>
    simp only [Keeping.edit, Option.map_some, apply_ite view, h.blank]
  | add scope listed =>
    cases ht : scope.disposition? with
    | none => simp only [Keeping.edit, ht, Option.bind_none, Option.map_none]
    | some target =>
      simp only [Keeping.edit, ht, Option.bind_some, apply_ite (Option.map view), h.add,
        Option.map_some]
  | remove scope listed =>
    simp only [Keeping.edit, Option.map_map]
    refine Option.map_congr fun source _ => ?_
    simp only [Function.comp_apply, apply_ite view, h.remove]

theorem editAll (kept : σ) (asked : List (Except Refusal Edit)) :
    (keeping.editAll reach disposition kept asked).map view =
      other.editAll reach disposition (view kept) asked := by
  induction asked generalizing kept with
  | nil => rfl
  | cons first rest ih =>
    cases first with
    | error refusal => rfl
    | ok edit =>
      rw [editAll_ok_cons, editAll_ok_cons, ← h.edit]
      cases keeping.edit reach disposition kept edit with
      | none => rfl
      | some next => exact ih next

end Seen

end Keeping

/-- Policies kept as they are. -/
def Vocabulary.keeping (vocabulary : Vocabulary) : Keeping Policy where
  blank := ∅
  add policy listed :=
    (Store.staged vocabulary policy listed).toOption.map (·.foldl Policy.insert policy)
  remove := Store.withoutAll

namespace Store

theorem eq_iff_policies (store other : Store) :
    store = other ↔ store.vocabulary = other.vocabulary ∧ store.reach = other.reach ∧
      ∀ disposition, store.policy disposition = other.policy disposition := by
  constructor
  · rintro rfl
    exact ⟨rfl, rfl, fun _ => rfl⟩
  · obtain ⟨enforced, reported, vocabulary, reach⟩ := store
    obtain ⟨enforced', reported', vocabulary', reach'⟩ := other
    rintro ⟨rfl, rfl, hp⟩
    obtain rfl : enforced = enforced' := hp .enforce
    obtain rfl : reported = reported' := hp .report
    rfl

/-- A store that is put together from its two policies. -/
def ofPolicies (vocabulary : Vocabulary) (reach : RemovalReach)
    (policies : Disposition → Policy) : Store :=
  ⟨policies .enforce, policies .report, vocabulary, reach⟩

@[simp] theorem policy_ofPolicies (vocabulary : Vocabulary) (reach : RemovalReach)
    (policies : Disposition → Policy) (disposition : Disposition) :
    (ofPolicies vocabulary reach policies).policy disposition = policies disposition := by
  cases disposition <;> rfl

@[simp] theorem vocabulary_ofPolicies (vocabulary : Vocabulary) (reach : RemovalReach)
    (policies : Disposition → Policy) :
    (ofPolicies vocabulary reach policies).vocabulary = vocabulary :=
  rfl

@[simp] theorem reach_ofPolicies (vocabulary : Vocabulary) (reach : RemovalReach)
    (policies : Disposition → Policy) : (ofPolicies vocabulary reach policies).reach = reach :=
  rfl

theorem keeping_add_eq_some_iff (vocabulary : Vocabulary) (policy next : Policy)
    (listed : DirectiveValues) :
    vocabulary.keeping.add policy listed = some next ↔
      Addable vocabulary policy listed ∧ next = withAll vocabulary policy listed := by
  have hstaged := staged_eq_ok_iff vocabulary policy listed
  simp only [Vocabulary.keeping, withAll]
  cases hs : staged vocabulary policy listed with
  | error refusal =>
    rw [hs] at hstaged
    have hnot : ¬ Addable vocabulary policy listed := fun hr => by
      cases (hstaged _).2 ⟨hr, rfl⟩
    simp [Except.toOption, hnot]
  | ok directives =>
    obtain ⟨hr, rfl⟩ := (hstaged directives).1 hs
    have hall : Addable vocabulary policy listed := hr
    simp [Except.toOption, hall, eq_comm]

/-- A removal acts on the policy in its scope, and on the other one too if it reaches that far. -/
theorem covers_removalScope_of_disposition? (store : Store) {scope : Scope}
    {source : Disposition} (h : scope.disposition? = some source) (disposition : Disposition) :
    (store.removalScope scope).covers disposition = true ↔
      store.reach = .bothPolicies ∨ source = disposition := by
  rw [covers_removalScope]
  refine or_congr_right ?_
  cases scope <;> cases h <;> cases disposition <;> decide

theorem add_eq_ok_iff_keeping (store : Store) (scope : Scope) (listed : DirectiveValues)
    (next : Store) :
    store.add scope listed = .ok next ↔
      store.vocabulary = next.vocabulary ∧ store.reach = next.reach ∧ ∀ disposition,
        store.vocabulary.keeping.edit store.reach disposition (store.policy disposition)
          (.add scope listed) = some (next.policy disposition) := by
  simp only [add_eq_ok_iff, Keeping.edit]
  constructor
  · rintro ⟨target, ht, hr, rfl⟩
    refine ⟨by simp, by simp, fun disposition => ?_⟩
    rw [ht, Option.bind_some, policy_modify]
    split
    · next hd =>
      subst hd
      rw [if_pos rfl, keeping_add_eq_some_iff]
      exact ⟨hr, rfl⟩
    · next hd => rw [if_neg (Ne.symm hd)]
  · rintro ⟨hv, hr, hp⟩
    obtain ⟨target, ht, -⟩ := Option.bind_eq_some_iff.1 (hp .enforce)
    simp only [ht, Option.bind_some] at hp
    have hadd := hp target
    rw [if_pos rfl, keeping_add_eq_some_iff] at hadd
    refine ⟨target, ht, hadd.1, Eq.symm ?_⟩
    refine (eq_iff_policies _ next).2 ⟨by simpa using hv, by simpa using hr, ?_⟩
    intro disposition
    rw [policy_modify]
    split
    · next hd => rw [hd, hadd.2]
    · next hd => simpa [Ne.symm hd] using hp disposition

theorem remove_eq_ok_iff_keeping (store : Store) (scope : Scope) (listed : DirectiveValues)
    (next : Store) :
    store.remove scope listed = .ok next ↔
      store.vocabulary = next.vocabulary ∧ store.reach = next.reach ∧ ∀ disposition,
        store.vocabulary.keeping.edit store.reach disposition (store.policy disposition)
          (.remove scope listed) = some (next.policy disposition) := by
  simp only [remove_eq_ok_iff, Keeping.edit, Option.map_eq_some_iff]
  constructor
  · rintro ⟨source, hs, rfl⟩
    refine ⟨rfl, rfl, fun disposition => ⟨source, hs, ?_⟩⟩
    simp only [policy_modifyCovered, store.covers_removalScope_of_disposition? hs]
    rfl
  · rintro ⟨hv, hr, hp⟩
    obtain ⟨source, hs, -⟩ := hp .enforce
    refine ⟨source, hs, Eq.symm ((eq_iff_policies _ next).2 ⟨hv, hr, ?_⟩)⟩
    intro disposition
    obtain ⟨source', hs', hp'⟩ := hp disposition
    obtain rfl : source = source' := Option.some.inj (hs.symm.trans hs')
    simp only [policy_modifyCovered, store.covers_removalScope_of_disposition? hs]
    exact hp'

/-- An edit of a store is what it makes of each policy. -/
theorem edit_eq_ok_iff_keeping (store : Store) (edit : Edit) (next : Store) :
    store.edit edit = .ok next ↔
      store.vocabulary = next.vocabulary ∧ store.reach = next.reach ∧ ∀ disposition,
        store.vocabulary.keeping.edit store.reach disposition (store.policy disposition) edit =
          some (next.policy disposition) := by
  cases edit with
  | clear scope =>
    simp only [Store.edit, clear, Except.ok.injEq, eq_iff_policies, policy_modifyCovered,
      Keeping.edit, Option.some.injEq]
    rfl
  | add scope listed => exact store.add_eq_ok_iff_keeping scope listed next
  | remove scope listed => exact store.remove_eq_ok_iff_keeping scope listed next

/-- So are edits one after the other. -/
theorem editAll_eq_ok_iff (store : Store) (asked : List (Except Refusal Edit)) (next : Store) :
    store.editAll asked = .ok next ↔
      store.vocabulary = next.vocabulary ∧ store.reach = next.reach ∧ ∀ disposition,
        store.vocabulary.keeping.editAll store.reach disposition (store.policy disposition) asked =
          some (next.policy disposition) := by
  induction asked generalizing store with
  | nil =>
    rw [editAll, Except.ok.injEq, eq_iff_policies]
    simp only [Keeping.editAll, List.foldlM_nil, pure, Option.some.injEq]
  | cons first rest ih =>
    cases first with
    | error refusal =>
      constructor
      · intro h
        cases h
      · rintro ⟨-, -, hp⟩
        cases hp .enforce
    | ok edit =>
      have hstep : store.editAll (.ok edit :: rest) = .ok next ↔
          ∃ mid, store.edit edit = .ok mid ∧ mid.editAll rest = .ok next := by
        simp only [editAll, bind, Except.bind]
        cases store.edit edit <;> simp
      simp only [hstep, edit_eq_ok_iff_keeping, ih, Keeping.editAll_ok_cons,
        Option.bind_eq_some_iff]
      constructor
      · rintro ⟨mid, ⟨hv, hr, hp⟩, hv', hr', hp'⟩
        refine ⟨hv.trans hv', hr.trans hr', fun disposition => ⟨_, hp disposition, ?_⟩⟩
        rw [hv, hr]
        exact hp' disposition
      · rintro ⟨hv, hr, hp⟩
        -- The store in between is put together from what becomes of each policy.
        choose mid hfirst hrest using hp
        refine ⟨ofPolicies store.vocabulary store.reach mid, ⟨rfl, rfl, ?_⟩, hv, hr, ?_⟩
        · simpa using hfirst
        · simpa using hrest

/-- Edits of a store are carried out when no policy refuses them. -/
theorem exists_editAll_iff (store : Store) (asked : List (Except Refusal Edit)) :
    (∃ next, store.editAll asked = .ok next) ↔ ∀ disposition,
      (store.vocabulary.keeping.editAll store.reach disposition (store.policy disposition)
        asked).isSome = true := by
  simp only [editAll_eq_ok_iff, Option.isSome_iff_exists]
  constructor
  · rintro ⟨next, -, -, hp⟩ disposition
    exact ⟨_, hp disposition⟩
  · intro h
    choose policies hp using h
    exact ⟨ofPolicies store.vocabulary store.reach policies, rfl, rfl, by simpa using hp⟩

end Store

/-! ## Amendments, stage by stage -/

/-- The scope that means one policy. -/
def Disposition.scope : Disposition → Scope
  | .enforce => .enforce
  | .report => .reportOnly

/-- The policy that a text means, read as the scope of an addition or removal. -/
def Disposition.meant? (operation text : String) : Option Disposition :=
  (Scope.parse operation text).toOption.bind Scope.disposition?

theorem Disposition.eq_of_meant? {operation text : String} {disposition : Disposition}
    (h : meant? operation text = some disposition) : text = disposition.scope.name := by
  unfold meant? Scope.parse at h
  split_ifs at h with he hr ha
  · cases h
    exact he
  · cases h
    exact hr
  · cases h
  · cases h

theorem Disposition.meant?_name (operation : String) (disposition : Disposition) :
    meant? operation disposition.scope.name = some disposition := by
  rw [meant?, Scope.parse_name]
  cases disposition <;> rfl

namespace Keeping

variable {σ : Type} (keeping : Keeping σ) (reach : RemovalReach) (disposition : Disposition)

/-- What becomes of a policy by the values that amendments remove under a scope. -/
def removeUnder (scope : String) (listed : DirectiveValues) (kept : σ) : Option σ :=
  (Disposition.meant? "removeFromPolicy" scope).map fun source =>
    if reach = .bothPolicies ∨ source = disposition then keeping.remove kept listed else kept

/-- What becomes of a policy by the values that amendments add under a scope. -/
def addUnder (scope : String) (listed : DirectiveValues) (kept : σ) : Option σ :=
  (Disposition.meant? "addToPolicy" scope).bind fun target =>
    if target = disposition then keeping.add kept listed else some kept

/-- Amendments clear a policy, then remove what they list under each scope, then add. -/
theorem editAll_edits (kept : σ) (amendments : Amendments) :
    keeping.editAll reach disposition kept amendments.edits =
      ((keeping.editAll reach disposition kept
        (amendments.cleared.toList.map fun scope => Edit.clear <$> Scope.parse "clear" scope)).bind
        (amendments.removed.entries.foldlM fun kept entry =>
          keeping.removeUnder reach disposition entry.1 entry.2 kept)).bind
        (amendments.added.entries.foldlM fun kept entry =>
          keeping.addUnder disposition entry.1 entry.2 kept) := by
  have hremove (kept : σ) (scope : String) (listed : DirectiveValues) :
      ((Edit.remove · listed) <$> Scope.parse "removeFromPolicy" scope).toOption.bind
        (keeping.edit reach disposition kept) =
      keeping.removeUnder reach disposition scope listed kept := by
    unfold removeUnder Disposition.meant?
    cases Scope.parse "removeFromPolicy" scope <;> rfl
  have hadd (kept : σ) (scope : String) (listed : DirectiveValues) :
      ((Edit.add · listed) <$> Scope.parse "addToPolicy" scope).toOption.bind
        (keeping.edit reach disposition kept) =
      keeping.addUnder disposition scope listed kept := by
    unfold addUnder Disposition.meant?
    cases Scope.parse "addToPolicy" scope <;> rfl
  simp only [editAll, Amendments.edits, List.foldlM_append, List.foldlM_map, hremove, hadd]
  rfl

theorem removeUnder_comm
    (hcomm : ∀ kept listed other, keeping.remove (keeping.remove kept listed) other =
      keeping.remove (keeping.remove kept other) listed)
    (scope other : String) (listed more : DirectiveValues) (kept : σ) :
    (keeping.removeUnder reach disposition scope listed kept).bind
        (keeping.removeUnder reach disposition other more) =
      (keeping.removeUnder reach disposition other more kept).bind
        (keeping.removeUnder reach disposition scope listed) := by
  unfold removeUnder
  cases Disposition.meant? "removeFromPolicy" scope with
  | none => simp
  | some source =>
    cases Disposition.meant? "removeFromPolicy" other with
    | none => simp
    | some source' =>
      simp only [Option.map_some, Option.bind_some, Option.some.injEq]
      split_ifs <;> first | rfl | exact hcomm _ _ _

/-- Removals that find nothing to remove leave it so. -/
theorem eq_of_foldlM_removeUnder {kept next : σ}
    (hkept : ∀ listed, keeping.remove kept listed = kept) {entries : List (String × DirectiveValues)}
    (h : entries.foldlM (fun kept entry => keeping.removeUnder reach disposition entry.1 entry.2 kept)
      kept = some next) : next = kept := by
  induction entries with
  | nil => exact (Option.some.inj h).symm
  | cons entry rest ih =>
    obtain ⟨mid, hfirst, hrest⟩ := Option.bind_eq_some_iff.1 h
    obtain ⟨source, -, rfl⟩ := Option.map_eq_some_iff.1 hfirst
    rw [hkept, ite_self] at hrest
    exact ih hrest

/-- Of all that is added under scopes, a policy gets what is listed under its own, at once. Any scope
that cannot be read is refused. -/
theorem foldlM_addUnder {entries : List (String × DirectiveValues)}
    (hd : (entries.map Prod.fst).Nodup) (kept : σ) :
    entries.foldlM (fun kept entry => keeping.addUnder disposition entry.1 entry.2 kept) kept =
      if ∀ scope ∈ entries.map Prod.fst, (Disposition.meant? "addToPolicy" scope).isSome = true then
        match lookupName disposition.scope.name entries with
        | none => some kept
        | some listed => keeping.add kept listed
      else none := by
  induction entries generalizing kept with
  | nil =>
    rw [if_pos (by simp)]
    rfl
  | cons entry rest ih =>
    obtain ⟨scope, listed⟩ := entry
    obtain ⟨hscope, hrest⟩ := List.nodup_cons.1 hd
    rw [List.foldlM_cons]
    simp only [List.map_cons, List.forall_mem_cons]
    cases hm : Disposition.meant? "addToPolicy" scope with
    | none => simp [addUnder, hm]
    | some target =>
      have hfirst : keeping.addUnder disposition scope listed kept =
          if target = disposition then keeping.add kept listed else some kept := by
        rw [addUnder, hm]
        rfl
      simp only [hfirst, bind, Option.isSome_some, true_and]
      by_cases ht : target = disposition
      · subst ht
        obtain rfl := Disposition.eq_of_meant? hm
        -- The scope does not come again, so nothing is added behind it.
        have habsent : lookupName target.scope.name rest = none :=
          (lookupName_eq_none_iff _ rest).2 hscope
        simp only [if_true, ih hrest, habsent, lookupName]
        split
        · exact Option.bind_fun_some _
        · exact Option.bind_fun_none _
      · have hother : scope ≠ disposition.scope.name := by
          rintro rfl
          rw [Disposition.meant?_name] at hm
          exact ht (Option.some.inj hm).symm
        rw [if_neg ht, Option.bind_some, ih hrest, lookupName, if_neg hother]

end Keeping

/-- The same clear, and under each scope values that are listed alike. -/
structure Amendments.Alike (alike : DirectiveValues → DirectiveValues → Prop)
    (amendments others : Amendments) : Prop where
  cleared : amendments.cleared = others.cleared
  removed : ∀ scope, Option.Rel alike (amendments.removed.get? scope) (others.removed.get? scope)
  added : ∀ scope, Option.Rel alike (amendments.added.get? scope) (others.added.get? scope)

/-- Removals may change places, and what is listed alike does the same when it is removed, and comes
to alike results when it is added. -/
structure Keeping.Respects {σ : Type} (keeping : Keeping σ)
    (alike : DirectiveValues → DirectiveValues → Prop) (result : σ → σ → Prop) : Prop where
  remove_comm : ∀ kept listed other, keeping.remove (keeping.remove kept listed) other =
    keeping.remove (keeping.remove kept other) listed
  remove : ∀ kept listed other, alike listed other →
    keeping.remove kept listed = keeping.remove kept other
  add : ∀ kept listed other, alike listed other →
    Option.Rel result (keeping.add kept listed) (keeping.add kept other)
  refl : ∀ kept, result kept kept

/-- So amendments that are alike come to alike results. -/
theorem Keeping.Respects.editAll_edits {σ : Type} {keeping : Keeping σ}
    {alike : DirectiveValues → DirectiveValues → Prop} {result : σ → σ → Prop}
    (h : keeping.Respects alike result) (reach : RemovalReach) (disposition : Disposition) (kept : σ)
    {amendments others : Amendments} (ha : amendments.Alike alike others) :
    Option.Rel result (keeping.editAll reach disposition kept amendments.edits)
      (keeping.editAll reach disposition kept others.edits) := by
  have hremoved := OrderedMap.foldlM_entries_congr (keeping.removeUnder reach disposition)
    (fun scope other _ => keeping.removeUnder_comm reach disposition h.remove_comm scope other)
    fun scope => map_eq_of_rel (ha.removed scope) fun listed listed' hl => by
      funext kept
      simp only [removeUnder, h.remove kept listed listed' hl]
  rw [Keeping.editAll_edits, Keeping.editAll_edits, ha.cleared]
  simp only [hremoved]
  cases (keeping.editAll reach disposition kept (others.cleared.toList.map fun scope =>
      Edit.clear <$> Scope.parse "clear" scope)).bind (others.removed.entries.foldlM
        fun kept entry => keeping.removeUnder reach disposition entry.1 entry.2 kept) with
  | none => exact .none
  | some left =>
    have hscopes := OrderedMap.mem_keys_iff_of_rel ha.added
    have hown := ha.added disposition.scope.name
    simp only [OrderedMap.keys] at hscopes
    simp only [OrderedMap.get?] at hown
    simp only [Option.bind_some, foldlM_addUnder _ _ amendments.added.nodup,
      foldlM_addUnder _ _ others.added.nodup, hscopes]
    split
    · generalize lookupName disposition.scope.name amendments.added.entries = found at hown ⊢
      generalize lookupName disposition.scope.name others.added.entries = found' at hown ⊢
      cases hown with
      | none => exact .some (h.refl left)
      | some hl => exact h.add left _ _ hl
    · exact .none

end ContentSecurity
