import ContentSecurity.OrderedMap
import ContentSecurity.Proofs.Repetition
import Mathlib.Data.List.Perm.Subperm

/-!
Ordered maps told by their names and look-ups. A map is its names in order with what is found under
each of them; a walk over entries with different names changes what is found under these names, and
the order of names is that in which they are met first. Two maps have the same entries when their
look-ups agree, whatever the order.
-/
namespace ContentSecurity

theorem eq_of_lookupName {entries others : List (String × β)}
    (hk : entries.map Prod.fst = others.map Prod.fst) (hd : (entries.map Prod.fst).Nodup)
    (hl : ∀ name, lookupName name entries = lookupName name others) : entries = others := by
  induction entries generalizing others with
  | nil => exact (List.map_eq_nil_iff.1 hk.symm).symm
  | cons entry rest ih =>
    obtain ⟨name, value⟩ := entry
    obtain _ | ⟨⟨name', value'⟩, rest'⟩ := others
    · cases hk
    · obtain ⟨rfl, hrest⟩ := List.cons.inj hk
      obtain ⟨habsent, hd⟩ := List.nodup_cons.1 hd
      have hvalue : value = value' := by simpa [lookupName] using hl name
      have hsame : ∀ other, lookupName other rest = lookupName other rest' := by
        intro other
        by_cases ho : name = other
        · subst ho
          rw [(lookupName_eq_none_iff name rest).2 habsent,
            (lookupName_eq_none_iff name rest').2 (by rwa [← hrest])]
        · simpa [lookupName, ho] using hl other
      rw [hvalue, ih hrest hd hsame]

/-- A walk over entries of different names, each of which changes what is found under its name and
nothing else. -/
theorem find_foldl {σ γ : Type} (find : σ → String → γ) (step : σ → String × β → σ)
    (change : String → β → γ → γ) (entries : List (String × β))
    (hstep : ∀ entry ∈ entries, ∀ state name, find (step state entry) name =
      if entry.1 = name then change entry.1 entry.2 (find state entry.1) else find state name)
    (hd : (entries.map Prod.fst).Nodup) (state : σ) (name : String) :
    find (entries.foldl step state) name =
      match lookupName name entries with
      | none => find state name
      | some value => change name value (find state name) := by
  induction entries generalizing state with
  | nil => rfl
  | cons entry rest ih =>
    obtain ⟨key, value⟩ := entry
    obtain ⟨hkey, hrest⟩ := List.nodup_cons.1 hd
    rw [List.foldl_cons, ih (fun entry he => hstep entry (List.mem_cons_of_mem _ he)) hrest,
      hstep _ List.mem_cons_self]
    by_cases hk : key = name
    · subst hk
      have habsent : lookupName key rest = none := (lookupName_eq_none_iff key rest).2 hkey
      simp [lookupName, habsent]
    · simp [lookupName, hk]

/-- A walk in which each item brings its name, which goes to the end where it is new. -/
theorem keys_foldl {σ γ : Type} (keys : σ → List String) (hd : ∀ state, (keys state).Nodup)
    (step : σ → γ → σ) (name : γ → String)
    (hstep : ∀ state item, keys (step state item) = (keys state ++ [name item]).eraseDups)
    (items : List γ) (state : σ) :
    keys (items.foldl step state) = (keys state ++ items.map name).eraseDups := by
  induction items generalizing state with
  | nil => simp [eraseDups_of_nodup (hd state)]
  | cons item rest ih =>
    rw [List.foldl_cons, ih, hstep, eraseDups_append_left, List.append_assoc, List.map_cons,
      List.singleton_append]

/-- A walk that may be refused leaves the same in every order, if no two items see the order in which
they come. -/
theorem foldlM_perm {σ ι : Type} (step : σ → ι → Option σ) {items others : List ι}
    (h : items.Perm others) (hcomm : ∀ item ∈ items, ∀ other ∈ items, ∀ state,
      (step state item).bind (step · other) = (step state other).bind (step · item)) (state : σ) :
    items.foldlM step state = others.foldlM step state := by
  induction h generalizing state with
  | nil => rfl
  | cons item _ ih =>
    have hrest := fun a ha b hb => hcomm a (List.mem_cons_of_mem _ ha) b (List.mem_cons_of_mem _ hb)
    simp only [List.foldlM_cons]
    exact bind_congr fun next => ih hrest next
  | swap item other rest =>
    have hswap := hcomm item (by simp) other (by simp) state
    simp only [List.foldlM_cons, ← bind_assoc]
    exact congrArg (· >>= rest.foldlM step) hswap.symm
  | trans hfirst _ ih ih' =>
    refine (ih hcomm state).trans (ih' (fun a ha b hb => ?_) state)
    exact hcomm a (hfirst.mem_iff.2 ha) b (hfirst.mem_iff.2 hb)

theorem map_eq_of_rel {γ : Type} {r : β → β → Prop} {found other : Option β}
    (h : Option.Rel r found other) {view : β → γ}
    (hview : ∀ value value', r value value' → view value = view value') :
    found.map view = other.map view := by
  cases h with
  | none => rfl
  | some hr => exact congrArg some (hview _ _ hr)

theorem isSome_eq_of_rel {γ : Type} {r : β → γ → Prop} {found : Option β} {other : Option γ}
    (h : Option.Rel r found other) : found.isSome = other.isSome := by
  cases h <;> rfl

namespace OrderedMap

theorem ext_of_keys {map other : OrderedMap β} (hk : map.keys = other.keys)
    (hg : ∀ name, map.get? name = other.get? name) : map = other := by
  obtain ⟨entries, hd⟩ := map
  obtain ⟨others, hd'⟩ := other
  obtain rfl : entries = others := eq_of_lookupName hk hd hg
  rfl

theorem keys_alter_eq (map : OrderedMap β) (name : String) (change : Option β → β) :
    (map.alter name change).keys = (map.keys ++ [name]).eraseDups := by
  have hd : map.keys.eraseDups = map.keys := eraseDups_of_nodup map.nodup
  rw [keys_alter]
  split
  · next hm => rw [eraseDups_append_of_subset (by simpa using hm), hd]
  · next hm =>
    have hnew : (map.alter name change).keys.Nodup := (map.alter name change).nodup
    rw [keys_alter, if_neg hm] at hnew
    rw [eraseDups_of_nodup hnew]

/-- What is put under a new name stands at the end. -/
theorem entries_insert_of_not_mem (map : OrderedMap β) {name : String} (h : name ∉ map.keys)
    (value : β) : (map.insert name value).entries = map.entries ++ [(name, value)] := by
  have halter (entries : List (String × β)) (h : name ∉ entries.map Prod.fst) :
      alterName name (fun _ => value) entries = entries ++ [(name, value)] := by
    induction entries with
    | nil => rfl
    | cons entry rest ih =>
      rw [List.map_cons, List.mem_cons, not_or] at h
      rw [alterName, if_neg (Ne.symm h.1), ih h.2, List.cons_append]
  exact halter map.entries h

/-- A walk over items of different names, each of which changes the value of its name or takes the name
out, told entry by entry. -/
theorem entries_foldl_update {γ : Type} (change : γ → β → Option β) (items : List (String × γ))
    (hd : (items.map Prod.fst).Nodup) (map : OrderedMap β) :
    (items.foldl (fun map item => map.update item.1 (change item.2)) map).entries =
      map.entries.filterMap fun entry =>
        match lookupName entry.1 items with
        | none => some entry
        | some item => (change item entry.2).map (entry.1, ·) := by
  induction items generalizing map with
  | nil => exact List.filterMap_some.symm
  | cons item rest ih =>
    obtain ⟨key, item⟩ := item
    obtain ⟨hkey, hrest⟩ := List.nodup_cons.1 hd
    rw [List.foldl_cons, ih hrest]
    simp only [update, updateName, List.filterMap_filterMap]
    refine List.filterMap_congr fun entry _ => ?_
    obtain ⟨name, value⟩ := entry
    by_cases hn : name = key
    · subst hn
      have habsent : lookupName name rest = none := (lookupName_eq_none_iff name rest).2 hkey
      cases hc : change item value <;> simp [lookupName, habsent, hc]
    · simp [lookupName, hn, Ne.symm hn]

/-- Items that each change the value of their own name. Under a name stands what those items make that
have it, and nothing but what stood there where no item has it. -/
theorem get?_foldl_alter {γ : Type} (key : γ → String) (step : β → γ → β) (first : β)
    (items : List γ) (map : OrderedMap β) (name : String) :
    (items.foldl (fun map item => map.alter (key item) fun old => step (old.getD first) item)
      map).get? name =
      if items.filter (key · = name) = [] then map.get? name
      else some ((items.filter (key · = name)).foldl step ((map.get? name).getD first)) := by
  induction items generalizing map with
  | nil => rfl
  | cons item rest ih =>
    rw [List.foldl_cons, ih, map.get?_alter]
    by_cases hk : key item = name
    · subst hk
      by_cases hrest : rest.filter (key · = key item) = [] <;> simp [hrest]
    · simp [hk]

/-- What holds of every entry is told by look-ups. -/
theorem forall_entries_iff (map : OrderedMap β) (P : String × β → Prop) :
    (∀ entry ∈ map.entries, P entry) ↔
      ∀ name value, map.get? name = some value → P (name, value) := by
  simp only [get?_eq_some_iff, Prod.forall]

theorem mem_keys_iff (map : OrderedMap β) (name : String) :
    name ∈ map.keys ↔ (map.get? name).isSome = true := by
  rw [← not_iff_not, ← get?_eq_none_iff, Bool.not_eq_true, Option.isSome_eq_false_iff,
    Option.isNone_iff_eq_none]

theorem mem_keys_iff_of_rel {r : β → β → Prop} {map other : OrderedMap β}
    (h : ∀ name, Option.Rel r (map.get? name) (other.get? name)) (name : String) :
    name ∈ map.keys ↔ name ∈ other.keys := by
  rw [map.mem_keys_iff, other.mem_keys_iff, isSome_eq_of_rel (h name)]

/-- Maps have the same entries when each look-up finds the same in both, or nothing. -/
theorem sameEntries_iff (same : β → β → Bool) (map other : OrderedMap β) :
    map.sameEntries same other = true ↔
      ∀ name, Option.Rel (fun a b => same a b = true) (map.get? name) (other.get? name) := by
  have hlength (map : OrderedMap β) : map.size = map.keys.length := (List.length_map Prod.fst).symm
  simp only [sameEntries, Bool.and_eq_true, beq_iff_eq, List.all_eq_true, forall_entries_iff,
    hlength]
  constructor
  · rintro ⟨hsize, hall⟩ name
    cases hm : map.get? name with
    | some value =>
      obtain ⟨value', ho, hsame⟩ := (Option.any_eq_true _ _).1 (hall name value hm)
      rw [ho]
      exact .some hsame
    | none =>
      -- As many names as in the first map, and all of those among them.
      have hsub : map.keys ⊆ other.keys := by
        intro key hk
        obtain ⟨value, hv⟩ := Option.isSome_iff_exists.1 ((map.mem_keys_iff key).1 hk)
        obtain ⟨value', ho, -⟩ := (Option.any_eq_true _ _).1 (hall key value hv)
        exact (other.mem_keys_iff key).2 (by rw [ho]; rfl)
      have hperm : map.keys.Perm other.keys :=
        (List.subperm_of_subset map.nodup hsub).perm_of_length_le (Nat.le_of_eq hsize.symm)
      have hother : other.get? name = none := by
        rw [other.get?_eq_none_iff, ← hperm.mem_iff, ← map.get?_eq_none_iff]
        exact hm
      rw [hother]
      exact .none
  · intro h
    have hperm := (List.perm_ext_iff_of_nodup map.nodup other.nodup).2 (mem_keys_iff_of_rel h)
    refine ⟨hperm.length_eq, ?_⟩
    intro name value hv
    have hrel := h name
    rw [hv] at hrel
    generalize other.get? name = found at hrel ⊢
    cases hrel with
    | some hsame => exact hsame

/-- With equality of values, maps have the same entries when their look-ups agree. -/
theorem sameEntries_beq_iff [BEq β] [LawfulBEq β] (map other : OrderedMap β) :
    map.sameEntries (· == ·) other = true ↔ ∀ name, map.get? name = other.get? name := by
  rw [sameEntries_iff]
  refine forall_congr' fun name => ?_
  cases map.get? name <;> cases other.get? name <;> simp

theorem mem_map_entries_iff {γ : Type} (view : String → β → γ) (map : OrderedMap β) (name : String)
    (seen : γ) :
    (name, seen) ∈ map.entries.map (fun entry => (entry.1, view entry.1 entry.2)) ↔
      (map.get? name).map (view name) = some seen := by
  simp only [List.mem_map, Prod.exists, Prod.mk.injEq, Option.map_eq_some_iff, get?_eq_some_iff]
  constructor
  · rintro ⟨_, value, hv, rfl, rfl⟩
    exact ⟨value, hv, rfl⟩
  · rintro ⟨value, hv, rfl⟩
    exact ⟨name, value, hv, rfl, rfl⟩

/-- The entries, seen in one way or another, are the same up to order when the look-ups are. -/
theorem perm_map_entries {γ : Type} (view : String → β → γ) {map other : OrderedMap β}
    (h : ∀ name, (map.get? name).map (view name) = (other.get? name).map (view name)) :
    (map.entries.map fun entry => (entry.1, view entry.1 entry.2)).Perm
      (other.entries.map fun entry => (entry.1, view entry.1 entry.2)) := by
  have hnodup (map : OrderedMap β) :
      (map.entries.map fun entry => (entry.1, view entry.1 entry.2)).Nodup := by
    refine List.Nodup.of_map Prod.fst ?_
    rw [List.map_map]
    exact map.nodup
  refine (List.perm_ext_iff_of_nodup (hnodup map) (hnodup other)).2 ?_
  rintro ⟨name, seen⟩
  rw [mem_map_entries_iff, mem_map_entries_iff, h]

/-- A walk over the entries of a map, in which no entry sees what those of other names do, depends on
the look-ups only. -/
theorem foldlM_entries_congr {σ : Type} (step : String → β → σ → Option σ)
    (hcomm : ∀ name other, name ≠ other → ∀ value value' state,
      (step name value state).bind (step other value') =
        (step other value' state).bind (step name value))
    {map other : OrderedMap β}
    (h : ∀ name, (map.get? name).map (step name) = (other.get? name).map (step name)) (state : σ) :
    map.entries.foldlM (fun state entry => step entry.1 entry.2 state) state =
      other.entries.foldlM (fun state entry => step entry.1 entry.2 state) state := by
  have hacts := foldlM_perm (fun state (act : String × (σ → Option σ)) => act.2 state)
    (perm_map_entries step h) ?_ state
  · simpa only [List.foldlM_map] using hacts
  · rintro ⟨name, act⟩ ha ⟨name', act'⟩ ha' state
    rw [mem_map_entries_iff] at ha ha'
    by_cases hn : name = name'
    · subst hn
      obtain rfl : act = act' := Option.some.inj (ha.symm.trans ha')
      rfl
    · obtain ⟨value, -, rfl⟩ := Option.map_eq_some_iff.1 ha
      obtain ⟨value', -, rfl⟩ := Option.map_eq_some_iff.1 ha'
      exact hcomm name name' hn value value' state

end OrderedMap

end ContentSecurity
