/-!
Finite maps from names that remember the order in which the names first came. Writing to a name that
is already there keeps its place; a new name goes to the end.
-/
namespace ContentSecurity

/-- The value next to a name. -/
def lookupName (name : String) : List (String × β) → Option β
  | [] => none
  | (key, value) :: rest => if key = name then some value else lookupName name rest

/-- Changes the value next to a name, or makes one at the end. -/
def alterName (name : String) (change : Option β → β) : List (String × β) → List (String × β)
  | [] => [(name, change none)]
  | (key, value) :: rest =>
    if key = name then (key, change (some value)) :: rest
    else (key, value) :: alterName name change rest

theorem lookupName_alterName (name other : String) (change : Option β → β)
    (entries : List (String × β)) :
    lookupName other (alterName name change entries) =
      if name = other then some (change (lookupName name entries))
      else lookupName other entries := by
  induction entries with
  | nil => simp [alterName, lookupName]
  | cons entry rest ih =>
    obtain ⟨key, value⟩ := entry
    by_cases h : key = name
    · subst h
      by_cases h' : key = other <;> simp [alterName, lookupName, h']
    · by_cases h' : key = other
      · subst h'
        have h'' : ¬ name = key := fun e => h e.symm
        simp [alterName, lookupName, h, h'']
      · simp [alterName, lookupName, h, h', ih]

theorem map_fst_alterName (name : String) (change : Option β → β) (entries : List (String × β)) :
    (alterName name change entries).map Prod.fst =
      if name ∈ entries.map Prod.fst then entries.map Prod.fst
      else entries.map Prod.fst ++ [name] := by
  induction entries with
  | nil => simp [alterName]
  | cons entry rest ih =>
    obtain ⟨key, value⟩ := entry
    by_cases h : key = name
    · simp [alterName, h]
    · have h' : ¬ name = key := fun e => h e.symm
      by_cases hm : name ∈ rest.map Prod.fst <;> simp_all [alterName]

theorem lookupName_eq_none_iff (name : String) (entries : List (String × β)) :
    lookupName name entries = none ↔ name ∉ entries.map Prod.fst := by
  induction entries with
  | nil => simp [lookupName]
  | cons entry rest ih =>
    obtain ⟨key, value⟩ := entry
    by_cases h : key = name
    · simp [lookupName, h]
    · have h' : ¬ name = key := fun e => h e.symm
      simpa [lookupName, h, h'] using ih

/-- Where no name comes twice, looking up finds every entry. -/
theorem lookupName_eq_some_iff {entries : List (String × β)}
    (h : (entries.map Prod.fst).Nodup) (name : String) (value : β) :
    lookupName name entries = some value ↔ (name, value) ∈ entries := by
  induction entries with
  | nil => simp [lookupName]
  | cons entry rest ih =>
    obtain ⟨key, first⟩ := entry
    obtain ⟨hkey, hrest⟩ := List.nodup_cons.1 h
    by_cases he : key = name
    · subst he
      have absent : (key, value) ∉ rest := fun hm => hkey (List.mem_map.2 ⟨_, hm, rfl⟩)
      simp [lookupName, absent, eq_comm]
    · have he' : ¬ name = key := fun e => he e.symm
      simpa [lookupName, he, he'] using ih hrest

/-- Changes the value next to a name, or takes the entry out. -/
def updateName (name : String) (change : β → Option β) (entries : List (String × β)) :
    List (String × β) :=
  entries.filterMap fun (key, value) =>
    if key = name then (change value).map (key, ·) else some (key, value)

theorem updateName_cons (name : String) (change : β → Option β) (key : String) (value : β)
    (rest : List (String × β)) :
    updateName name change ((key, value) :: rest) =
      (if key = name then ((change value).map (key, ·)).toList else [(key, value)]) ++
        updateName name change rest := by
  by_cases h : key = name
  · cases hc : change value <;> simp [updateName, h, hc]
  · simp [updateName, h]

/-- What is left keeps its order. -/
theorem map_fst_updateName_sublist (name : String) (change : β → Option β)
    (entries : List (String × β)) :
    ((updateName name change entries).map Prod.fst).Sublist (entries.map Prod.fst) := by
  induction entries with
  | nil => simp [updateName]
  | cons entry rest ih =>
    obtain ⟨key, value⟩ := entry
    rw [updateName_cons]
    by_cases h : key = name
    · cases hc : change value with
      | none => simpa [h, hc] using ih.cons name
      | some changed => simpa [h, hc] using ih.cons_cons name
    · simpa [h] using ih.cons_cons key

theorem lookupName_updateName {entries : List (String × β)}
    (h : (entries.map Prod.fst).Nodup) (name other : String) (change : β → Option β) :
    lookupName other (updateName name change entries) =
      if name = other then (lookupName name entries).bind change else lookupName other entries := by
  induction entries with
  | nil => simp [updateName, lookupName]
  | cons entry rest ih =>
    obtain ⟨key, value⟩ := entry
    obtain ⟨hkey, hrest⟩ := List.nodup_cons.1 h
    rw [updateName_cons]
    by_cases hk : key = name
    · subst hk
      have absent : lookupName key rest = none := (lookupName_eq_none_iff key rest).2 hkey
      by_cases ho : key = other
      · subst ho
        cases hc : change value <;> simp [lookupName, hc, ih hrest, absent]
      · cases hc : change value <;> simp [lookupName, ho, ih hrest]
    · by_cases ho : key = other
      · subst ho
        have hk' : ¬ name = key := fun e => hk e.symm
        simp [lookupName, hk, hk']
      · simp [lookupName, hk, ho, ih hrest]

/-- A list of named values in which no name comes twice. -/
structure OrderedMap (β : Type) where
  entries : List (String × β)
  nodup : (entries.map Prod.fst).Nodup
  deriving DecidableEq

namespace OrderedMap

def empty : OrderedMap β :=
  ⟨[], List.nodup_nil⟩

instance : EmptyCollection (OrderedMap β) := ⟨empty⟩

instance : Inhabited (OrderedMap β) := ⟨empty⟩

def get? (map : OrderedMap β) (name : String) : Option β :=
  lookupName name map.entries

def contains (map : OrderedMap β) (name : String) : Bool :=
  (map.get? name).isSome

def keys (map : OrderedMap β) : List String :=
  map.entries.map Prod.fst

def values (map : OrderedMap β) : List β :=
  map.entries.map Prod.snd

def size (map : OrderedMap β) : Nat :=
  map.entries.length

def isEmpty (map : OrderedMap β) : Bool :=
  map.entries.isEmpty

/-- Changes the value of a name, or makes one at the end. -/
def alter (map : OrderedMap β) (name : String) (change : Option β → β) : OrderedMap β where
  entries := alterName name change map.entries
  nodup := by
    rw [map_fst_alterName]
    split
    · exact map.nodup
    · rename_i absent
      refine List.nodup_append.2 ⟨map.nodup, by simp, ?_⟩
      intro a ha b hb
      simp only [List.mem_singleton] at hb
      rintro rfl
      exact absent (hb ▸ ha)

theorem get?_alter (map : OrderedMap β) (name other : String) (change : Option β → β) :
    (map.alter name change).get? other =
      if name = other then some (change (map.get? name)) else map.get? other :=
  lookupName_alterName name other change map.entries

theorem keys_alter (map : OrderedMap β) (name : String) (change : Option β → β) :
    (map.alter name change).keys =
      if name ∈ map.keys then map.keys else map.keys ++ [name] :=
  map_fst_alterName name change map.entries

theorem get?_eq_some_iff (map : OrderedMap β) (name : String) (value : β) :
    map.get? name = some value ↔ (name, value) ∈ map.entries :=
  lookupName_eq_some_iff map.nodup name value

theorem get?_eq_none_iff (map : OrderedMap β) (name : String) :
    map.get? name = none ↔ name ∉ map.keys :=
  lookupName_eq_none_iff name map.entries

def insert (map : OrderedMap β) (name : String) (value : β) : OrderedMap β :=
  map.alter name fun _ => value

theorem get?_insert (map : OrderedMap β) (name other : String) (value : β) :
    (map.insert name value).get? other =
      if name = other then some value else map.get? other :=
  map.get?_alter name other fun _ => value

/-- Changes the value of a name, or takes the name out. A name that is not there stays away. -/
def update (map : OrderedMap β) (name : String) (change : β → Option β) : OrderedMap β :=
  ⟨updateName name change map.entries,
    map.nodup.sublist (map_fst_updateName_sublist name change map.entries)⟩

theorem get?_update (map : OrderedMap β) (name other : String) (change : β → Option β) :
    (map.update name change).get? other =
      if name = other then (map.get? name).bind change else map.get? other :=
  lookupName_updateName map.nodup name other change

/-- Of two entries of one name the later value counts, at the place of the first. -/
def ofList (entries : List (String × β)) : OrderedMap β :=
  entries.foldl (fun map entry => map.insert entry.1 entry.2) empty

/-- Same names with the same values, in whatever order. -/
def sameEntries (same : β → β → Bool) (map other : OrderedMap β) : Bool :=
  map.size == other.size && map.entries.all fun (name, value) =>
    (other.get? name).any (same value)

end OrderedMap

end ContentSecurity
