import Mathlib.Data.List.Induction
import Mathlib.Data.List.Nodup

/-!
Leaving out what is repeated. It may be done once at the end or again and again on the way; the items
that are left, and their order, are the same. They stand in the order in which they first come, and
the first of them that fails a test is the first of all.
-/
namespace ContentSecurity

variable {α β : Type} [BEq α] [LawfulBEq α] [BEq β] [LawfulBEq β]

theorem nodup_eraseDups (items : List α) : items.eraseDups.Nodup := by
  match items with
  | [] => exact List.nodup_nil
  | item :: rest =>
    rw [List.eraseDups_cons, List.nodup_cons]
    refine ⟨?_, nodup_eraseDups (rest.filter fun other => !other == item)⟩
    intro h
    have hf := (List.mem_filter.1 (List.mem_eraseDups.1 h)).2
    simp at hf
termination_by items.length
decreasing_by
  have h := List.length_filter_le (fun other => !other == item) rest
  simp only [List.length_cons]
  omega

theorem eraseDups_of_nodup {items : List α} (h : items.Nodup) : items.eraseDups = items := by
  induction items with
  | nil => rfl
  | cons item rest ih =>
    obtain ⟨hitem, hrest⟩ := List.nodup_cons.1 h
    have hkeep : rest.filter (fun other => !other == item) = rest := by
      refine List.filter_eq_self.2 ?_
      intro other ho
      simpa using ne_of_mem_of_not_mem ho hitem
    rw [List.eraseDups_cons, hkeep, ih hrest]

/-- What follows is only compared with which items came before. -/
theorem eraseDups_append_left (items more : List α) :
    (items.eraseDups ++ more).eraseDups = (items ++ more).eraseDups := by
  have hsame : more.removeAll items.eraseDups = more.removeAll items := by
    refine List.filter_congr fun item _ => ?_
    simp [List.mem_eraseDups]
  rw [List.eraseDups_append, List.eraseDups_append, hsame, eraseDups_of_nodup (nodup_eraseDups items)]

/-- Nothing is added by what has come before. -/
theorem eraseDups_append_of_subset {items more : List α} (h : more ⊆ items) :
    (items ++ more).eraseDups = items.eraseDups := by
  have hnone : more.removeAll items = [] := by
    refine List.filter_eq_nil_iff.2 fun item hi => ?_
    simpa [List.elem_eq_mem] using h hi
  rw [List.eraseDups_append, hnone, List.eraseDups_nil, List.append_nil]

/-- Behind items none of which is repeated, only what is new is added. -/
theorem eraseDups_append_of_nodup {items more : List α} (h : items.Nodup) (hm : more.Nodup) :
    (items ++ more).eraseDups = items ++ more.filter (· ∉ items) := by
  have hremove : more.removeAll items = more.filter (· ∉ items) :=
    List.filter_congr fun item _ => by simp
  rw [List.eraseDups_append, eraseDups_of_nodup h, hremove, eraseDups_of_nodup (hm.filter _)]

/-- Repeated items may be left out before each is replaced by something else. -/
theorem eraseDups_filterMap (change : α → Option β) (items : List α) :
    (items.eraseDups.filterMap change).eraseDups = (items.filterMap change).eraseDups := by
  match items with
  | [] => rfl
  | item :: rest =>
    have hlater {γ : Type} (change : α → Option γ) (hn : change item = none) :
        (rest.filter fun other => !other == item).filterMap change = rest.filterMap change := by
      rw [List.filterMap_filter]
      refine List.filterMap_congr fun other _ => ?_
      by_cases ho : other = item
      · simp [ho, hn]
      · simp [ho]
    rw [List.eraseDups_cons]
    cases hc : change item with
    | none =>
      rw [List.filterMap_cons_none hc, List.filterMap_cons_none hc,
        eraseDups_filterMap change, hlater change hc]
    | some found =>
      -- What comes later is left out where it becomes the same, so the change may refuse it.
      have hrefuse : (fun other => (change other).filter fun b => !b == found) item = none := by
        simp [hc]
      rw [List.filterMap_cons_some hc, List.filterMap_cons_some hc, List.eraseDups_cons,
        List.eraseDups_cons, List.filter_filterMap, List.filter_filterMap,
        eraseDups_filterMap fun other => (change other).filter fun b => !b == found,
        hlater _ hrefuse]
termination_by items.length
decreasing_by
  all_goals
    have h := List.length_filter_le (fun other => !other == item) rest
    simp only [List.length_cons]
    omega

/-- What follows may be rid of repetitions beforehand. -/
theorem eraseDups_append_right (items more : List α) :
    (items ++ more.eraseDups).eraseDups = (items ++ more).eraseDups := by
  have hremove (more : List α) :
      more.removeAll items = more.filterMap (Option.guard fun item => !items.elem item) := by
    rw [List.filterMap_eq_filter]
    rfl
  rw [List.eraseDups_append, List.eraseDups_append, hremove, hremove, eraseDups_filterMap]

/-! ## The order that is left -/

/-- Each item that is left stands behind those that were left of the items before it. -/
theorem exists_eq_of_eraseDups_eq {items front back : List α} {item : α}
    (h : items.eraseDups = front ++ item :: back) :
    ∃ seen rest, items = seen ++ item :: rest ∧ seen.eraseDups = front := by
  induction items using List.reverseRecOn generalizing back with
  | nil => simp at h
  | append_singleton items last ih =>
    by_cases hl : last ∈ items
    · rw [eraseDups_append_of_subset (by simpa using hl)] at h
      obtain ⟨seen, rest, rfl, hs⟩ := ih h
      exact ⟨seen, rest ++ [last], by simp, hs⟩
    · have hnew : (items ++ [last]).eraseDups = items.eraseDups ++ [last] := by
        simp [List.eraseDups_append, List.eraseDups_cons, List.removeAll, hl]
      rw [hnew] at h
      obtain rfl | ⟨back, other, rfl⟩ := List.eq_nil_or_concat back
      · obtain ⟨hs, hi⟩ := List.append_inj' h rfl
        cases hi
        exact ⟨items, [], rfl, hs⟩
      · rw [List.concat_eq_append, ← List.cons_append, ← List.append_assoc] at h
        obtain ⟨seen, rest, rfl, hs⟩ := ih (List.append_inj' h rfl).1
        exact ⟨seen, rest ++ [last], by simp, hs⟩

/-- What the items become, each but once and in the order in which it first comes: in front of it
stands what the items become that are seen before. -/
structure FirstSeen {α β : Type} (becomes : α → β → Prop) (items : List α) (found : List β) :
    Prop where
  distinct : found.Nodup
  mem_iff : ∀ b, b ∈ found ↔ ∃ a ∈ items, becomes a b
  ordered : ∀ front b back, found = front ++ b :: back →
    ∃ seen a rest, items = seen ++ a :: rest ∧ becomes a b ∧
      ∀ c, c ∈ front ↔ ∃ d ∈ seen, becomes d c

omit [BEq α] [LawfulBEq α] in
theorem firstSeen_eraseDups (change : α → Option β) (items : List α) :
    FirstSeen (fun a b => change a = some b) items (items.filterMap change).eraseDups where
  distinct := nodup_eraseDups _
  mem_iff := fun b => by rw [List.mem_eraseDups, List.mem_filterMap]
  ordered := by
    intro front b back h
    obtain ⟨seen, rest, hs, rfl⟩ := exists_eq_of_eraseDups_eq h
    obtain ⟨before, behind, rfl, rfl, hb⟩ := List.filterMap_eq_append_iff.1 hs
    obtain ⟨dropped, a, rest, rfl, hd, ha, -⟩ := List.filterMap_eq_cons_iff.1 hb
    refine ⟨before ++ dropped, a, rest, by simp, ha, fun c => ?_⟩
    have hnone : dropped.filterMap change = [] := List.filterMap_eq_nil_iff.2 hd
    rw [List.mem_eraseDups, ← List.mem_filterMap, List.filterMap_append, hnone, List.append_nil]

omit [BEq α] [LawfulBEq α] in
/-- Behind what is there already comes what the items become beside it. -/
theorem exists_firstSeen_append {old : List β} (h : old.Nodup) (change : α → Option β)
    (items : List α) :
    ∃ more, (old ++ items.filterMap change).eraseDups = old ++ more ∧
      FirstSeen (fun a b => change a = some b ∧ b ∉ old) items more := by
  have hremove : (items.filterMap change).removeAll old =
      items.filterMap fun a => (change a).filter fun b => !old.elem b :=
    List.filter_filterMap
  refine ⟨_, by rw [List.eraseDups_append, eraseDups_of_nodup h, hremove], ?_⟩
  simpa [Option.filter_eq_some_iff] using
    firstSeen_eraseDups (fun a => (change a).filter fun b => !old.elem b) items

/-- The first of the items that does not pass. -/
def FirstFailing {α : Type} (passes : α → Prop) (items : List α) (item : α) : Prop :=
  ∃ before behind, items = before ++ item :: behind ∧ (∀ other ∈ before, passes other) ∧
    ¬ passes item

omit [BEq α] [LawfulBEq α] in
theorem not_firstFailing_nil (passes : α → Prop) (item : α) : ¬ FirstFailing passes [] item := by
  rintro ⟨before, behind, h, -⟩
  simp at h

omit [BEq α] [LawfulBEq α] in
theorem firstFailing_cons_iff (passes : α → Prop) (head : α) (rest : List α) (item : α) :
    FirstFailing passes (head :: rest) item ↔
      ¬ passes head ∧ item = head ∨ passes head ∧ FirstFailing passes rest item := by
  constructor
  · rintro ⟨before, behind, h, hb, hi⟩
    cases before with
    | nil =>
      cases h
      exact Or.inl ⟨hi, rfl⟩
    | cons other before =>
      cases h
      rw [List.forall_mem_cons] at hb
      exact Or.inr ⟨hb.1, before, behind, rfl, hb.2, hi⟩
  · rintro (⟨hi, rfl⟩ | ⟨hp, before, behind, rfl, hb, hi⟩)
    · exact ⟨[], rest, rfl, nofun, hi⟩
    · exact ⟨head :: before, behind, rfl, List.forall_mem_cons.2 ⟨hp, hb⟩, hi⟩

omit [BEq α] [LawfulBEq α] in
/-- One item fails first where any fails. -/
theorem exists_firstFailing_iff (passes : α → Prop) (items : List α) :
    (∃ item, FirstFailing passes items item) ↔ ∃ item ∈ items, ¬ passes item := by
  induction items with
  | nil => simp [not_firstFailing_nil]
  | cons head rest ih =>
    simp only [firstFailing_cons_iff, exists_or, exists_and_left, ih, exists_eq, and_true]
    by_cases hp : passes head <;> simp [hp]

/-- Repetitions do not change which item fails first. -/
theorem firstFailing_eraseDups_iff (passes : α → Prop) (items : List α) (item : α) :
    FirstFailing passes items.eraseDups item ↔ FirstFailing passes items item := by
  constructor
  · rintro ⟨before, behind, h, hb, hi⟩
    obtain ⟨seen, rest, rfl, rfl⟩ := exists_eq_of_eraseDups_eq h
    exact ⟨seen, rest, rfl, fun other ho => hb other (List.mem_eraseDups.2 ho), hi⟩
  · rintro ⟨before, behind, rfl, hb, hi⟩
    have hnew : item ∉ before := fun hm => hi (hb item hm)
    have hsplit : (before ++ item :: behind).eraseDups = before.eraseDups ++
        item :: ((behind.removeAll before).filter fun other => !other == item).eraseDups := by
      rw [List.eraseDups_append, List.removeAll, List.filter_cons_of_pos (by simpa using hnew),
        List.eraseDups_cons]
      rfl
    exact ⟨_, _, hsplit, fun other ho => hb other (List.mem_eraseDups.1 ho), hi⟩

end ContentSecurity
