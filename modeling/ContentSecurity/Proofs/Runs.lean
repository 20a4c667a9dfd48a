import Mathlib.Data.List.TakeWhile

/-!
The run of items of one kind with which a list begins. It is known by what follows it: nothing, or an
item of another kind.
-/
namespace ContentSecurity

variable {α : Type} {p : α → Bool} {run rest : List α}

theorem takeWhile_run_append (hp : ∀ a ∈ run, p a = true) (hr : ∀ a ∈ rest.head?, p a = false) :
    (run ++ rest).takeWhile p = run := by
  rw [List.takeWhile_append_of_pos hp]
  cases rest with
  | nil => simp
  | cons a tail => simp [hr a rfl]

theorem dropWhile_run_append (hp : ∀ a ∈ run, p a = true) (hr : ∀ a ∈ rest.head?, p a = false) :
    (run ++ rest).dropWhile p = rest := by
  rw [List.dropWhile_append_of_pos hp]
  cases rest with
  | nil => rfl
  | cons a tail => simp [hr a rfl]

/-- Behind the run comes an item of another kind. -/
theorem head?_dropWhile_run (p : α → Bool) (items : List α) :
    ∀ a ∈ (items.dropWhile p).head?, p a = false := by
  intro a ha
  have hend := List.head?_dropWhile_not p items
  rw [ha] at hend
  simpa using hend

end ContentSecurity
