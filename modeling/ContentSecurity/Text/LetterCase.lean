/-!
Comparison of texts up to the case of the letters `A` to `Z`. Every other character, accented
letters among them, is compared as it stands.
-/
namespace ContentSecurity.Text

/-- The letters `A` to `Z` written small, every other character as it is. -/
def fold (text : List Char) : List Char :=
  text.map Char.toLower

@[simp] theorem fold_nil : fold [] = [] := rfl

@[simp] theorem fold_cons (c : Char) (text : List Char) :
    fold (c :: text) = c.toLower :: fold text := rfl

@[simp] theorem fold_append (s t : List Char) : fold (s ++ t) = fold s ++ fold t := by
  simp [fold]

@[simp] theorem length_fold (text : List Char) : (fold text).length = text.length := by
  simp [fold]

/-- Two texts are the same up to the case of `A` to `Z`. -/
def alike (s t : List Char) : Bool :=
  fold s == fold t

/-- What follows `head` when the text starts with it exactly. -/
def after? (head text : List Char) : Option (List Char) :=
  if text.take head.length = head then some (text.drop head.length) else none

theorem after?_eq_some_iff {head text rest : List Char} :
    after? head text = some rest ↔ text = head ++ rest := by
  unfold after?
  constructor
  · intro h
    split at h
    · next front =>
      obtain rfl := Option.some.inj h
      exact (List.take_append_drop head.length text).symm.trans (by rw [front])
    · cases h
  · rintro rfl
    simp

/-- What follows `head` when the text starts with it up to the case of `A` to `Z`. -/
def afterFolded? (head text : List Char) : Option (List Char) :=
  if alike (text.take head.length) head then some (text.drop head.length) else none

theorem afterFolded?_eq_some_iff {head text rest : List Char} :
    afterFolded? head text = some rest ↔
      ∃ front, text = front ++ rest ∧ alike front head = true := by
  unfold afterFolded?
  constructor
  · intro h
    split at h
    · next front =>
      obtain rfl := Option.some.inj h
      exact ⟨text.take head.length, by simp, front⟩
    · cases h
  · rintro ⟨front, rfl, same⟩
    have length : front.length = head.length := by
      have folded : fold front = fold head := by simpa [alike] using same
      simpa using congrArg List.length folded
    simp [← length, same]

end ContentSecurity.Text
