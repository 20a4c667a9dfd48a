import ContentSecurity.Json.RoundTrip
import ContentSecurity.Json.Value
import Mathlib.Data.List.Forall2

/-!
What readers make of what has been written. A reader takes a text if it finds the value in it and leaves
all that follows, whatever that is. Quoted texts are taken, and so are lists and objects as soon as
their items and members are.
-/
namespace ContentSecurity.Json

variable {α σ : Type}

/-- The reader finds the value in the text, and leaves whatever follows. -/
def Takes (reader : Reader α) (written : List Char) (found : α) : Prop :=
  ∀ rest, reader (written ++ rest) = .ok (found, rest)

theorem Takes.readAll {reader : Reader α} {written : List Char} {found : α}
    (h : Takes reader written found) : readAll reader (String.ofList written) = .ok found := by
  have hread := h []
  rw [List.append_nil] at hread
  simp only [Json.readAll, String.toList_ofList, hread, bind, Except.bind]
  rfl

theorem dropBlanks_cons {c : Char} (h : isBlank c = false) (rest : List Char) :
    dropBlanks (c :: rest) = c :: rest := by
  rw [dropBlanks, List.dropWhile_cons, h]
  rfl

theorem mark_cons {c : Char} (h : isBlank c = false) (rest : List Char) :
    mark c (c :: rest) = .ok ((), rest) := by
  rw [mark, dropBlanks_cons h]
  exact if_pos rfl

/-! ## Quoted texts -/

theorem quote_append (text : String) (rest : List Char) :
    quote text ++ rest = '"' :: (text.toList.flatMap escapeChar ++ '"' :: rest) := by
  simp [quote]

theorem dropBlanks_quote (text : String) (rest : List Char) :
    dropBlanks (quote text ++ rest) = quote text ++ rest := by
  rw [quote_append]
  exact dropBlanks_cons (by decide) _

theorem takes_text_quote (content : String) : Takes text (quote content) content := by
  intro rest
  rw [text, dropBlanks_quote, quote_append]
  simp only [quoted_flatMap_escapeChar, bind, Except.bind, String.ofList_toList]

theorem leaf_quote (strict : Bool) (content : String) (rest : List Char) :
    leaf strict (quote content ++ rest) = .ok (.text content, rest) := by
  rw [quote_append]
  simp only [leaf, quoted_flatMap_escapeChar, bind, Except.bind, String.ofList_toList]

theorem takes_value_quote (strict : Bool) (depth : Nat) (content : String) :
    Takes (value strict depth) (quote content) (.text content) := by
  intro rest
  have hleaf := leaf_quote strict content rest
  cases depth with
  | zero =>
    simp only [value, dropBlanks_quote]
    exact hleaf
  | succ depth =>
    simp only [value, dropBlanks_quote]
    rw [quote_append] at hleaf ⊢
    exact hleaf

/-! ## Items between commas -/

/-- A comma comes before each item but the first. -/
theorem writeItems_cons (first : List Char) (rest : List (List Char)) :
    writeItems (first :: rest) = first ++ rest.flatMap (',' :: ·) := by
  induction rest generalizing first with
  | nil => simp [writeItems]
  | cons second rest ih => simp [writeItems, ih second]

/-- So there are no more items than characters, if the closing mark is counted. -/
theorem length_le_length_writeItems (items : List (List Char)) :
    items.length ≤ (writeItems items).length + 1 := by
  have hcommas (rest : List (List Char)) :
      rest.length ≤ (rest.flatMap (',' :: ·)).length := by
    induction rest with
    | nil => exact Nat.le_refl 0
    | cons item rest ih =>
      simp only [List.flatMap_cons, List.length_append, List.length_cons]
      omega
  cases items with
  | nil => exact Nat.zero_le _
  | cons first rest =>
    have hrest := hcommas rest
    simp only [writeItems_cons, List.length_append, List.length_cons]
    omega

/-! ## Lists -/

/-- What is written begins with a mark that is no blank and does not close a list. -/
def Opens (written : List Char) : Prop :=
  ∃ c rest, written = c :: rest ∧ isBlank c = false ∧ c ≠ ']'

theorem opens_quote (text : String) : Opens (quote text) :=
  ⟨'"', _, rfl, by decide, by decide⟩

section Lists

variable {item : Reader α}

theorem element?_close (first : Bool) (rest : List Char) :
    element? item first (']' :: rest) = .ok (none, ']' :: rest) := by
  simp only [element?, dropBlanks_cons (show isBlank ']' = false by decide), if_true]

theorem element?_first {written : List Char} {found : α} (ho : Opens written)
    (h : Takes item written found) (rest : List Char) :
    element? item true (written ++ rest) = .ok (some found, rest) := by
  obtain ⟨c, more, rfl, hblank, hclose⟩ := ho
  have hread := h rest
  rw [List.cons_append] at hread ⊢
  simp only [element?, dropBlanks_cons hblank, if_neg hclose, if_true, hread, bind, Except.bind]

theorem element?_next {written : List Char} {found : α} (ho : Opens written)
    (h : Takes item written found) (rest : List Char) :
    element? item false (',' :: (written ++ rest)) = .ok (some found, rest) := by
  obtain ⟨c, more, rfl, hblank, hclose⟩ := ho
  have hread := h rest
  have hcomma : (',' : Char) ≠ ']' := by decide
  rw [List.cons_append] at hread ⊢
  simp only [element?, dropBlanks_cons (show isBlank ',' = false by decide), dropBlanks_cons hblank,
    if_neg hcomma, if_neg hclose, if_true, hread, bind, Except.bind, Bool.false_eq_true, if_false]

/-- The items after the first are read one by one, and then the closing bracket. -/
theorem elements_flatMap {written : List (List Char)} {found : List α}
    (h : List.Forall₂ (fun text value => Opens text ∧ Takes item text value) written found)
    {rounds : Nat} (hr : written.length < rounds) (rest : List Char) :
    elements item rounds false (written.flatMap (',' :: ·) ++ ']' :: rest) = .ok (found, rest) := by
  induction h generalizing rounds with
  | nil =>
    obtain ⟨rounds, rfl⟩ := Nat.exists_eq_succ_of_ne_zero (Nat.ne_of_gt hr)
    simp only [List.flatMap_nil, List.nil_append, elements, element?_close,
      mark_cons (show isBlank ']' = false by decide), bind, Except.bind]
  | @cons text value more others hfirst hmore ih =>
    obtain ⟨rounds, rfl⟩ := Nat.exists_eq_succ_of_ne_zero (Nat.ne_zero_of_lt hr)
    rw [List.length_cons, Nat.succ_lt_succ_iff] at hr
    simp only [List.flatMap_cons, List.cons_append, List.append_assoc, elements,
      element?_next hfirst.1 hfirst.2, ih hr, bind, Except.bind]

theorem takes_list {written : List (List Char)} {found : List α}
    (h : List.Forall₂ (fun text value => Opens text ∧ Takes item text value) written found) :
    Takes (list item) (writeItems written ++ [']']) found := by
  intro rest
  have hrounds := length_le_length_writeItems written
  rw [List.append_assoc, List.cons_append, List.nil_append, list]
  cases h with
  | nil =>
    simp only [writeItems, List.nil_append, elements, element?_close,
      mark_cons (show isBlank ']' = false by decide), bind, Except.bind]
  | @cons text value more others hfirst hmore =>
    simp only [writeItems_cons, List.append_assoc, elements, element?_first hfirst.1 hfirst.2, bind,
      Except.bind]
    rw [elements_flatMap hmore]
    simp only [writeItems_cons, List.length_append, List.length_cons] at hrounds ⊢
    omega

/-- A list of values is read as far down as lists may be nested. -/
theorem takes_value_writeList {strict : Bool} {depth : Nat} {written : List (List Char)}
    {found : List Value} (h : List.Forall₂
      (fun text item => Opens text ∧ Takes (value strict depth) text item) written found) :
    Takes (value strict (depth + 1)) (writeList written) (.list found) := by
  intro rest
  have hitems := takes_list h rest
  simp only [value, writeList, List.cons_append, dropBlanks_cons (show isBlank '[' = false by decide),
    hitems, bind, Except.bind]

end Lists

/-! ## Objects -/

/-- Members that are read one after the other lead from one state to another. -/
inductive Gathers (member : String → σ → Reader σ) : σ → List (String × List Char) → σ → Prop where
  | nil (state : σ) : Gathers member state [] state
  | cons {before after last : σ} {key : String} {written : List Char}
      {rest : List (String × List Char)} (first : Takes (member key before) (':' :: written) after)
      (others : Gathers member after rest last) : Gathers member before ((key, written) :: rest) last

section Objects

variable {member : String → σ → Reader σ}

theorem Gathers.append {before between last : σ} {written more : List (String × List Char)}
    (h : Gathers member before written between) (h' : Gathers member between more last) :
    Gathers member before (written ++ more) last := by
  induction h with
  | nil => exact h'
  | cons first _ ih => exact .cons first (ih h')

theorem takes_memberValue {item : Reader α} {written : List Char} {found : α}
    (h : Takes item written found) : Takes (memberValue item) (':' :: written) found := by
  intro rest
  simp only [memberValue, List.cons_append, mark_cons (show isBlank ':' = false by decide), h rest, bind,
    Except.bind]

theorem key?_close (first : Bool) (rest : List Char) :
    key? true first ('\x7d' :: rest) = .ok (none, '\x7d' :: rest) := by
  simp only [key?, dropBlanks_cons (show isBlank '\x7d' = false by decide), if_true]

theorem key?_first (key : String) (rest : List Char) :
    key? true true (quote key ++ rest) = .ok (some key, rest) := by
  have hclose : '"' ≠ '\x7d' := by decide
  rw [quote_append]
  simp only [key?, key?.key, dropBlanks_cons (show isBlank '"' = false by decide), if_neg hclose, if_true,
    quoted_flatMap_escapeChar, bind, Except.bind, String.ofList_toList]

theorem key?_next (key : String) (rest : List Char) :
    key? true false (',' :: (quote key ++ rest)) = .ok (some key, rest) := by
  have hclose : ',' ≠ '\x7d' := by decide
  rw [quote_append]
  simp only [key?, key?.key, dropBlanks_cons (show isBlank ',' = false by decide),
    dropBlanks_cons (show isBlank '"' = false by decide), if_neg hclose, if_true, Bool.false_eq_true,
    if_false, quoted_flatMap_escapeChar, bind, Except.bind, String.ofList_toList]

theorem writeMember_append (entry : String × List Char) (rest : List Char) :
    writeMember entry ++ rest = quote entry.1 ++ (':' :: entry.2 ++ rest) :=
  List.append_assoc _ _ _

/-- The members after the first are read one by one, and then the closing brace. -/
theorem members_flatMap {before last : σ} {written : List (String × List Char)}
    (h : Gathers member before written last) {rounds : Nat} (hr : written.length < rounds)
    (rest : List Char) :
    members true member rounds false before
      ((written.map writeMember).flatMap (',' :: ·) ++ '\x7d' :: rest) = .ok (last, rest) := by
  induction h generalizing rounds with
  | nil =>
    obtain ⟨rounds, rfl⟩ := Nat.exists_eq_succ_of_ne_zero (Nat.ne_of_gt hr)
    simp only [List.map_nil, List.flatMap_nil, List.nil_append, members, key?_close,
      mark_cons (show isBlank '\x7d' = false by decide), bind, Except.bind]
  | @cons before after last key text others hfirst _ ih =>
    obtain ⟨rounds, rfl⟩ := Nat.exists_eq_succ_of_ne_zero (Nat.ne_zero_of_lt hr)
    rw [List.length_cons, Nat.succ_lt_succ_iff] at hr
    simp only [List.map_cons, List.flatMap_cons, List.cons_append, List.append_assoc,
      writeMember_append, members, key?_next, bind, Except.bind]
    rw [← List.cons_append, hfirst]
    exact ih hr

theorem takes_object {start last : σ} {written : List (String × List Char)}
    (h : Gathers member start written last) :
    Takes (object true member start) (writeItems (written.map writeMember) ++ ['\x7d']) last := by
  intro rest
  have hrounds := length_le_length_writeItems (written.map writeMember)
  rw [List.append_assoc, List.cons_append, List.nil_append, object]
  cases h with
  | nil =>
    simp only [List.map_nil, writeItems, List.nil_append, members, key?_close,
      mark_cons (show isBlank '\x7d' = false by decide), bind, Except.bind]
  | @cons _ after _ key text others hfirst hothers =>
    rw [List.map_cons, writeItems_cons, List.length_cons, List.length_map] at hrounds
    simp only [List.map_cons, writeItems_cons, List.append_assoc, writeMember_append, members, key?_first,
      bind, Except.bind]
    rw [hfirst]
    refine members_flatMap hothers ?_ rest
    simp only [writeMember, List.length_append, List.length_cons] at hrounds ⊢
    omega

end Objects

end ContentSecurity.Json
