import ContentSecurity.Proofs.OrderedMap
import ContentSecurity.Proofs.Store.History

/-!
What a look-up finds in a policy after directives have been placed or values removed. Listed values
name each directive once, so every directive meets the entry of its name and no other.
-/
namespace ContentSecurity.Store

theorem name_of_merged {vocabulary : Vocabulary} {policy : Policy} {entry : String × List String}
    {directive : Directive} (h : merged vocabulary policy entry = some directive) :
    directive.name = entry.1 := by
  rw [merged_eq_some_iff, Vocabulary.readDirective_eq_ok_iff] at h
  obtain ⟨form, -, -, rfl⟩ := h
  rfl

/-- Placing what entries make, each under its name. -/
theorem get?_foldl_insert (make : String × List String → Option Directive)
    (hname : ∀ entry directive, make entry = some directive → directive.name = entry.1)
    (entries : List (String × List String)) (hmake : ∀ entry ∈ entries, (make entry).isSome = true)
    (hd : (entries.map Prod.fst).Nodup) (policy : Policy) (name : String) :
    ((entries.filterMap make).foldl Policy.insert policy).get? name =
      match lookupName name entries with
      | none => policy.get? name
      | some values => make (name, values) := by
  rw [List.foldl_filterMap,
    find_foldl Policy.get? _ (fun name values _ => make (name, values)) entries ?_ hd policy name]
  · cases lookupName name entries <;> rfl
  · intro entry he policy name
    obtain ⟨directive, hm⟩ := Option.isSome_iff_exists.1 (hmake entry he)
    simp only [hm, Policy.get?_insert, hname _ _ hm]

theorem get?_withAll (vocabulary : Vocabulary) (policy : Policy) (listed : DirectiveValues)
    (hr : Addable vocabulary policy listed) (name : String) :
    (withAll vocabulary policy listed).get? name =
      match listed.get? name with
      | none => policy.get? name
      | some values => merged vocabulary policy (name, values) :=
  get?_foldl_insert (merged vocabulary policy) (fun _ _ => name_of_merged) listed.entries hr
    listed.nodup policy name

theorem get?_withoutAll (policy : Policy) (listed : DirectiveValues) (name : String) :
    (withoutAll policy listed).get? name =
      match listed.get? name with
      | none => policy.get? name
      | some values => (policy.get? name).bind (·.left? values) := by
  rw [withoutAll, find_foldl Policy.get? (fun policy entry => policy.without entry.1 entry.2)
    (fun _ values found => found.bind (·.left? values)) listed.entries
    (fun entry _ policy name => policy.get?_without entry.1 name entry.2) listed.nodup policy name,
    OrderedMap.get?]
  cases lookupName name listed.entries <;> rfl

end ContentSecurity.Store
