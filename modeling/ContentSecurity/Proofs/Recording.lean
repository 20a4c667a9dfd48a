import ContentSecurity.Amendments
import ContentSecurity.Proofs.OrderedMap
import Mathlib.Data.List.Induction

/-!
What is left of calls that are recorded one after the other. Values are gathered: under each scope a
directive has the values of all calls that list any for it there. Of clears the last one is kept and no
other. So the order of calls shows in the order of what they list, and in which clear is kept.
-/
namespace ContentSecurity

theorem Scope.eq_of_name_eq {scope other : Scope} (h : scope.name = other.name) : scope = other := by
  have hread := parse_name "" scope
  rw [h, parse_name] at hread
  exact (Except.ok.inj hread).symm

/-- Values for a directive under a scope, as one call lists them. -/
structure Mention where
  scope : Scope
  directive : String
  values : List String

namespace RecordedCall

def cleared? : RecordedCall → Option Scope
  | clear scope => some scope
  | _ => none

def removed? : RecordedCall → Option Mention
  | remove scope directive values => some ⟨scope, directive, values⟩
  | _ => none

def added? : RecordedCall → Option Mention
  | add scope directive values => some ⟨scope, directive, values⟩
  | _ => none

theorem cleared?_eq_some_iff (call : RecordedCall) (scope : Scope) :
    call.cleared? = some scope ↔ call = .clear scope := by
  cases call <;> simp [cleared?]

theorem added?_eq_some_iff (call : RecordedCall) (mention : Mention) :
    call.added? = some mention ↔
      call = .add mention.scope mention.directive mention.values := by
  obtain ⟨scope, directive, values⟩ := mention
  cases call <;> simp [added?]

end RecordedCall

/-- What is recorded once all the calls have been made. Before the first nothing is. -/
def Amendments.recorded? (calls : List RecordedCall) : Option Amendments :=
  calls.foldl (fun recorded call => some ((recorded.getD ∅).record call)) none

/-! ## Values are gathered -/

def DirectiveValues.ofMentions (mentions : List Mention) : DirectiveValues :=
  mentions.foldl (fun listed mention => listed.extend mention.directive mention.values) ∅

def ScopedValues.ofMentions (mentions : List Mention) : ScopedValues :=
  mentions.foldl
    (fun listed mention => listed.extend mention.scope.name mention.directive mention.values) ∅

theorem DirectiveValues.get?_ofMentions (mentions : List Mention) (directive : String) :
    (ofMentions mentions).get? directive =
      if mentions.filter (·.directive = directive) = [] then none
      else some ((mentions.filter (·.directive = directive)).flatMap Mention.values) := by
  rw [List.flatMap_eq_foldl]
  exact OrderedMap.get?_foldl_alter Mention.directive (fun old mention => old ++ mention.values) []
    mentions ∅ directive

theorem ScopedValues.get?_ofMentions (mentions : List Mention) (scope : String) :
    (ofMentions mentions).get? scope =
      if mentions.filter (·.scope.name = scope) = [] then none
      else some (.ofMentions (mentions.filter (·.scope.name = scope))) :=
  OrderedMap.get?_foldl_alter (fun mention : Mention => mention.scope.name)
    (fun (old : DirectiveValues) mention => old.extend mention.directive mention.values) ∅ mentions ∅
    scope

/-- Under each scope, the values that are recorded come from mentions of that scope and directive. -/
theorem ScopedValues.mem_ofMentions {mentions : List Mention} {scope directive value : String}
    {listed : DirectiveValues} {values : List String}
    (hs : (ofMentions mentions).get? scope = some listed)
    (hd : listed.get? directive = some values) (hv : value ∈ values) :
    ∃ mention ∈ mentions, mention.scope.name = scope ∧ mention.directive = directive ∧
      value ∈ mention.values := by
  rw [get?_ofMentions, Option.ite_none_left_eq_some] at hs
  obtain ⟨-, hs⟩ := hs
  rw [← Option.some.inj hs, DirectiveValues.get?_ofMentions, Option.ite_none_left_eq_some] at hd
  obtain ⟨-, hd⟩ := hd
  rw [← Option.some.inj hd] at hv
  obtain ⟨mention, hm, hv⟩ := List.mem_flatMap.1 hv
  simp only [List.mem_filter, decide_eq_true_eq] at hm
  exact ⟨mention, hm.1.1, hm.1.2, hm.2, hv⟩

/-- The same directives, and for each of them the same values, in whatever order and number. -/
def DirectiveValues.SameSets (listed other : DirectiveValues) : Prop :=
  ∀ directive, Option.Rel (fun values others => ∀ value, value ∈ values ↔ value ∈ others)
    (listed.get? directive) (other.get? directive)

theorem filter_eq_nil_iff_of_mem {α : Type} {items others : List α}
    (h : ∀ item, item ∈ items ↔ item ∈ others) (keep : α → Bool) :
    items.filter keep = [] ↔ others.filter keep = [] := by
  simp only [List.filter_eq_nil_iff, h]

/-- Only which mentions there are makes a difference to the values, not their order. -/
theorem DirectiveValues.sameSets_ofMentions {mentions others : List Mention}
    (h : ∀ mention, mention ∈ mentions ↔ mention ∈ others) :
    (ofMentions mentions).SameSets (ofMentions others) := by
  intro directive
  rw [get?_ofMentions, get?_ofMentions]
  by_cases hn : mentions.filter (·.directive = directive) = []
  · rw [if_pos hn, if_pos ((filter_eq_nil_iff_of_mem h _).1 hn)]
    exact .none
  · rw [if_neg hn, if_neg fun ho => hn ((filter_eq_nil_iff_of_mem h _).2 ho)]
    refine .some fun value => ?_
    simp only [List.mem_flatMap, List.mem_filter, h]

theorem ScopedValues.sameSets_ofMentions {mentions others : List Mention}
    (h : ∀ mention, mention ∈ mentions ↔ mention ∈ others) (scope : String) :
    Option.Rel DirectiveValues.SameSets ((ofMentions mentions).get? scope)
      ((ofMentions others).get? scope) := by
  rw [get?_ofMentions, get?_ofMentions]
  by_cases hn : mentions.filter (·.scope.name = scope) = []
  · rw [if_pos hn, if_pos ((filter_eq_nil_iff_of_mem h _).1 hn)]
    exact .none
  · rw [if_neg hn, if_neg fun ho => hn ((filter_eq_nil_iff_of_mem h _).2 ho)]
    refine .some (DirectiveValues.sameSets_ofMentions fun mention => ?_)
    simp only [List.mem_filter, h]

/-! ## What is recorded -/

namespace Amendments

/-- What calls leave is told part by part: the last clear, and the mentions of removals and of
additions. -/
theorem foldl_record (calls : List RecordedCall) :
    calls.foldl record ∅ =
      ⟨(calls.filterMap RecordedCall.cleared?).getLast?.map Scope.name,
        .ofMentions (calls.filterMap RecordedCall.removed?),
        .ofMentions (calls.filterMap RecordedCall.added?)⟩ := by
  -- The last call is recorded beside what all the others have left.
  induction calls using List.reverseRecOn with
  | nil => rfl
  | append_singleton calls call ih =>
    rw [List.foldl_append, ih]
    cases call <;>
      simp [record, ScopedValues.ofMentions, RecordedCall.cleared?, RecordedCall.removed?,
        RecordedCall.added?, List.filterMap_append, List.filterMap_cons]

/-- The first call begins with amendments that ask for nothing. -/
theorem recorded?_eq (calls : List RecordedCall) :
    recorded? calls = if calls = [] then none else some (calls.foldl record ∅) := by
  induction calls using List.reverseRecOn with
  | nil => rfl
  | append_singleton calls call ih =>
    rw [recorded?] at ih
    rw [recorded?, List.foldl_append, ih]
    by_cases hc : calls = []
    · subst hc
      rfl
    · simp [hc]

end Amendments

end ContentSecurity
