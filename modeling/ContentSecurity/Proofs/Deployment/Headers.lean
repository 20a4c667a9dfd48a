import ContentSecurity.Proofs.Deployment.History
import ContentSecurity.Proofs.Header.Printing

/-!
Deployments with the directives of the first standard. Whatever is asked of them, their base is a store that
comes about by calls. So its policies print, and the headers for a request are refused only if what has been
recorded for the request is.
-/
namespace ContentSecurity

/-! ## Stores -/

/-- A policy that comes about with the first standard has a header value as soon as it has a directive,
and the value is read as its text. -/
theorem Policy.Reachable.fieldValue {policy : Policy} (h : policy.Reachable .csp1) :
    ∃ entry, policy.fieldValue = .ok entry ∧
      entry.map FieldValue.text? = if policy.isEmpty then none else some (some policy.render) := by
  have hprints := h.conforms.isPrinting_render Vocabulary.csp1_printing
  obtain ⟨hempty, hnone⟩ | ⟨hfull, value, hvalue, -, htext⟩ := Policy.fieldValue_cases hprints
  · exact ⟨none, hnone, by simp [hempty]⟩
  · exact ⟨some value, hvalue, by simp [hfull, htext]⟩

/-- The values of both policies of a store, told by their texts. -/
def Store.Prints (store : Store) (entries : Disposition → Option FieldValue) : Prop :=
  ∀ disposition, (entries disposition).map FieldValue.text? =
    if (store.policy disposition).isEmpty then none
    else some (some (store.policy disposition).render)

theorem Store.Reachable.headers {store : Store} (h : store.Reachable .csp1) :
    ∃ entries, store.Prints entries ∧ ∀ names : HeaderNames, store.headers names =
      .ok (names.headers entries) := by
  have hpolicies (disposition : Disposition) : (store.policy disposition).Reachable .csp1 :=
    ⟨store, disposition, h, rfl⟩
  choose entries hvalues htexts using fun disposition => (hpolicies disposition).fieldValue
  refine ⟨entries, htexts, fun names => ?_⟩
  have he : store.enforced.fieldValue = .ok (entries .enforce) := hvalues .enforce
  have hr : store.reported.fieldValue = .ok (entries .report) := hvalues .report
  rw [Store.headers, he, hr]
  rfl

/-- Each header has the text of a policy that has directives. -/
theorem Store.Prints.text_of_mem {store : Store} {entries : Disposition → Option FieldValue}
    (h : store.Prints entries) {names : HeaderNames} {header : String × FieldValue}
    (hm : header ∈ names.headers entries) : ∃ disposition,
      (store.policy disposition).isEmpty = false ∧
        header.2.text? = some (store.policy disposition).render := by
  have hentry {disposition : Disposition} {value : FieldValue}
      (hv : value ∈ (entries disposition).toList) : ∃ disposition,
        (store.policy disposition).isEmpty = false ∧
          value.text? = some (store.policy disposition).render := by
    have htext := h disposition
    rw [Option.mem_toList.1 hv, Option.map_some] at htext
    split at htext
    · cases htext
    · next hfull => exact ⟨disposition, by simpa using hfull, Option.some.inj htext⟩
  simp only [HeaderNames.headers, List.mem_append, List.mem_map] at hm
  obtain ⟨value, hv, rfl⟩ | ⟨value, hv, rfl⟩ := hm
  · exact hentry hv
  · exact hentry hv

/-! ## Deployments -/

namespace Deployment

section Reachable

variable {deployment : Deployment} {vocabulary : Vocabulary}
  (h : deployment.base.Reachable vocabulary)

include h

theorem reachable_after (ask : Ask) : (deployment.after ask).base.Reachable vocabulary := by
  have hbase := deployment.base_after ask
  cases ha : (deployment.answered ask).accepted? with
  | none =>
    rw [ha] at hbase
    rwa [hbase]
  | some site =>
    rw [ha, ((Policy.conforms_kept vocabulary).reachable h).1] at hbase
    exact SitePolicies.reachable_of_store hbase

theorem reachable_run (asks : List Ask) : (deployment.run asks).base.Reachable vocabulary := by
  induction asks generalizing deployment with
  | nil => exact h
  | cons ask rest ih => exact ih (reachable_after h ask)

theorem reachable_amended {recorded : Option Amendments} {store : Store}
    (hs : deployment.amended recorded = .ok store) : store.Reachable vocabulary := by
  cases recorded with
  | none =>
    cases hs
    exact h
  | some amendments =>
    have happly : deployment.base.call (.apply amendments) = .ok store := hs
    have hrun := h.run [.apply amendments]
    rwa [Store.run, Store.after, happly] at hrun

end Reachable

end Deployment

end ContentSecurity
