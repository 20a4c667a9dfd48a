import ContentSecurity.Proofs.Directive.Conformance
import ContentSecurity.Proofs.Store.History

/-!
What both policies of a store satisfy whatever has been asked of it: each directive stands under its
own name, which the vocabulary knows, and conforms to its form there.
-/
namespace ContentSecurity

structure Policy.Conforms (vocabulary : Vocabulary) (policy : Policy) : Prop where
  /-- The directive under a name is the one of that name. -/
  named : ∀ entry ∈ policy.entries.entries, entry.2.name = entry.1
  distinct : (policy.directives.map Directive.name).Nodup
  formed : ∀ directive ∈ policy.directives,
    ∃ form, vocabulary.get? directive.name = some form ∧ directive.Conforms form

namespace Policy

/-- A policy conforms when every look-up gives a directive of that name that conforms. -/
theorem conforms_iff (vocabulary : Vocabulary) (policy : Policy) :
    policy.Conforms vocabulary ↔
      policy.Each vocabulary fun form directive => directive.Conforms form := by
  constructor
  · intro h name directive hg
    have hn : directive.name = name :=
      h.named (name, directive) ((policy.entries.get?_eq_some_iff name directive).1 hg)
    refine ⟨hn, ?_⟩
    rw [← hn]
    exact h.formed directive ((policy.mem_directives_iff directive).2 ⟨name, hg⟩)
  · intro h
    have named : ∀ entry ∈ policy.entries.entries, entry.2.name = entry.1 := fun entry he =>
      (h entry.1 entry.2 ((policy.entries.get?_eq_some_iff _ _).2 he)).1
    refine ⟨named, ?_, ?_⟩
    · rw [h.map_name_directives]
      exact policy.entries.nodup
    · intro directive hd
      obtain ⟨name, hg⟩ := (policy.mem_directives_iff directive).1 hd
      obtain ⟨hn, hform⟩ := h name directive hg
      rwa [hn]

/-- Reading, placing and removing directives keep a policy conforming. -/
theorem conforms_kept (vocabulary : Vocabulary) : Kept vocabulary (Conforms vocabulary) := by
  have heach : Conforms vocabulary =
      Each vocabulary fun form directive => directive.Conforms form := by
    funext policy
    exact propext (conforms_iff vocabulary policy)
  rw [heach]
  exact each_kept (fun name _ _ _ ha => DirectiveForm.directive_conforms ha name)
    fun _ _ values hc => hc.without values

theorem Reachable.conforms {vocabulary : Vocabulary} {policy : Policy}
    (h : policy.Reachable vocabulary) : policy.Conforms vocabulary := by
  obtain ⟨store, disposition, hr, rfl⟩ := h
  exact ((conforms_kept vocabulary).reachable hr).2 disposition

end Policy

/-- Both policies of a store conform to its vocabulary, however it began and whatever has been
asked of it since. -/
theorem conforms_of_history (vocabulary : Vocabulary) (start : Store)
    (h : Store.Founded vocabulary start) (calls : List Call) (disposition : Disposition) :
    ((start.run calls).policy disposition).Conforms vocabulary :=
  ((Policy.conforms_kept vocabulary).reachable (h.reachable.run calls)).2 disposition

/-- The star is refused beside `self`, which a removal then takes from both policies; an amendment
without a scope is refused, and the star is let in at last. -/
theorem conforms_of_history_with_refusals :
    ∃ start, Store.Founded .csp1 start ∧
      ((start.run [
        .edit (.add .enforce ⟨[("img-src", ["*"])], by decide⟩),
        .setReach .bothPolicies,
        .edit (.remove .reportOnly ⟨[("img-src", ["self"])], by decide⟩),
        .apply ⟨none, ∅, ⟨[("everywhere", ∅)], by decide⟩⟩,
        .edit (.add .enforce ⟨[("img-src", ["*"])], by decide⟩)]).policy .enforce).Conforms
        .csp1 := by
  have hf : Store.Founded .csp1 _ :=
    .ofValues ⟨[("img-src", ["self"])], by decide⟩ ∅ _ rfl
  exact ⟨_, hf, conforms_of_history .csp1 _ hf _ .enforce⟩

end ContentSecurity
