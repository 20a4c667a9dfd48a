import ContentSecurity.Proofs.Directive.Verdict
import ContentSecurity.Proofs.Store.InPlace

/-!
What a refusal points at. Values are refused for the first directive that cannot be read beside what
is there, and an amendment for the first of its steps that fails. The refusal does not always say so
in the author's words. What is read as an allowance or as a report target is put down to `sandbox`
or `report-uri`, under whatever name it was listed; and a scope that can be read, but not by this
operation, is named by its own name, so that who wrote `both` is told of `all`.
-/
namespace ContentSecurity

/-! ## The directive to blame -/

/-- The directive to which refused values are put down. -/
def DirectiveForm.blamed (form : DirectiveForm) (name : String) : String :=
  match form.kind with
  | .sources => name
  | .allowances => "sandbox"
  | .reportTargets => "report-uri"

/-- The directive to which a refusal is put down when a directive cannot be read. -/
def Vocabulary.blamed (vocabulary : Vocabulary) (name : String) : String :=
  match vocabulary.get? name with
  | none => name
  | some form => form.blamed name

theorem DirectiveForm.Refuses.directive?_eq {form : DirectiveForm} {name : String}
    {values : List String} {refusal : Refusal} (h : form.Refuses name values refusal) :
    refusal.directive? = some (form.blamed name) := by
  cases h with
  | crowded hk =>
    rw [blamed, hk]
    rfl
  | unfit value =>
    unfold complaint blamed
    cases form.kind <;> rfl

theorem Vocabulary.directive?_of_readDirective {vocabulary : Vocabulary} {name : String}
    {values : List String} {refusal : Refusal}
    (h : vocabulary.readDirective name values = .error refusal) :
    refusal.directive? = some (vocabulary.blamed name) := by
  unfold blamed
  cases hf : vocabulary.get? name with
  | none =>
    rw [vocabulary.readDirective_of_get?_eq_none name values hf] at h
    cases h
    rfl
  | some form =>
    exact ((vocabulary.readDirective_eq_error_iff name values hf refusal).1 h).directive?_eq

/-- In CSP 1.0 the blame falls on the directive that cannot be read. -/
theorem Vocabulary.csp1_blamed (name : String) : csp1.blamed name = name := by
  have hall : ∀ entry ∈ csp1.entries, entry.2.blamed entry.1 = entry.1 := by decide
  unfold blamed
  cases hf : csp1.get? name with
  | none => rfl
  | some form => exact hall (name, form) ((csp1.get?_eq_some_iff name form).1 hf)

/-! ## The first directive that cannot be read -/

namespace Store

/-- Reads an entry of listed values behind what the policy has for its directive. -/
def readEntry (vocabulary : Vocabulary) (policy : Policy) (entry : String × List String) :
    Except Refusal Directive :=
  vocabulary.readDirective entry.1
    (((policy.get? entry.1).map Directive.written).getD [] ++ entry.2)

/-- A refusal of an addition to a policy: it comes from the first entry that cannot be read beside
what the policy has. -/
def Unreadable (vocabulary : Vocabulary) (policy : Policy) (listed : DirectiveValues)
    (refusal : Refusal) : Prop :=
  ∃ entry,
    FirstFailing (fun entry => ∃ directive, readEntry vocabulary policy entry = .ok directive)
      listed.entries entry ∧
    readEntry vocabulary policy entry = .error refusal

theorem add_eq_error_iff (store : Store) {scope : Scope} {target : Disposition}
    (ht : scope.disposition? = some target) (listed : DirectiveValues) (refusal : Refusal) :
    store.add scope listed = .error refusal ↔
      Unreadable store.vocabulary (store.policy target) listed refusal := by
  have hstaged : store.add scope listed = .error refusal ↔
      staged store.vocabulary (store.policy target) listed = .error refusal := by
    simp only [add, ht]
    cases staged store.vocabulary (store.policy target) listed with
    | ok directives => refine ⟨fun he => ?_, fun he => ?_⟩ <;> cases he
    | error met => simp [bind, Except.bind]
  rw [hstaged]
  exact mapM_eq_error_iff_firstFailing (readEntry store.vocabulary (store.policy target)) _ _

end Store

/-! ## Scopes as they are written -/

/-- The words for a scope. -/
def Scope.words : Scope → List String
  | enforce => ["enforce"]
  | reportOnly => ["report-only"]
  | all => ["all", "both"]

theorem Scope.parse_eq_ok_iff (operation text : String) (scope : Scope) :
    parse operation text = .ok scope ↔ text ∈ scope.words := by
  unfold parse
  split_ifs <;> cases scope <;> simp_all [words]

theorem Scope.parse_eq_error_iff (operation text : String) (refusal : Refusal) :
    parse operation text = .error refusal ↔
      (∀ scope : Scope, text ∉ scope.words) ∧ refusal = .unfitScope operation text := by
  simp only [← parse_eq_ok_iff operation]
  unfold parse
  split_ifs <;> simp [eq_comm]

theorem Scope.eq_of_mem_words {text : String} {scope other : Scope} (h : text ∈ scope.words)
    (ho : text ∈ other.words) : scope = other := by
  rw [← parse_eq_ok_iff ""] at h ho
  exact Except.ok.inj (h.symm.trans ho)

theorem Scope.exists_disposition? {scope : Scope} (h : scope ≠ .all) :
    ∃ target, scope.disposition? = some target := by
  cases scope with
  | all => exact absurd rfl h
  | enforce => exact ⟨.enforce, rfl⟩
  | reportOnly => exact ⟨.report, rfl⟩

namespace Step

def operation : Step → String
  | clear _ => "clear"
  | remove _ _ => "removeFromPolicy"
  | add _ _ => "addToPolicy"

/-- The scope as it was written. -/
def scope : Step → String
  | clear scope => scope
  | remove scope _ => scope
  | add scope _ => scope

/-- Everything can be cleared at once, but additions and removals mean one policy. -/
def Takes : Step → Scope → Prop
  | clear _, _ => True
  | _, scope => scope ≠ .all

/-- What is written can be read as a scope that the operation takes. -/
def Fits (asked : Step) : Prop :=
  ∃ scope : Scope, asked.scope ∈ scope.words ∧ asked.Takes scope

/-- The word by which a refusal names the scope. It is the word that was written, except that `both`
is named by its other word. -/
def reported (asked : Step) : String :=
  if asked.scope = "both" then "all" else asked.scope

/-- Why a step is refused: for its scope, or for the values that it adds. -/
inductive Refused (store : Store) : Step → Refusal → Prop where
  | scope (asked : Step) (h : ¬ asked.Fits) :
      Refused store asked (.unfitScope asked.operation asked.reported)
  | values (scope : Scope) (word : String) (hw : word ∈ scope.words) (target : Disposition)
      (ht : scope.disposition? = some target) (listed : DirectiveValues) (refusal : Refusal)
      (h : Store.Unreadable store.vocabulary (store.policy target) listed refusal) :
      Refused store (.add word listed) refusal

/-- What the step asks for under a scope. -/
def edit : Step → Scope → Edit
  | clear _, scope => .clear scope
  | remove _ listed, scope => .remove scope listed
  | add _ listed, scope => .add scope listed

theorem edited_eq (asked : Step) :
    InPlace.edited asked = asked.edit <$> Scope.parse asked.operation asked.scope := by
  cases asked <;> rfl

theorem reported_of_all {asked : Step} (h : asked.scope ∈ Scope.all.words) :
    asked.reported = "all" := by
  obtain h | h : asked.scope = "all" ∨ asked.scope = "both" := by simpa [Scope.words] using h
  all_goals
    rw [reported, h]
    decide

/-- A scope that does not fit is found out either when it is read or when the operation looks at it.
-/
theorem edited_of_not_fits {asked : Step} (h : ¬ asked.Fits) (store : Store) :
    (InPlace.edited asked >>= store.edit) =
      .error (.unfitScope asked.operation asked.reported) := by
  rw [edited_eq]
  cases hp : Scope.parse asked.operation asked.scope with
  | error met =>
    obtain ⟨hnone, rfl⟩ := (Scope.parse_eq_error_iff _ _ _).1 hp
    have hreported : asked.reported = asked.scope :=
      if_neg fun hb => hnone .all (by rw [hb]; decide)
    rw [hreported]
    rfl
  | ok scope =>
    have hword := (Scope.parse_eq_ok_iff _ _ _).1 hp
    have htakes : ¬ asked.Takes scope := fun ht => h ⟨scope, hword, ht⟩
    cases asked with
    | clear word => exact absurd trivial htakes
    | remove word listed =>
      obtain rfl : scope = .all := not_not.1 htakes
      rw [reported_of_all hword]
      rfl
    | add word listed =>
      obtain rfl : scope = .all := not_not.1 htakes
      rw [reported_of_all hword]
      rfl

theorem refused_iff_of_not_fits {asked : Step} (h : ¬ asked.Fits) (store : Store)
    (refusal : Refusal) :
    asked.Refused store refusal ↔ refusal = .unfitScope asked.operation asked.reported := by
  constructor
  · rintro (_ | ⟨scope, word, hw, target, ht⟩)
    · rfl
    · refine absurd ⟨scope, hw, ?_⟩ h
      rintro rfl
      cases ht
  · rintro rfl
    exact .scope asked h

/-- A step is refused for a scope that does not fit, or, when it adds, for what cannot be read. -/
theorem refused_iff (asked : Step) (store : Store) (refusal : Refusal) :
    (InPlace.edited asked >>= store.edit) = .error refusal ↔ asked.Refused store refusal := by
  by_cases h : asked.Fits
  · obtain ⟨scope, hword, htakes⟩ := h
    have hedited : (InPlace.edited asked >>= store.edit) = store.edit (asked.edit scope) := by
      rw [edited_eq, (Scope.parse_eq_ok_iff _ _ _).2 hword]
      rfl
    rw [hedited]
    cases asked with
    | clear word =>
      refine iff_of_false nofun ?_
      rintro (⟨_, hn⟩)
      exact hn ⟨scope, hword, htakes⟩
    | remove word listed =>
      obtain ⟨target, hd⟩ := Scope.exists_disposition? htakes
      have hok := (store.remove_eq_ok_iff scope listed _).2 ⟨target, hd, rfl⟩
      refine iff_of_false ?_ ?_
      · intro he
        cases hok.symm.trans he
      · rintro (⟨_, hn⟩)
        exact hn ⟨scope, hword, htakes⟩
    | add word listed =>
      obtain ⟨target, hd⟩ := Scope.exists_disposition? htakes
      rw [edit, Store.edit, store.add_eq_error_iff hd]
      constructor
      · exact .values scope word hword target hd listed refusal
      · rintro (⟨_, hn⟩ | ⟨other, _, hw, target', hd', _, _, hu⟩)
        · exact absurd ⟨scope, hword, htakes⟩ hn
        · obtain rfl := Scope.eq_of_mem_words hw hword
          obtain rfl := Option.some.inj (hd.symm.trans hd')
          exact hu
  · rw [edited_of_not_fits h, refused_iff_of_not_fits h, Except.error.injEq, eq_comm]

end Step

/-! ## The first step that fails -/

namespace InPlace

theorem run_steps_eq_ok_iff (steps : List Step) (store copy : Store) :
    (forM steps step).run store = .ok () copy ↔
      store.editAll (steps.map edited) = .ok copy := by
  rw [← outcome_steps]
  cases (forM steps step).run store <;> simp [outcome]

theorem run_step_eq_error_iff (asked : Step) (store : Store) (refusal : Refusal) :
    (∃ behind, (step asked).run store = .error refusal behind) ↔ asked.Refused store refusal := by
  rw [run_step, ← asked.refused_iff]
  cases edited asked >>= store.edit <;> simp [settled]

end InPlace

/-- Amendments are refused for the first of their steps that fails, on the copy that the steps
before it have changed. -/
theorem Store.apply_eq_error_iff (store : Store) (amendments : Amendments) (refusal : Refusal) :
    store.apply amendments = .error refusal ↔
      ∃ before asked after copy, amendments.steps = before ++ asked :: after ∧
        store.editAll (before.map InPlace.edited) = .ok copy ∧ asked.Refused copy refusal := by
  have hmet : store.apply amendments = .error refusal ↔
      InPlace.MetFirst store amendments.steps refusal := by
    rw [← InPlace.run_forM_step_eq_error_iff, apply, InPlace.edits_eq, ← InPlace.outcome_steps]
    cases (forM amendments.steps InPlace.step).run store <;> simp [InPlace.outcome]
  rw [hmet]
  simp only [InPlace.MetFirst, InPlace.run_steps_eq_ok_iff, exists_and_left,
    InPlace.run_step_eq_error_iff]

/-- Values that cannot be added are no fault of a scope. -/
theorem Step.refused_unfitScope_iff (asked : Step) (store : Store) (operation text : String) :
    asked.Refused store (.unfitScope operation text) ↔
      ¬ asked.Fits ∧ operation = asked.operation ∧ text = asked.reported := by
  by_cases h : asked.Fits
  · refine iff_of_false ?_ fun hn => hn.1 h
    rintro (⟨_, hn⟩ | ⟨_, _, _, _, _, _, _, entry, -, hr⟩)
    · exact hn h
    · cases Vocabulary.directive?_of_readDirective hr
  · rw [refused_iff_of_not_fits h]
    simp [h]

/-- A directive that cannot be read is blamed by its name, unless it takes allowances or report
targets: those are put down to `sandbox` and `report-uri`, which in CSP 1.0 makes no difference. An
addition is refused for the first entry that cannot be read beside what is there. Amendments are
refused for a scope when that is what is wrong with the first step that fails; the refusal names the
operation, and the scope by the word that was written, unless that word is `both`. -/
theorem refusals_point_at_first_fault (store : Store) :
    (∀ name values refusal, store.vocabulary.readDirective name values = .error refusal →
      refusal.directive? = some (store.vocabulary.blamed name)) ∧
    (∀ name, Vocabulary.csp1.blamed name = name) ∧
    (∀ scope target, scope.disposition? = some target → ∀ listed refusal,
      store.add scope listed = .error refusal →
        ∃ name values, FirstFailing (fun entry => ∃ directive,
            Store.readEntry store.vocabulary (store.policy target) entry = .ok directive)
          listed.entries (name, values) ∧
        Store.readEntry store.vocabulary (store.policy target) (name, values) = .error refusal ∧
        refusal.directive? = some (store.vocabulary.blamed name)) ∧
    ∀ amendments operation text, store.apply amendments = .error (.unfitScope operation text) ↔
      ∃ before asked after copy, amendments.steps = before ++ asked :: after ∧
        store.editAll (before.map InPlace.edited) = .ok copy ∧ ¬ asked.Fits ∧
        operation = asked.operation ∧
        text = if asked.scope = "both" then "all" else asked.scope := by
  refine ⟨fun name values refusal hr => Vocabulary.directive?_of_readDirective hr,
    Vocabulary.csp1_blamed, fun scope target ht listed refusal ha => ?_,
    fun amendments operation text => ?_⟩
  · obtain ⟨⟨name, values⟩, hfirst, hr⟩ := (store.add_eq_error_iff ht listed refusal).1 ha
    exact ⟨name, values, hfirst, hr, Vocabulary.directive?_of_readDirective hr⟩
  · rw [store.apply_eq_error_iff]
    simp only [Step.refused_unfitScope_iff]
    rfl

/-- The entries before and behind the unfit one may be read or not. Before the scope that does not
fit, the policies have been cleared and a directive has been added. -/
theorem refusals_point_at_first_fault_of_two_faults :
    let vocabulary : Vocabulary :=
      ⟨[("frame-box", ⟨.allowances, ["allow-forms"]⟩), ("img-src", ⟨.sources, ["self"]⟩)],
        by decide⟩
    let listed : DirectiveValues :=
      ⟨[("img-src", ["self"]), ("frame-box", ["allow-forms", "nope"]), ("font-src", ["*"])],
        by decide⟩
    let images : DirectiveValues := ⟨[("img-src", ["a.b"])], by decide⟩
    ∃ refusal, (Store.blank vocabulary).add .enforce listed = .error refusal ∧
      refusal.directive? = some (vocabulary.blamed "frame-box") ∧
      (∃ name values, (name, values) ∈ listed.entries ∧
        refusal.directive? = some (vocabulary.blamed name)) ∧
      (Store.blank vocabulary).apply
        ⟨some "both", ∅, ⟨[("enforce", images), ("both", images)], by decide⟩⟩ =
          .error (.unfitScope "addToPolicy" "all") := by
  intro vocabulary listed images
  obtain ⟨hread, -, hadd, happly⟩ := refusals_point_at_first_fault (.blank vocabulary)
  have ha : (Store.blank vocabulary).add .enforce listed = .error (.unknownAllowance "nope") := rfl
  obtain ⟨name, values, ⟨before, behind, he, -⟩, -, hd⟩ := hadd .enforce .enforce rfl listed _ ha
  have hlisted : (name, values) ∈ listed.entries := by
    rw [he]
    exact List.mem_append_right _ List.mem_cons_self
  have hunfit : ¬ (Step.add "both" images).Fits := by
    rintro ⟨scope, hw, ht⟩
    exact ht (Scope.eq_of_mem_words hw (by decide))
  refine ⟨_, ha, hread "frame-box" ["allow-forms", "nope"] _ rfl, ⟨name, values, hlisted, hd⟩, ?_⟩
  exact (happly _ _ _).2 ⟨[.clear "both", .add "enforce" images], .add "both" images, [], _, rfl,
    rfl, hunfit, rfl, by decide⟩

/-- Where a directive of another name takes allowances, the refusal points at `sandbox`, which is
not known here; and who writes `both` is told of `all`. -/
theorem refusals_point_at_sandbox_and_all :
    ∃ (store : Store) (listed : DirectiveValues) (amendments : Amendments) (refusal : Refusal),
      store.vocabulary.keys = ["frame-box"] ∧ listed.keys = ["frame-box"] ∧
      store.add .enforce listed = .error refusal ∧ refusal.directive? = some "sandbox" ∧
      amendments.steps.map Step.scope = ["both"] ∧
      store.apply amendments = .error (.unfitScope "addToPolicy" "all") := by
  let vocabulary : Vocabulary := ⟨[("frame-box", ⟨.allowances, ["allow-forms"]⟩)], by decide⟩
  exact ⟨.blank vocabulary, ⟨[("frame-box", ["nope"])], by decide⟩,
    ⟨none, ∅, ⟨[("both", ⟨[("frame-box", ["allow-forms"])], by decide⟩)], by decide⟩⟩,
    .unknownAllowance "nope", by decide, by decide, rfl, by decide, by decide, rfl⟩

end ContentSecurity
