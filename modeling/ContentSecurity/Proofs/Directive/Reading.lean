import ContentSecurity.Directive
import ContentSecurity.Proofs.Repetition

/-!
Reading a directive, as one statement. Which values may stand together in a directive depends on
which values there are and not on their order or number, and what is read of them is what each is
on its own, without repetition.
-/
namespace ContentSecurity

theorem eq_singleton_of_nodup {α : Type} {items : List α} (hd : items.Nodup) {item : α}
    (hm : item ∈ items) (h : ∀ other ∈ items, other = item) : items = [item] := by
  have hall : items = List.replicate items.length item := List.eq_replicate_of_mem h
  have hpos : 0 < items.length := List.length_pos_of_mem hm
  have hone : items.length = 1 := by
    rw [hall] at hd
    have := List.nodup_replicate.1 hd
    omega
  rw [hall, hone]
  rfl

/-- Reading a list item by item succeeds when each item can be read. -/
theorem mapM_eq_ok_iff {α β ε : Type} (found : α → Option β) {read : α → Except ε β}
    (h : ∀ a, (read a).toOption = found a) (items : List α) (results : List β) :
    items.mapM read = .ok results ↔
      (∀ a ∈ items, (found a).isSome = true) ∧ results = items.filterMap found := by
  induction items generalizing results with
  | nil =>
    simp only [List.mapM_nil, pure, Except.pure, Except.ok.injEq, List.filterMap_nil]
    simp
  | cons a rest ih =>
    have ha := h a
    rw [List.mapM_cons]
    cases hr : read a with
    | error fault =>
      rw [hr] at ha
      simp [bind, Except.bind, ← ha, Except.toOption]
    | ok b =>
      rw [hr] at ha
      have hb : found a = some b := ha.symm
      cases ht : rest.mapM read with
      | error fault =>
        have hn : ¬ ∀ c ∈ rest, (found c).isSome = true := by
          intro hc
          have := (ih (rest.filterMap found)).2 ⟨hc, rfl⟩
          rw [ht] at this
          cases this
        simp [bind, Except.bind, hb, hn]
      | ok bs =>
        obtain ⟨hc, hbs⟩ := (ih bs).1 ht
        have hall : ∀ c ∈ a :: rest, (found c).isSome = true := by simpa [hb] using hc
        have hmap : (a :: rest).filterMap found = b :: bs := by simp [hb, hbs]
        simp only [bind, Except.bind, pure, Except.pure, Except.ok.injEq, hmap]
        exact ⟨fun he => ⟨hall, he.symm⟩, fun he => he.2.symm⟩

namespace DirectiveForm

/-- What a value is in a directive of the form, if it may stand there. -/
def classify (form : DirectiveForm) (value : String) : Option Source :=
  match form.kind with
  | .sources => form.source? value
  | .allowances => if form.hasKeyword value then some (.allowance value) else none
  | .reportTargets => if isReportTarget value then some (.reportTarget value) else none

/-- What a value can be in a directive of the form. A keyword is a keyword even where it could be
something else. -/
inductive Reads (form : DirectiveForm) : String → Source → Prop where
  | keyword (value : String) (hk : form.kind = .sources) (hw : value ∈ form.keywords) :
      Reads form value (.keyword value)
  | anywhere (hk : form.kind = .sources) (hw : "*" ∉ form.keywords) : Reads form "*" .anywhere
  | data (value : String) (hk : form.kind = .sources) (hw : value ∉ form.keywords)
      (hd : isDataMark value = true) : Reads form value .data
  | host (value : String) (hk : form.kind = .sources) (hw : value ∉ form.keywords)
      (hh : (HostPattern.parse? value).isSome = true) : Reads form value (.host value)
  | allowance (value : String) (hk : form.kind = .allowances) (hw : value ∈ form.keywords) :
      Reads form value (.allowance value)
  | reportTarget (value : String) (hk : form.kind = .reportTargets)
      (ht : isReportTarget value = true) : Reads form value (.reportTarget value)

theorem hasKeyword_iff (form : DirectiveForm) (word : String) :
    form.hasKeyword word = true ↔ word ∈ form.keywords :=
  List.contains_iff_mem

theorem reads_of_classify {form : DirectiveForm} {value : String} {source : Source}
    (h : form.classify value = some source) : form.Reads value source := by
  unfold classify at h
  split at h
  · next hk =>
    unfold source? at h
    split at h
    · next hw =>
      cases h
      exact .keyword value hk ((form.hasKeyword_iff value).1 hw)
    · next hw =>
      rw [form.hasKeyword_iff] at hw
      split at h
      · next hs =>
        cases h
        obtain rfl := eq_of_beq hs
        exact .anywhere hk hw
      · split at h
        · next hd =>
          cases h
          exact .data value hk hw hd
        · split at h
          · next hh =>
            cases h
            exact .host value hk hw hh
          · cases h
  · next hk =>
    split at h
    · next hw =>
      cases h
      exact .allowance value hk ((form.hasKeyword_iff value).1 hw)
    · cases h
  · next hk =>
    split at h
    · next ht =>
      cases h
      exact .reportTarget value hk ht
    · cases h

theorem isSome_classify_iff (form : DirectiveForm) (value : String) :
    (form.classify value).isSome = true ↔
      match form.kind with
      | .sources => value ∈ form.keywords ∨ value = "*" ∨ isDataMark value = true ∨
          (HostPattern.parse? value).isSome = true
      | .allowances => value ∈ form.keywords
      | .reportTargets => isReportTarget value = true := by
  unfold classify
  cases hk : form.kind with
  | sources =>
    simp only [source?, form.hasKeyword_iff, isStar, beq_iff_eq]
    by_cases hw : value ∈ form.keywords
    · simp [hw]
    by_cases hs : value = "*"
    · simp [hs, apply_ite]
    by_cases hd : isDataMark value = true
    · simp [hw, hs, hd]
    by_cases hh : (HostPattern.parse? value).isSome = true <;> simp [hw, hs, hd, hh]
  | allowances => by_cases hw : value ∈ form.keywords <;> simp [form.hasKeyword_iff, hw]
  | reportTargets => by_cases ht : isReportTarget value = true <;> simp [ht]

/-- A value of a source list that tolerates no other. -/
def IsLoner (form : DirectiveForm) (value : String) : Prop :=
  form.kind = .sources ∧ (value = "none" ∧ form.hasKeyword "none" = true ∨ value = "*")

/-- Values that may stand together in a directive of the form. -/
structure Accepts (form : DirectiveForm) (values : List String) : Prop where
  readable : ∀ value ∈ values, (form.classify value).isSome = true
  alone : ∀ loner ∈ values, form.IsLoner loner → ∀ value ∈ values, value = loner

/-- The directive that accepted values make. -/
def directive (form : DirectiveForm) (name : String) (values : List String) : Directive :=
  ⟨name, (values.eraseDups.filterMap form.classify).eraseDups⟩

theorem mem_directive (form : DirectiveForm) (name : String) (values : List String)
    (source : Source) :
    source ∈ (form.directive name values).sources ↔
      ∃ value ∈ values, form.classify value = some source := by
  simp [directive, List.mem_eraseDups]

/-- Only the set of the values counts. -/
theorem Accepts.congr {form : DirectiveForm} {values others : List String}
    (h : ∀ value, value ∈ values ↔ value ∈ others) (ha : form.Accepts values) :
    form.Accepts others where
  readable := fun value hv => ha.readable value ((h value).2 hv)
  alone := fun loner hl hn value hv => ha.alone loner ((h loner).2 hl) hn value ((h value).2 hv)

theorem accepts_eraseDups_iff (form : DirectiveForm) (values : List String) :
    form.Accepts values.eraseDups ↔ form.Accepts values :=
  ⟨Accepts.congr fun _ => List.mem_eraseDups, Accepts.congr fun _ => List.mem_eraseDups.symm⟩

theorem loner?_eq_none_iff (form : DirectiveForm) (values : List String)
    (h : form.kind = .sources) :
    form.loner? values = none ↔ ∀ value ∈ values, ¬ form.IsLoner value := by
  unfold loner? IsLoner
  constructor
  · intro hn value hv hl
    obtain ⟨rfl, hk⟩ | rfl := hl.2
    · simp [hk, hv] at hn
    · split at hn
      · cases hn
      · simp [hv] at hn
  · intro hn
    have hnone : ¬ (form.hasKeyword "none" && values.contains "none") = true := by
      intro hc
      simp only [Bool.and_eq_true, List.contains_iff_mem] at hc
      exact hn "none" hc.2 ⟨h, Or.inl ⟨rfl, hc.1⟩⟩
    have hstar : ¬ values.contains "*" = true := by
      intro hc
      exact hn "*" (List.contains_iff_mem.1 hc) ⟨h, Or.inr rfl⟩
    rw [if_neg hnone, if_neg hstar]

/-- Among distinct values, a loner is alone if there are not two values. -/
theorem loner_check_iff (form : DirectiveForm) {values : List String} (hd : values.Nodup)
    (h : form.kind = .sources) :
    (if values.length > 1 then form.loner? values else none) = none ↔
      ∀ loner ∈ values, form.IsLoner loner → ∀ value ∈ values, value = loner := by
  split
  · next hlong =>
    rw [loner?_eq_none_iff form values h]
    constructor
    · intro hn loner hm hl
      exact absurd hl (hn loner hm)
    · intro ha loner hm hl
      have hone := eq_singleton_of_nodup hd hm (ha loner hm hl)
      simp [hone] at hlong
  · next hshort =>
    simp only [true_iff]
    intro loner hl _ value hv
    obtain _ | ⟨only, _ | ⟨second, rest⟩⟩ := values
    · cases hl
    · rw [List.mem_singleton.1 hl, List.mem_singleton.1 hv]
    · simp at hshort

theorem readValues_eq_ok_iff (form : DirectiveForm) (name : String) {values : List String}
    (hd : values.Nodup) (sources : List Source) :
    form.readValues name values = .ok sources ↔
      form.Accepts values ∧ sources = values.filterMap form.classify := by
  have whole (h : form.kind ≠ .sources) :
      form.Accepts values ↔ ∀ value ∈ values, (form.classify value).isSome = true :=
    ⟨fun ha => ha.readable, fun hr => ⟨hr, fun _ _ hl => absurd hl.1 h⟩⟩
  unfold readValues
  split
  · next hk =>
    rw [mapM_eq_ok_iff form.classify, whole (by simp [hk])]
    intro value
    simp only [classify, hk]
    split <;> rfl
  · next hk =>
    rw [mapM_eq_ok_iff form.classify, whole (by simp [hk])]
    intro value
    simp only [classify, hk]
    split <;> rfl
  · next hk =>
    have hcheck := loner_check_iff form hd hk
    split
    · next loner hl =>
      rw [hl] at hcheck
      have hn : ¬ form.Accepts values := fun ha => by simpa using hcheck.2 ha.alone
      simp [hn]
    · next hl =>
      have ha : form.Accepts values ↔ ∀ value ∈ values, (form.classify value).isSome = true :=
        ⟨fun ha => ha.readable, fun hr => ⟨hr, hcheck.1 hl⟩⟩
      rw [mapM_eq_ok_iff form.classify, ha]
      intro value
      simp only [classify, hk]
      cases form.source? value <;> rfl

end DirectiveForm

/-- Values are read into a directive when its form accepts them. -/
theorem Vocabulary.readDirective_eq_ok_iff (vocabulary : Vocabulary) (name : String)
    (values : List String) (directive : Directive) :
    vocabulary.readDirective name values = .ok directive ↔
      ∃ form, vocabulary.get? name = some form ∧ form.Accepts values ∧
        directive = form.directive name values := by
  unfold readDirective
  cases hf : vocabulary.get? name with
  | none => simp
  | some form =>
    have hread := form.readValues_eq_ok_iff name (nodup_eraseDups values)
    simp only [Option.some.injEq, exists_eq_left', ← form.accepts_eraseDups_iff values]
    cases hr : form.readValues name values.eraseDups with
    | error refusal =>
      have hn : ¬ form.Accepts values.eraseDups := by
        intro ha
        have he := (hread _).2 ⟨ha, rfl⟩
        rw [hr] at he
        cases he
      simp [bind, Except.bind, hn]
    | ok sources =>
      obtain ⟨ha, rfl⟩ := (hread sources).1 hr
      simp only [bind, Except.bind, pure, Except.pure, Except.ok.injEq, ha, true_and]
      exact eq_comm

end ContentSecurity
