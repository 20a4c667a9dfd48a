import ContentSecurity.Proofs.Directive.Spelling

/-!
The verdict on listed values: what is read of them, or why they are refused. It is told here from the
form alone, value by value and for the values as a set, and the reader gives it on every vocabulary.
In which order the values stand, and how often each is listed, decides no more than the order of the
sources and which of several unfit values is named.
-/
namespace ContentSecurity

/-- Reading a list item by item fails as its first item does that cannot be read. -/
theorem mapM_eq_error_iff_firstFailing {α β ε : Type} (read : α → Except ε β) (items : List α)
    (met : ε) :
    items.mapM read = .error met ↔
      ∃ a, FirstFailing (fun a => ∃ b, read a = .ok b) items a ∧ read a = .error met := by
  induction items with
  | nil => exact iff_of_false nofun fun ⟨a, ha, _⟩ => not_firstFailing_nil _ a ha
  | cons head rest ih =>
    rw [List.mapM_cons]
    cases hr : read head with
    | ok b =>
      have hp : ∃ b, read head = .ok b := ⟨b, hr⟩
      simp only [firstFailing_cons_iff, hp, not_true_eq_false, false_and, true_and, false_or, ← ih]
      cases rest.mapM read with
      | ok bs => exact iff_of_false nofun nofun
      | error fault => exact Iff.rfl
    | error fault =>
      have hn : ¬ ∃ b, read head = .ok b := by
        rintro ⟨b, hb⟩
        cases hr.symm.trans hb
      simp only [firstFailing_cons_iff, hn, not_false_eq_true, true_and, false_and, or_false,
        exists_eq_left]
      rw [hr, Except.error.injEq]
      exact ⟨Except.error.inj, congrArg Except.error⟩

/-- Reading a list item by item fails at the first item that does not pass. -/
theorem mapM_eq_error_iff {α β ε : Type} {passes : α → Prop} {fault : α → ε}
    {read : α → Except ε β} (hpass : ∀ a, passes a → ∃ b, read a = .ok b)
    (hfail : ∀ a, ¬ passes a → read a = .error (fault a)) (items : List α) (met : ε) :
    items.mapM read = .error met ↔ ∃ a, FirstFailing passes items a ∧ met = fault a := by
  have hread : (fun a => ∃ b, read a = .ok b) = passes := by
    funext a
    refine propext ⟨fun ⟨b, hb⟩ => ?_, hpass a⟩
    by_contra hn
    cases (hfail a hn).symm.trans hb
  rw [mapM_eq_error_iff_firstFailing, hread]
  refine exists_congr fun a => and_congr_right fun ⟨_, _, _, _, hn⟩ => ?_
  rw [hfail a hn, Except.error.injEq, eq_comm]

namespace DirectiveForm

/-- A value that may stand in a directive of the form, if nothing speaks against it but itself. -/
def Takes (form : DirectiveForm) (value : String) : Prop :=
  match form.kind with
  | .sources => value ∈ form.keywords ∨ value = "*" ∨ isDataMark value = true ∨
      (HostPattern.parse? value).isSome = true
  | .allowances => value ∈ form.keywords
  | .reportTargets => isReportTarget value = true

/-- Something stands beside `*`, or beside `none` where that is a keyword. -/
def Crowded (form : DirectiveForm) (values : List String) : Prop :=
  ∃ value ∈ values, ∃ other ∈ values, other ≠ value ∧
    (value = "*" ∨ value = "none" ∧ "none" ∈ form.keywords)

structure Permits (form : DirectiveForm) (values : List String) : Prop where
  takes : ∀ value ∈ values, form.Takes value
  apart : form.kind = .sources → ¬ form.Crowded values

/-- The value that is named where one stands beside others that tolerates none. -/
def crowder (form : DirectiveForm) (values : List String) : String :=
  if "none" ∈ form.keywords ∧ "none" ∈ values then "none" else "*"

/-- What is said of a value that the form does not take. -/
def complaint (form : DirectiveForm) (name value : String) : Refusal :=
  match form.kind with
  | .sources => .unreadableSource name value
  | .allowances => .unknownAllowance value
  | .reportTargets => .unreadableTarget value

/-- Why values are refused. In a list of sources it counts first who stands beside whom, and no value
is looked at before. -/
inductive Refuses (form : DirectiveForm) (name : String) (values : List String) : Refusal → Prop where
  | crowded (hk : form.kind = .sources) (hc : form.Crowded values) :
      Refuses form name values (.notAlone name (form.crowder values))
  | unfit (value : String) (ha : form.kind = .sources → ¬ form.Crowded values)
      (hv : FirstFailing form.Takes values value) :
      Refuses form name values (form.complaint name value)

variable (form : DirectiveForm)

/-! ## Value by value -/

theorem classify_eq_some_iff (value : String) (source : Source) :
    form.classify value = some source ↔ form.Reads value source := by
  refine ⟨reads_of_classify, fun h => ?_⟩
  have hmark : isDataMark "*" = false := by decide
  have hstar : HostPattern.parse? "*" = none := by decide
  cases h with
  | keyword _ hk hw => simp [classify, hk, source?, (form.hasKeyword_iff value).2 hw]
  | anywhere hk hw => simp [classify, hk, source?, form.hasKeyword_iff, hw, isStar]
  | data _ hk hw hd =>
    have hne : value ≠ "*" := by
      rintro rfl
      simp [hmark] at hd
    simp [classify, hk, source?, form.hasKeyword_iff, hw, isStar, hne, hd]
  | host _ hk hw hh =>
    have hne : value ≠ "*" := by
      rintro rfl
      simp [hstar] at hh
    have hd : isDataMark value = false := by
      rw [Bool.eq_false_iff]
      intro hd
      simp [(not_host_of_isDataMark hd).1] at hh
    simp [classify, hk, source?, form.hasKeyword_iff, hw, isStar, hne, hd, hh]
  | allowance _ hk hw => simp [classify, hk, form.hasKeyword_iff, hw]
  | reportTarget _ hk ht => simp [classify, hk, ht]

/-- The directive that values make holds what they are read as. -/
theorem firstSeen_directive (name : String) (values : List String) :
    FirstSeen form.Reads values (form.directive name values).sources := by
  rw [directive, eraseDups_filterMap]
  simpa only [form.classify_eq_some_iff] using firstSeen_eraseDups form.classify values

theorem takes_iff (value : String) : form.Takes value ↔ (form.classify value).isSome = true :=
  (form.isSome_classify_iff value).symm

/-- Reads one value by itself. -/
def readValue (name value : String) : Except Refusal Source :=
  match form.classify value with
  | some source => .ok source
  | none => .error (form.complaint name value)

theorem readValue_of_takes (name : String) {value : String} (h : form.Takes value) :
    ∃ source, form.readValue name value = .ok source := by
  obtain ⟨source, hc⟩ := Option.isSome_iff_exists.1 ((form.takes_iff value).1 h)
  exact ⟨source, by rw [readValue, hc]⟩

theorem readValue_of_not_takes (name : String) {value : String} (h : ¬ form.Takes value) :
    form.readValue name value = .error (form.complaint name value) := by
  rw [takes_iff, Option.not_isSome_iff_eq_none] at h
  rw [readValue, h]

/-! ## Values as a set -/

theorem not_crowded_iff (h : form.kind = .sources) (values : List String) :
    ¬ form.Crowded values ↔
      ∀ loner ∈ values, form.IsLoner loner → ∀ value ∈ values, value = loner := by
  simp only [Crowded, IsLoner, h, true_and, form.hasKeyword_iff, not_exists, not_and]
  constructor
  · intro hno loner hl hn value hv
    by_contra hne
    exact hno loner hl value hv hne (hn.symm.imp_right id)
  · intro hall value hv other ho hne hn
    exact hne (hall value hv hn.symm other ho)

theorem permits_iff_accepts (values : List String) : form.Permits values ↔ form.Accepts values := by
  constructor
  · rintro ⟨ht, ha⟩
    refine ⟨fun value hv => (form.takes_iff value).1 (ht value hv), fun loner hm hl => ?_⟩
    exact (form.not_crowded_iff hl.1 values).1 (ha hl.1) loner hm hl
  · rintro ⟨hr, ha⟩
    exact ⟨fun value hv => (form.takes_iff value).2 (hr value hv),
      fun hk => (form.not_crowded_iff hk values).2 ha⟩

theorem Crowded.congr {form : DirectiveForm} {values others : List String}
    (h : ∀ value, value ∈ values ↔ value ∈ others) (hc : form.Crowded values) :
    form.Crowded others := by
  obtain ⟨value, hv, other, ho, hn⟩ := hc
  exact ⟨value, (h value).1 hv, other, (h other).1 ho, hn⟩

theorem crowded_congr {values others : List String}
    (h : ∀ value, value ∈ values ↔ value ∈ others) : form.Crowded values ↔ form.Crowded others :=
  ⟨Crowded.congr h, Crowded.congr fun value => (h value).symm⟩

theorem crowder_congr {values others : List String}
    (h : ∀ value, value ∈ values ↔ value ∈ others) : form.crowder values = form.crowder others := by
  simp only [crowder, h]

theorem loner?_eq_some_of_crowded {values : List String} (hc : form.Crowded values) :
    form.loner? values = some (form.crowder values) := by
  unfold loner? crowder
  simp only [Bool.and_eq_true, form.hasKeyword_iff, List.contains_iff_mem]
  split
  · rfl
  · next hn =>
    obtain ⟨value, hv, -, -, -, rfl | ⟨rfl, hw⟩⟩ := hc
    · rw [if_pos hv]
    · exact absurd ⟨hw, hv⟩ hn

/-- Crowded values are more than one, so it is looked who stands beside others. -/
theorem loner_check_of_crowded {values : List String} (hc : form.Crowded values) :
    (if values.length > 1 then form.loner? values else none) = some (form.crowder values) := by
  have hlong : values.length > 1 := by
    obtain ⟨value, hv, other, ho, hne, -⟩ := hc
    obtain _ | ⟨only, _ | ⟨second, rest⟩⟩ := values
    · cases hv
    · rw [List.mem_singleton] at hv ho
      exact absurd (ho.trans hv.symm) hne
    · simp
  rw [if_pos hlong, form.loner?_eq_some_of_crowded hc]

/-! ## What the reader does -/

theorem readValues_of_crowded (name : String) {values : List String} (hk : form.kind = .sources)
    (hc : form.Crowded values) :
    form.readValues name values = .error (.notAlone name (form.crowder values)) := by
  simp only [readValues, hk, form.loner_check_of_crowded hc]

/-- Where nothing stands beside a value that tolerates none, each value is read by itself. -/
theorem readValues_of_not_crowded (name : String) {values : List String} (hd : values.Nodup)
    (h : form.kind = .sources → ¬ form.Crowded values) :
    form.readValues name values = values.mapM (form.readValue name) := by
  have hsame {read : String → Except Refusal Source}
      (hread : ∀ value, read value = form.readValue name value) :
      values.mapM read = values.mapM (form.readValue name) := by
    rw [funext hread]
  unfold readValues
  split
  · next hk =>
    refine hsame fun value => ?_
    simp only [readValue, classify, complaint, hk]
    split <;> rfl
  · next hk =>
    refine hsame fun value => ?_
    simp only [readValue, classify, complaint, hk]
    split <;> rfl
  · next hk =>
    have hcheck := (form.loner_check_iff hd hk).2 ((form.not_crowded_iff hk values).1 (h hk))
    rw [hcheck]
    refine hsame fun value => ?_
    cases hs : form.source? value <;> simp [readValue, classify, complaint, hk, hs]

theorem readValues_eq_error_iff (name : String) {values : List String} (hd : values.Nodup)
    (refusal : Refusal) :
    form.readValues name values = .error refusal ↔ form.Refuses name values refusal := by
  by_cases h : form.kind = .sources ∧ form.Crowded values
  · rw [form.readValues_of_crowded name h.1 h.2]
    constructor
    · rintro ⟨⟩
      exact .crowded h.1 h.2
    · rintro (_ | ⟨_, ha, _⟩)
      · rfl
      · exact absurd h.2 (ha h.1)
  · rw [not_and] at h
    rw [form.readValues_of_not_crowded name hd h, mapM_eq_error_iff
      (fun _ => form.readValue_of_takes name) (fun _ => form.readValue_of_not_takes name)]
    constructor
    · rintro ⟨value, hv, rfl⟩
      exact .unfit value h hv
    · rintro (⟨hk, hc⟩ | ⟨value, _, hv⟩)
      · exact absurd hc (h hk)
      · exact ⟨value, hv, rfl⟩

/-- Which values are repeated makes no difference to a refusal. -/
theorem refuses_eraseDups_iff (name : String) (values : List String) (refusal : Refusal) :
    form.Refuses name values.eraseDups refusal ↔ form.Refuses name values refusal := by
  have hmem (value : String) : value ∈ values.eraseDups ↔ value ∈ values := List.mem_eraseDups
  have hcrowded := form.crowded_congr hmem
  constructor
  · rintro (⟨hk, hc⟩ | ⟨value, ha, hv⟩)
    · rw [form.crowder_congr hmem]
      exact .crowded hk (hcrowded.1 hc)
    · rw [hcrowded] at ha
      exact .unfit value ha ((firstFailing_eraseDups_iff _ _ _).1 hv)
  · rintro (⟨hk, hc⟩ | ⟨value, ha, hv⟩)
    · rw [← form.crowder_congr hmem]
      exact .crowded hk (hcrowded.2 hc)
    · rw [← hcrowded] at ha
      exact .unfit value ha ((firstFailing_eraseDups_iff _ _ _).2 hv)

/-- A form finds fault with values only. -/
theorem Refuses.ne_unknownDirective {form : DirectiveForm} {name : String} {values : List String}
    {refusal : Refusal} (h : form.Refuses name values refusal) (other : String) :
    refusal ≠ .unknownDirective other := by
  cases h with
  | crowded => exact nofun
  | unfit value =>
    unfold complaint
    split <;> exact nofun

end DirectiveForm

namespace Vocabulary

variable (vocabulary : Vocabulary) (name : String) (values : List String)

theorem readDirective_of_get?_eq_none (h : vocabulary.get? name = none) :
    vocabulary.readDirective name values = .error (.unknownDirective name) := by
  rw [readDirective, h]

theorem readDirective_eq_error_iff {form : DirectiveForm} (hf : vocabulary.get? name = some form)
    (refusal : Refusal) :
    vocabulary.readDirective name values = .error refusal ↔ form.Refuses name values refusal := by
  rw [← form.refuses_eraseDups_iff, ← form.readValues_eq_error_iff name (nodup_eraseDups values),
    readDirective, hf]
  dsimp only
  cases form.readValues name values.eraseDups with
  | ok sources => exact iff_of_false nofun nofun
  | error refusal' => simp [bind, Except.bind]

end Vocabulary

/-- A directive that is not known is refused as such, and no other is. Of a known directive the reader
gives what its form says of the values: it reads them when the form permits them, into the sources
that they are, each but once and in the order in which it first comes, and refuses them otherwise, a
value that stands beside others first of all, and else the first that does not fit. -/
theorem values_are_read_by_form (vocabulary : Vocabulary) (name : String) (values : List String) :
    (∀ other, vocabulary.readDirective name values = .error (.unknownDirective other) ↔
      name ∉ vocabulary.keys ∧ other = name) ∧
    ∀ form, vocabulary.get? name = some form →
      ((∃ directive, vocabulary.readDirective name values = .ok directive) ↔
        form.Permits values) ∧
      (∀ directive, vocabulary.readDirective name values = .ok directive →
        directive.name = name ∧ FirstSeen form.Reads values directive.sources) ∧
      ∀ refusal, vocabulary.readDirective name values = .error refusal ↔
        form.Refuses name values refusal := by
  constructor
  · intro other
    cases hf : vocabulary.get? name with
    | none =>
      have hname := (vocabulary.get?_eq_none_iff name).1 hf
      rw [vocabulary.readDirective_of_get?_eq_none name values hf]
      simp [hname, eq_comm]
    | some form =>
      have hname : name ∈ vocabulary.keys := by
        by_contra hn
        rw [(vocabulary.get?_eq_none_iff name).2 hn] at hf
        cases hf
      rw [vocabulary.readDirective_eq_error_iff name values hf]
      exact iff_of_false (fun h => h.ne_unknownDirective other rfl) fun h => h.1 hname
  · intro form hf
    have hread (directive : Directive) : vocabulary.readDirective name values = .ok directive ↔
        form.Permits values ∧ directive = form.directive name values := by
      rw [vocabulary.readDirective_eq_ok_iff, form.permits_iff_accepts]
      simp [hf]
    refine ⟨?_, fun directive hd => ?_, vocabulary.readDirective_eq_error_iff name values hf⟩
    · simp only [hread, exists_and_left, exists_eq, and_true]
    · obtain ⟨-, rfl⟩ := (hread directive).1 hd
      exact ⟨rfl, form.firstSeen_directive name values⟩

/-- Here `data:` is a keyword, but only as it stands there. Where `none` has been listed, nobody looks
whether the other values can be read. -/
theorem values_are_read_by_form_with_data_keyword :
    ∃ vocabulary : Vocabulary, ∃ form,
      vocabulary.get? "img-src" = some form ∧
      FirstSeen form.Reads ["self", "DATA:", "data:", "self", "cdn.example.com", "Data:"]
        [.keyword "self", .data, .keyword "data:", .host "cdn.example.com"] ∧
      vocabulary.readDirective "img-src" ["no host", "*", "none"] =
        .error (.notAlone "img-src" "none") := by
  let form : DirectiveForm := ⟨.sources, ["none", "self", "data:"]⟩
  let vocabulary : Vocabulary := ⟨[("img-src", form)], by decide⟩
  have hf : vocabulary.get? "img-src" = some form := rfl
  have hread := ((values_are_read_by_form vocabulary "img-src"
    ["self", "DATA:", "data:", "self", "cdn.example.com", "Data:"]).2 form hf).2.1
    ⟨"img-src", [.keyword "self", .data, .keyword "data:", .host "cdn.example.com"]⟩ (by decide)
  have hrefused := ((values_are_read_by_form vocabulary "img-src" ["no host", "*", "none"]).2 form
    hf).2.2 (.notAlone "img-src" "none")
  exact ⟨vocabulary, form, hf, hread.2, hrefused.2 (.crowded rfl
    ⟨"*", by decide, "none", by decide, by decide, Or.inl rfl⟩)⟩

/-! ## Values in another order or number -/

/-- A directive of the same name with the same sources, in whatever order. -/
def Directive.SameSources (directive other : Directive) : Prop :=
  directive.name = other.name ∧ ∀ source, source ∈ directive.sources ↔ source ∈ other.sources

/-- Refusals for the same reason that blame the same directive. Which of several unfit values is named
may differ, but not which value stands beside others. -/
inductive Refusal.Alike : Refusal → Refusal → Prop where
  | unknownDirective (name : String) : Alike (.unknownDirective name) (.unknownDirective name)
  | notAlone (name value : String) : Alike (.notAlone name value) (.notAlone name value)
  | unreadableSource (name value value' : String) :
      Alike (.unreadableSource name value) (.unreadableSource name value')
  | unknownAllowance (value value' : String) :
      Alike (.unknownAllowance value) (.unknownAllowance value')
  | unreadableTarget (value value' : String) :
      Alike (.unreadableTarget value) (.unreadableTarget value')

theorem Refusal.Alike.directive?_eq {refusal other : Refusal} (h : refusal.Alike other) :
    refusal.directive? = other.directive? := by
  cases h <;> rfl

/-- Both are directives with the same sources, or refusals for the same reason. -/
inductive ReadAlike : Except Refusal Directive → Except Refusal Directive → Prop where
  | ok {directive other : Directive} (h : directive.SameSources other) :
      ReadAlike (.ok directive) (.ok other)
  | error {refusal other : Refusal} (h : refusal.Alike other) :
      ReadAlike (.error refusal) (.error other)

namespace DirectiveForm

variable (form : DirectiveForm)

theorem alike_complaint (name value value' : String) :
    (form.complaint name value).Alike (form.complaint name value') := by
  unfold complaint
  split <;> constructor

/-- Where some values are refused, the same values in another order or number are refused alike. -/
theorem Refuses.exists_alike {form : DirectiveForm} {name : String} {values others : List String}
    (hs : ∀ value, value ∈ values ↔ value ∈ others) {refusal : Refusal}
    (h : form.Refuses name values refusal) :
    ∃ other, form.Refuses name others other ∧ refusal.Alike other := by
  cases h with
  | crowded hk hc =>
    rw [form.crowder_congr hs]
    exact ⟨_, .crowded hk (hc.congr hs), .notAlone _ _⟩
  | unfit value ha hv =>
    -- Another unfit value may come first, but one does.
    have hsome : ∃ item ∈ others, ¬ form.Takes item := by
      obtain ⟨item, hm, hi⟩ := (exists_firstFailing_iff _ _).1 ⟨value, hv⟩
      exact ⟨item, (hs item).1 hm, hi⟩
    obtain ⟨first, hfirst⟩ := (exists_firstFailing_iff _ _).2 hsome
    rw [form.crowded_congr hs] at ha
    exact ⟨_, .unfit first ha hfirst, form.alike_complaint name value first⟩

end DirectiveForm

/-- Values that are the same as sets are read alike, or refused alike. -/
theorem Vocabulary.readDirective_alike (vocabulary : Vocabulary) (name : String)
    {values others : List String} (h : ∀ value, value ∈ values ↔ value ∈ others) :
    ReadAlike (vocabulary.readDirective name values) (vocabulary.readDirective name others) := by
  cases hf : vocabulary.get? name with
  | none =>
    rw [vocabulary.readDirective_of_get?_eq_none name values hf,
      vocabulary.readDirective_of_get?_eq_none name others hf]
    exact .error (.unknownDirective name)
  | some form =>
    cases hr : vocabulary.readDirective name values with
    | ok directive =>
      obtain ⟨form', hf', ha, rfl⟩ := (vocabulary.readDirective_eq_ok_iff _ _ _).1 hr
      rw [(vocabulary.readDirective_eq_ok_iff name others _).2 ⟨form', hf', ha.congr h, rfl⟩]
      refine .ok ⟨rfl, fun source => ?_⟩
      simp only [form'.mem_directive, h]
    | error refusal =>
      rw [vocabulary.readDirective_eq_error_iff name values hf] at hr
      obtain ⟨other, ho, hsame⟩ := hr.exists_alike h
      rw [(vocabulary.readDirective_eq_error_iff name others hf other).2 ho]
      exact .error hsame

/-- A directive that has been read holds no source twice. -/
theorem Vocabulary.nodup_of_readDirective {vocabulary : Vocabulary} {name : String}
    {values : List String} {directive : Directive}
    (h : vocabulary.readDirective name values = .ok directive) : directive.sources.Nodup := by
  obtain ⟨form, -, -, rfl⟩ := (vocabulary.readDirective_eq_ok_iff _ _ _).1 h
  exact nodup_eraseDups _

/-- Of values that are the same as sets, either all are read, into as many sources and the same ones,
or none, for the same reason and with the same directive to blame. -/
theorem reading_sees_set_of_values (vocabulary : Vocabulary) (name : String)
    (values others : List String) (h : ∀ value, value ∈ values ↔ value ∈ others) :
    ((∃ directive, vocabulary.readDirective name values = .ok directive) ↔
      ∃ directive, vocabulary.readDirective name others = .ok directive) ∧
    (∀ directive other, vocabulary.readDirective name values = .ok directive →
      vocabulary.readDirective name others = .ok other →
        directive.SameSources other ∧ directive.sources.length = other.sources.length) ∧
    ∀ refusal other, vocabulary.readDirective name values = .error refusal →
      vocabulary.readDirective name others = .error other →
        refusal.Alike other ∧ refusal.directive? = other.directive? := by
  have hsame := vocabulary.readDirective_alike name h
  refine ⟨?_, fun directive other hd ho => ?_, fun refusal other hr ho => ?_⟩
  · generalize vocabulary.readDirective name values = read at hsame ⊢
    generalize vocabulary.readDirective name others = read' at hsame ⊢
    cases hsame with
    | ok => exact iff_of_true ⟨_, rfl⟩ ⟨_, rfl⟩
    | error => exact iff_of_false nofun nofun
  · rw [hd, ho] at hsame
    cases hsame with
    | ok hsources =>
      have hperm := (List.perm_ext_iff_of_nodup (Vocabulary.nodup_of_readDirective hd)
        (Vocabulary.nodup_of_readDirective ho)).2 hsources.2
      exact ⟨hsources, hperm.length_eq⟩
  · rw [hr, ho] at hsame
    cases hsame with
    | error halike => exact ⟨halike, halike.directive?_eq⟩

/-- In another order and number the values are read in another order, or another unfit value is named, and
still the same directive is blamed. -/
theorem reading_sees_set_of_values_in_two_orders :
    ((∀ value, value ∈ ["self", "DATA:", "a.b", "self"] ↔ value ∈ ["a.b", "self", "DATA:"]) ∧
      ∃ directive other, Vocabulary.csp1.readDirective "img-src" ["self", "DATA:", "a.b", "self"] =
          .ok directive ∧
        Vocabulary.csp1.readDirective "img-src" ["a.b", "self", "DATA:"] = .ok other ∧
        directive ≠ other ∧ directive.SameSources other ∧
        directive.sources.length = other.sources.length) ∧
    (∀ value, value ∈ ["self", "a b", "DATA:", "c d", "a b"] ↔
      value ∈ ["c d", "DATA:", "self", "a b"]) ∧
    ∃ refusal other, Vocabulary.csp1.readDirective "img-src" ["self", "a b", "DATA:", "c d", "a b"] =
        .error refusal ∧
      Vocabulary.csp1.readDirective "img-src" ["c d", "DATA:", "self", "a b"] = .error other ∧
      refusal ≠ other ∧ refusal.Alike other ∧ refusal.directive? = other.directive? := by
  have hread : ∀ value, value ∈ ["self", "DATA:", "a.b", "self"] ↔
      value ∈ ["a.b", "self", "DATA:"] := by
    intro value
    simp only [List.mem_cons, List.not_mem_nil, or_false]
    tauto
  have hrefused : ∀ value, value ∈ ["self", "a b", "DATA:", "c d", "a b"] ↔
      value ∈ ["c d", "DATA:", "self", "a b"] := by
    intro value
    simp only [List.mem_cons, List.not_mem_nil, or_false]
    tauto
  have hsame := reading_sees_set_of_values .csp1 "img-src" _ _ hread
  have halike := reading_sees_set_of_values .csp1 "img-src" _ _ hrefused
  refine ⟨⟨hread, _, _, rfl, rfl, by decide, hsame.2.1 _ _ rfl rfl⟩, hrefused, ?_⟩
  exact ⟨.unreadableSource "img-src" "a b", .unreadableSource "img-src" "c d", by decide, by decide,
    by decide, halike.2.2 _ _ (by decide) (by decide)⟩

end ContentSecurity
