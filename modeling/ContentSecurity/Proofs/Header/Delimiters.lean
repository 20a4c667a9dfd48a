import ContentSecurity.Proofs.Grammar.Alphabet
import ContentSecurity.Proofs.Store.Conformance

/-!
The delimiters of a rendered policy. A blank stands before each source, a semicolon ends each
directive, and in a header a comma ends the policy itself. No name, no keyword and no host is written
with any of them, so a rendered policy can be cut at its delimiters again. The grammar of paths
admits semicolons and commas, and report targets are the one place where they come from an author.
-/
namespace ContentSecurity

/-- The text of a report target. -/
def Source.target? : Source → Option String
  | reportTarget text => some text
  | _ => none

theorem Source.target?_eq_some_iff (source : Source) (text : String) :
    source.target? = some text ↔ source = .reportTarget text := by
  cases source <;> simp [target?]

def Directive.targets (directive : Directive) : List String :=
  directive.sources.filterMap Source.target?

/-- The report targets that stand in a policy. -/
def Policy.targets (policy : Policy) : List String :=
  policy.directives.flatMap Directive.targets

/-! ## Cutting a text -/

/-- The pieces of a text between the marks in it. -/
def cut (mark : Char) (text : String) : List String :=
  (text.toList.splitOn mark).map String.ofList

theorem cut_append (mark : Char) (text rest : String) :
    cut mark (text ++ String.singleton mark ++ rest) = cut mark text ++ cut mark rest := by
  have hl : (text ++ String.singleton mark ++ rest).toList =
      text.toList ++ mark :: rest.toList := by simp
  rw [cut, hl, List.splitOn_append_cons_self, List.map_append]
  rfl

/-- A text without the mark is left whole. -/
theorem cut_of_not_mem {mark : Char} {text : String} (h : mark ∉ text.toList) :
    cut mark text = [text] := by
  rw [cut, List.splitOn_eq_singleton h, List.map_singleton, String.ofList_toList]

/-- The mark stands in none of the texts when they have it no times together. -/
theorem sum_count_eq_zero_iff (mark : Char) (texts : List String) :
    (texts.map (·.toList.count mark)).sum = 0 ↔ ∀ text ∈ texts, mark ∉ text.toList := by
  rw [List.sum_eq_zero_iff_forall_eq_nat]
  simp [List.count_eq_zero]

/-! ## Delimiters -/

/-- No name, no keyword and no host is written with the mark, and it is no quote. -/
structure Vocabulary.Delimiter (vocabulary : Vocabulary) (mark : Char) : Prop where
  names : ∀ entry ∈ vocabulary.entries, mark ∉ entry.1.toList
  keywords : ∀ entry ∈ vocabulary.entries, ∀ word ∈ entry.2.keywords, mark ∉ word.toList
  hosts : Grammar.isHostChar mark = false
  quotes : mark ≠ '\''

theorem Vocabulary.csp1_delimiter {mark : Char} (h : mark = ' ' ∨ mark = ';' ∨ mark = ',') :
    csp1.Delimiter mark := by
  obtain rfl | rfl | rfl := h <;>
    exact ⟨by decide, by decide, by decide, by decide⟩

namespace Vocabulary.Delimiter

variable {vocabulary : Vocabulary} {mark : Char} {name : String} {form : DirectiveForm}

theorem not_mem_name (h : vocabulary.Delimiter mark) (hf : vocabulary.get? name = some form) :
    mark ∉ name.toList :=
  h.names (name, form) ((vocabulary.get?_eq_some_iff name form).1 hf)

/-- Only a report target can be written with the mark. -/
theorem not_mem_source (h : vocabulary.Delimiter mark) (hf : vocabulary.get? name = some form)
    {source : Source} (ha : form.Admits source) (ht : source.target? = none) :
    mark ∉ source.render.toList := by
  have hword : ∀ word ∈ form.keywords, mark ∉ word.toList :=
    h.keywords (name, form) ((vocabulary.get?_eq_some_iff name form).1 hf)
  have hhost {text : String} (hc : ∀ c ∈ text.toList, Grammar.isHostChar c = true) :
      mark ∉ text.toList := by
    intro hm
    have hmark := hc mark hm
    rw [h.hosts] at hmark
    cases hmark
  cases ha with
  | keyword word _ hw => simp [Source.render, h.quotes, hword word hw]
  | anywhere => exact hhost (List.all_eq_true.1 (by decide))
  | data => exact hhost (List.all_eq_true.1 (by decide))
  | host text _ hp => exact hhost (isHostChar_of_parse? hp)
  | allowance word _ hw => exact hword word hw
  | reportTarget text => cases ht

/-- So the mark stands in a source as often as in the report target that it is. -/
theorem count_source (h : vocabulary.Delimiter mark) (hf : vocabulary.get? name = some form)
    {source : Source} (ha : form.Admits source) :
    source.render.toList.count mark =
      (source.target?.toList.map (·.toList.count mark)).sum := by
  cases ht : source.target? with
  | none => simpa [List.count_eq_zero] using h.not_mem_source hf ha ht
  | some text =>
    rw [Source.target?_eq_some_iff] at ht
    simp [ht, Source.render, Source.written]

/-- The blanks before them aside, sources have the mark as often as the report targets among
them have. -/
theorem count_sources (h : vocabulary.Delimiter mark) (hb : mark ≠ ' ')
    (hf : vocabulary.get? name = some form) (sources : List Source)
    (hs : ∀ source ∈ sources, form.Admits source) :
    (Directive.renderSources sources).toList.count mark =
      ((sources.filterMap Source.target?).map (·.toList.count mark)).sum := by
  induction sources with
  | nil => rfl
  | cons source rest ih =>
    have hblank : " ".toList.count mark = 0 := by
      simpa [List.count_eq_zero] using hb
    have hfirst := h.count_source hf (hs source List.mem_cons_self)
    have hrest := ih fun other ho => hs other (List.mem_cons_of_mem _ ho)
    simp only [Directive.renderSources, String.toList_append, List.count_append, hblank, hfirst,
      hrest, List.filterMap_cons]
    cases source.target? <;> simp

theorem count_directive (h : vocabulary.Delimiter mark) (hb : mark ≠ ' ') {directive : Directive}
    (hf : vocabulary.get? directive.name = some form) (hc : directive.Conforms form) :
    directive.render.toList.count mark =
      (directive.targets.map (·.toList.count mark)).sum := by
  have hname : directive.name.toList.count mark = 0 :=
    List.count_eq_zero.2 (h.not_mem_name hf)
  rw [Directive.render, String.toList_append, List.count_append, hname,
    h.count_sources hb hf directive.sources hc.admitted, Nat.zero_add]
  rfl

/-- A policy has the mark as often as its report targets have and as its directives end with it. -/
theorem count_policy (h : vocabulary.Delimiter mark) (hb : mark ≠ ' ') {policy : Policy}
    (hp : policy.Conforms vocabulary) :
    policy.render.toList.count mark =
      policy.directives.length * ";".toList.count mark +
        (policy.targets.map (·.toList.count mark)).sum := by
  have hformed := hp.formed
  rw [Policy.render, Policy.targets]
  generalize policy.directives = directives at hformed ⊢
  induction directives with
  | nil => simp [Policy.renderDirectives]
  | cons directive rest ih =>
    obtain ⟨form, hf, hc⟩ := hformed directive List.mem_cons_self
    have hfirst := h.count_directive hb hf hc
    have hrest := ih fun other ho => hformed other (List.mem_cons_of_mem _ ho)
    simp only [Policy.renderDirectives, String.toList_append, List.count_append, hfirst, hrest,
      List.length_cons, List.flatMap_cons, List.map_append, List.sum_append, Nat.succ_mul]
    omega

/-- A directive is free of the mark when its report targets are. -/
theorem not_mem_directive (h : vocabulary.Delimiter mark) (hb : mark ≠ ' ') {directive : Directive}
    (hf : vocabulary.get? directive.name = some form) (hc : directive.Conforms form)
    (ht : ∀ text ∈ directive.targets, mark ∉ text.toList) : mark ∉ directive.render.toList := by
  rw [← List.count_eq_zero, h.count_directive hb hf hc]
  exact (sum_count_eq_zero_iff mark directive.targets).2 ht

end Vocabulary.Delimiter

/-- No report target has a blank, so none has a source at all. -/
theorem DirectiveForm.Admits.blank_not_mem {vocabulary : Vocabulary} {name : String}
    {form : DirectiveForm} {source : Source} (ha : form.Admits source)
    (h : vocabulary.Delimiter ' ') (hf : vocabulary.get? name = some form) :
    ' ' ∉ source.render.toList := by
  cases ht : source.target? with
  | none => exact h.not_mem_source hf ha ht
  | some text =>
    obtain rfl := (source.target?_eq_some_iff text).1 ht
    cases ha with
    | reportTarget _ _ hr =>
      intro hm
      have hblank := isTargetChar_of_isReportTarget hr ' ' hm
      exact absurd hblank (by decide)

/-! ## A policy cut at its semicolons -/

/-- Each directive is cut by itself, and nothing follows the last semicolon. -/
theorem Policy.cut_render (policy : Policy) :
    cut ';' policy.render = policy.directives.flatMap (cut ';' ·.render) ++ [""] := by
  rw [render]
  induction policy.directives with
  | nil => rfl
  | cons directive rest ih =>
    have hmark : ";" = String.singleton ';' := rfl
    rw [renderDirectives, hmark, cut_append, ih, List.flatMap_cons, List.append_assoc]

/-- A directive comes out whole when none of its report targets has a semicolon. -/
theorem Policy.Conforms.cut_directive {vocabulary : Vocabulary} {policy : Policy}
    (hp : policy.Conforms vocabulary) (h : vocabulary.Delimiter ';') {directive : Directive}
    (hd : directive ∈ policy.directives) (ht : ∀ text ∈ directive.targets, ';' ∉ text.toList) :
    cut ';' directive.render = [directive.render] := by
  obtain ⟨form, hf, hc⟩ := hp.formed directive hd
  exact cut_of_not_mem (h.not_mem_directive (by decide) hf hc ht)

/-- When no report target has a semicolon, the pieces are the directives. -/
theorem Policy.Conforms.cut_render {vocabulary : Vocabulary} {policy : Policy}
    (hp : policy.Conforms vocabulary) (h : vocabulary.Delimiter ';')
    (ht : ∀ text ∈ policy.targets, ';' ∉ text.toList) :
    cut ';' policy.render = policy.directives.map Directive.render ++ [""] := by
  have hwhole : ∀ directive ∈ policy.directives,
      cut ';' directive.render = [directive.render] := fun directive hd =>
    hp.cut_directive h hd fun text hm => ht text (List.mem_flatMap.2 ⟨directive, hd, hm⟩)
  rw [policy.cut_render, List.flatMap_congr hwhole, List.map_eq_flatMap]

/-- Where semicolons and commas stand in a rendered policy. -/
structure Policy.Delimited (policy : Policy) : Prop where
  blanks : ∀ directive ∈ policy.directives, ∀ source ∈ directive.sources,
    ' ' ∉ source.render.toList
  /-- Only report targets can have the others. -/
  marks : ∀ directive ∈ policy.directives, ∀ source ∈ directive.sources, source.target? = none →
    ';' ∉ source.render.toList ∧ ',' ∉ source.render.toList
  /-- One semicolon for each directive, and those of the report targets. -/
  semicolons : policy.render.toList.count ';' =
    policy.directives.length + (policy.targets.map (·.toList.count ';')).sum
  commas : policy.render.toList.count ',' = (policy.targets.map (·.toList.count ',')).sum
  /-- Cutting at semicolons never joins two directives. -/
  pieces : cut ';' policy.render = policy.directives.flatMap (cut ';' ·.render) ++ [""]
  /-- A directive comes out whole when no report target of its own has a semicolon. -/
  whole : ∀ directive ∈ policy.directives, (∀ text ∈ directive.targets, ';' ∉ text.toList) →
    cut ';' directive.render = [directive.render]
  /-- Without semicolons in report targets, the pieces are the directives. -/
  directives : (∀ text ∈ policy.targets, ';' ∉ text.toList) →
    policy.render.toList.count ';' = policy.directives.length ∧
      cut ';' policy.render = policy.directives.map Directive.render ++ [""]

/-- Delimiters of a vocabulary delimit the policies that conform to it. -/
theorem Policy.Conforms.delimited {vocabulary : Vocabulary} {policy : Policy}
    (hp : policy.Conforms vocabulary) (hb : vocabulary.Delimiter ' ')
    (hs : vocabulary.Delimiter ';') (hc : vocabulary.Delimiter ',') : policy.Delimited := by
  have semicolons := hs.count_policy (by decide) hp
  have hone : ";".toList.count ';' = 1 := by decide
  rw [hone, Nat.mul_one] at semicolons
  have hnone : ";".toList.count ',' = 0 := by decide
  refine
    { blanks := ?_
      marks := ?_
      semicolons := semicolons
      commas := by rw [hc.count_policy (by decide) hp, hnone, Nat.mul_zero, Nat.zero_add]
      pieces := policy.cut_render
      whole := fun directive hd ht => hp.cut_directive hs hd ht
      directives := ?_ }
  · intro directive hd source hsource
    obtain ⟨form, hf, hform⟩ := hp.formed directive hd
    exact (hform.admitted source hsource).blank_not_mem hb hf
  · intro directive hd source hsource ht
    obtain ⟨form, hf, hform⟩ := hp.formed directive hd
    have ha := hform.admitted source hsource
    exact ⟨hs.not_mem_source hf ha ht, hc.not_mem_source hf ha ht⟩
  · intro ht
    constructor
    · rw [semicolons, (sum_count_eq_zero_iff ';' policy.targets).2 ht, Nat.add_zero]
    · exact hp.cut_render hs ht

/-- Beside report targets, nothing that an author lists for the directives of the first standard can
end a directive or the policy. -/
theorem delimited_of_reachable (policy : Policy) (h : policy.Reachable .csp1) :
    policy.Delimited :=
  h.conforms.delimited (Vocabulary.csp1_delimiter (by decide))
    (Vocabulary.csp1_delimiter (by decide)) (Vocabulary.csp1_delimiter (by decide))

/-- Two directives and the semicolons behind them, the report target among the rest. -/
theorem delimited_of_reachable_without_marks :
    ∃ policy : Policy, policy.Reachable .csp1 ∧
      policy.render = "script-src 'self' data:;report-uri /report?v=1;" ∧
      cut ';' policy.render = policy.directives.map Directive.render ++ [""] := by
  have hf : Store.Founded .csp1 _ :=
    .ofValues ⟨[("script-src", ["self", "Data:"]), ("report-uri", ["/report?v=1"])], by decide⟩ ∅
      _ rfl
  have hr : Policy.Reachable .csp1 _ := ⟨_, .enforce, hf.reachable, rfl⟩
  exact ⟨_, hr, by decide, ((delimited_of_reachable _ hr).directives (by decide)).2⟩

/-- A report target with a semicolon starts a directive of its own, here a sandbox that nobody asked
for, and with a comma a policy. -/
theorem report_target_starts_directive :
    ∃ store, Store.ofValues .csp1 ⟨[("report-uri", ["/report,v;sandbox"])], by decide⟩ ∅ =
        .ok store ∧
      store.Reachable .csp1 ∧
      (∃ directive ∈ store.enforced.directives, ∃ source ∈ directive.sources,
        ';' ∈ source.render.toList ∧ ',' ∈ source.render.toList) ∧
      store.enforced.render.toList.count ';' ≠ store.enforced.directives.length ∧
      store.enforced.directives.map Directive.render ++ [""] =
        ["report-uri /report,v;sandbox", ""] ∧
      cut ';' store.enforced.render = ["report-uri /report,v", "sandbox", ""] := by
  have hstore : Store.ofValues .csp1 ⟨[("report-uri", ["/report,v;sandbox"])], by decide⟩ ∅ =
      .ok _ := rfl
  exact ⟨_, hstore, (Store.Founded.ofValues _ _ _ hstore).reachable, by decide, by decide,
    by decide, by decide⟩

end ContentSecurity
