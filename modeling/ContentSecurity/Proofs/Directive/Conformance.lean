import ContentSecurity.Proofs.Directive.Reading

/-!
What a directive satisfies once it has been read: no source stands in it twice, every source is one
that its form admits, and nothing stands beside `*` or `none`. Removing values never breaks this,
although nothing is read again.
-/
namespace ContentSecurity

/-- The sources that a form admits, kind by kind. -/
inductive DirectiveForm.Admits (form : DirectiveForm) : Source → Prop where
  | keyword (word : String) (hk : form.kind = .sources) (hw : word ∈ form.keywords) :
      Admits form (.keyword word)
  | anywhere (hk : form.kind = .sources) : Admits form .anywhere
  | data (hk : form.kind = .sources) : Admits form .data
  | host (text : String) (hk : form.kind = .sources)
      (ht : (HostPattern.parse? text).isSome = true) : Admits form (.host text)
  | allowance (word : String) (hk : form.kind = .allowances) (hw : word ∈ form.keywords) :
      Admits form (.allowance word)
  | reportTarget (text : String) (hk : form.kind = .reportTargets)
      (ht : isReportTarget text = true) : Admits form (.reportTarget text)

structure Directive.Conforms (form : DirectiveForm) (directive : Directive) : Prop where
  distinct : directive.sources.Nodup
  admitted : ∀ source ∈ directive.sources, form.Admits source
  exclusive : ∀ source ∈ directive.sources,
    source = .anywhere ∨ source = .keyword "none" → directive.sources = [source]

namespace DirectiveForm

/-- What a value is read as, the form admits. -/
theorem admits_of_classify {form : DirectiveForm} {value : String} {source : Source}
    (h : form.classify value = some source) : form.Admits source := by
  cases reads_of_classify h with
  | keyword _ hk hw => exact .keyword value hk hw
  | anywhere hk => exact .anywhere hk
  | data _ hk => exact .data hk
  | host _ hk _ hh => exact .host value hk hh
  | allowance _ hk hw => exact .allowance value hk hw
  | reportTarget _ hk ht => exact .reportTarget value hk ht

/-- Only a loner is read as `*` or as `none`. -/
theorem isLoner_of_classify {form : DirectiveForm} {value : String} {source : Source}
    (h : form.classify value = some source) (hs : source = .anywhere ∨ source = .keyword "none") :
    form.IsLoner value := by
  obtain rfl | rfl := hs
  · cases reads_of_classify h with
    | anywhere hk => exact ⟨hk, Or.inr rfl⟩
  · cases reads_of_classify h with
    | keyword _ hk hw => exact ⟨hk, Or.inl ⟨rfl, (form.hasKeyword_iff _).2 hw⟩⟩

/-- Accepted values make a directive that conforms. -/
theorem directive_conforms {form : DirectiveForm} {values : List String}
    (h : form.Accepts values) (name : String) : (form.directive name values).Conforms form where
  distinct := nodup_eraseDups _
  admitted := by
    intro source hs
    obtain ⟨value, -, hc⟩ := (form.mem_directive name values source).1 hs
    exact admits_of_classify hc
  exclusive := by
    intro source hs hl
    obtain ⟨value, hv, hc⟩ := (form.mem_directive name values source).1 hs
    have hall : ∀ other ∈ (form.directive name values).sources, other = source := by
      intro other ho
      obtain ⟨value', hv', hc'⟩ := (form.mem_directive name values other).1 ho
      rw [h.alone value hv (isLoner_of_classify hc hl) value' hv', hc] at hc'
      exact (Option.some.inj hc').symm
    exact eq_singleton_of_nodup (nodup_eraseDups _) hs hall

end DirectiveForm

/-- Whatever is dropped, the rest conforms as before. -/
theorem Directive.Conforms.without {form : DirectiveForm} {directive : Directive}
    (h : directive.Conforms form) (values : List String) :
    (directive.without values).Conforms form where
  distinct := h.distinct.filter _
  admitted := fun source hs => h.admitted source (List.mem_filter.1 hs).1
  exclusive := by
    intro source hs hl
    obtain ⟨hm, hkeep⟩ := List.mem_filter.1 hs
    simp only [Directive.without, h.exclusive source hm hl]
    simpa using hkeep

end ContentSecurity
