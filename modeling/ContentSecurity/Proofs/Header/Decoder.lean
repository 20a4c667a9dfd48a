import ContentSecurity.Proofs.Header.Delimiters

/-!
A rendered policy is read back. The reader cuts at semicolons, cuts each block at blanks, takes the
first word for the name of a directive and tells by the kind of that directive what the other words
are. It gives back the directives of a policy as they stood there, unless a report target has a
semicolon; so what is rendered alike is alike.
-/
namespace ContentSecurity

/-! ## Words -/

/-- The text between two quotes. -/
def unquoted? (word : String) : Option String :=
  match word.toList with
  | '\'' :: rest => if rest.getLast? = some '\'' then some (String.ofList rest.dropLast) else none
  | _ => none

theorem unquoted?_quoted (word : String) : unquoted? ("'" ++ word ++ "'") = some word := by
  have hl : ("'" ++ word ++ "'").toList = '\'' :: (word.toList ++ ['\'']) := by simp
  simp [unquoted?, hl]

theorem unquoted?_eq_none {word : String} (h : '\'' ∉ word.toList) : unquoted? word = none := by
  unfold unquoted?
  split
  · next rest hl =>
    rw [hl] at h
    exact absurd List.mem_cons_self h
  · rfl

/-- Tells what a word of a rendered directive is, by the kind of the directive. -/
def Source.ofWord (kind : ValueKind) (word : String) : Source :=
  match kind with
  | .allowances => .allowance word
  | .reportTargets => .reportTarget word
  | .sources =>
    match unquoted? word with
    | some inner => .keyword inner
    | none => if word = "*" then .anywhere else if word = "data:" then .data else .host word

/-- A host is not mistaken for a keyword, for the star or for `data:`. -/
theorem Source.ofWord_host {text : String} (h : (HostPattern.parse? text).isSome = true) :
    ofWord .sources text = .host text := by
  have hquote : '\'' ∉ text.toList := by
    intro hm
    exact absurd (isHostChar_of_parse? h '\'' hm) (by decide)
  have hstar : text ≠ "*" := by
    rintro rfl
    exact absurd h (by decide)
  have hdata : text ≠ "data:" := by
    rintro rfl
    exact absurd h (by decide)
  simp only [ofWord, unquoted?_eq_none hquote, if_neg hstar, if_neg hdata]

/-- The word of a source that a form admits is told to be that source. -/
theorem DirectiveForm.Admits.ofWord_render {form : DirectiveForm} {source : Source}
    (ha : form.Admits source) : Source.ofWord form.kind source.render = source := by
  cases ha with
  | keyword word hk _ =>
    rw [hk]
    simp only [Source.ofWord, Source.render, unquoted?_quoted]
  | anywhere hk =>
    rw [hk]
    decide
  | data hk =>
    rw [hk]
    decide
  | host text hk ht =>
    rw [hk]
    exact Source.ofWord_host ht
  | allowance word hk _ =>
    rw [hk]
    rfl
  | reportTarget text hk _ =>
    rw [hk]
    rfl

/-! ## Blocks -/

/-- Reads a block as a directive that the vocabulary knows. -/
def Directive.ofBlock (vocabulary : Vocabulary) (block : String) : Option Directive :=
  match cut ' ' block with
  | [] => none
  | name :: words => (vocabulary.get? name).map fun form =>
      ⟨name, words.map (Source.ofWord form.kind)⟩

/-- Words that have no blank come back one by one. -/
theorem cut_renderSources (sources : List Source)
    (hs : ∀ source ∈ sources, ' ' ∉ source.render.toList) {first : String}
    (hf : ' ' ∉ first.toList) :
    cut ' ' (first ++ Directive.renderSources sources) = first :: sources.map Source.render := by
  induction sources generalizing first with
  | nil =>
    have hnil : first ++ Directive.renderSources [] = first := String.append_empty
    rw [hnil, cut_of_not_mem hf, List.map_nil]
  | cons source rest ih =>
    have hrest := ih (fun other ho => hs other (List.mem_cons_of_mem _ ho))
      (hs source List.mem_cons_self)
    have hblank : first ++ Directive.renderSources (source :: rest) =
        first ++ String.singleton ' ' ++ (source.render ++ Directive.renderSources rest) := by
      simp only [Directive.renderSources, String.append_assoc]
      rfl
    rw [hblank, cut_append, cut_of_not_mem hf, hrest, List.map_cons, List.singleton_append]

/-- The text of a directive is read as that directive. -/
theorem Directive.Conforms.ofBlock_render {vocabulary : Vocabulary} {form : DirectiveForm}
    {directive : Directive} (hc : directive.Conforms form) (h : vocabulary.Delimiter ' ')
    (hf : vocabulary.get? directive.name = some form) :
    Directive.ofBlock vocabulary directive.render = some directive := by
  have hcut : cut ' ' directive.render = directive.name :: directive.sources.map Source.render :=
    cut_renderSources directive.sources
      (fun source hs => (hc.admitted source hs).blank_not_mem h hf) (h.not_mem_name hf)
  have hwords : (directive.sources.map Source.render).map (Source.ofWord form.kind) =
      directive.sources := by
    rw [List.map_map]
    exact (List.map_congr_left fun source hs => (hc.admitted source hs).ofWord_render).trans
      (List.map_id' directive.sources)
  simp only [ofBlock, hcut, hf, Option.map_some, hwords]

/-! ## Policies -/

/-- Reads a rendered policy, block by block. After the last semicolon there is no block. -/
def decode (vocabulary : Vocabulary) (text : String) : Option (List Directive) :=
  (cut ';' text).dropLast.mapM (Directive.ofBlock vocabulary)

theorem mapM_eq_some_of_forall {read : String → Option Directive} (directives : List Directive)
    (h : ∀ directive ∈ directives, read directive.render = some directive) :
    (directives.map Directive.render).mapM read = some directives := by
  induction directives with
  | nil => rfl
  | cons directive rest ih =>
    have hrest := ih fun other ho => h other (List.mem_cons_of_mem _ ho)
    simp [h directive List.mem_cons_self, hrest]

/-- The reader gives back what a conforming policy has, as long as no report target has a
semicolon. -/
theorem Policy.Conforms.decode_render {vocabulary : Vocabulary} {policy : Policy}
    (hp : policy.Conforms vocabulary) (hb : vocabulary.Delimiter ' ')
    (hs : vocabulary.Delimiter ';') (ht : ∀ text ∈ policy.targets, ';' ∉ text.toList) :
    decode vocabulary policy.render = some policy.directives := by
  rw [decode, hp.cut_render hs ht, List.dropLast_concat]
  apply mapM_eq_some_of_forall
  intro directive hd
  obtain ⟨form, hf, hc⟩ := hp.formed directive hd
  exact hc.ofBlock_render hb hf

/-- A rendered policy tells what its directives and their sources are, and in which order. -/
theorem render_decodes (policy : Policy) (h : policy.Reachable .csp1)
    (ht : ∀ text ∈ policy.targets, ';' ∉ text.toList) :
    decode .csp1 policy.render = some policy.directives ∧
      ∀ other : Policy, other.Reachable .csp1 → (∀ text ∈ other.targets, ';' ∉ text.toList) →
        other.render = policy.render → other.directives = policy.directives := by
  have hdecode {policy : Policy} (h : policy.Reachable .csp1)
      (ht : ∀ text ∈ policy.targets, ';' ∉ text.toList) :
      decode .csp1 policy.render = some policy.directives :=
    h.conforms.decode_render (Vocabulary.csp1_delimiter (by decide))
      (Vocabulary.csp1_delimiter (by decide)) ht
  refine ⟨hdecode h ht, ?_⟩
  intro other ho hto he
  have hother := hdecode ho hto
  rw [he, hdecode h ht] at hother
  exact (Option.some.inj hother).symm

/-- Every kind of source, and a directive without sources. -/
theorem render_decodes_every_kind :
    ∃ policy : Policy, policy.Reachable .csp1 ∧
      policy.render = "script-src 'self' data: *.example.com;style-src *;img-src;" ++
        "sandbox allow-forms;report-uri /report?v=1;" ∧
      decode .csp1 policy.render = some policy.directives := by
  have hf : Store.Founded .csp1 _ :=
    .ofValues ⟨[("script-src", ["self", "Data:", "*.example.com"]), ("style-src", ["*"]),
      ("img-src", []), ("sandbox", ["allow-forms"]), ("report-uri", ["/report?v=1"])],
      by decide⟩ ∅ _ rfl
  have hr : Policy.Reachable .csp1 _ := ⟨_, .enforce, hf.reachable, rfl⟩
  exact ⟨_, hr, by decide, (render_decodes _ hr (by decide)).1⟩

end ContentSecurity
