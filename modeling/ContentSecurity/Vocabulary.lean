import ContentSecurity.OrderedMap

/-!
Which directives there are, what kind of values each takes and which keywords it knows, and the
vocabulary that CSP 1.0 lays down.
-/
namespace ContentSecurity

inductive ValueKind where
  | sources | allowances | reportTargets
  deriving DecidableEq, Repr

/-- What may stand in a directive. -/
structure DirectiveForm where
  kind : ValueKind
  keywords : List String
  deriving DecidableEq, Repr

def DirectiveForm.hasKeyword (form : DirectiveForm) (word : String) : Bool :=
  form.keywords.contains word

/-- A form for each known directive. -/
abbrev Vocabulary := OrderedMap DirectiveForm

namespace Vocabulary

/-- The known directives in the order of their code points. -/
def names (vocabulary : Vocabulary) : List String :=
  vocabulary.keys.mergeSort fun a b => decide (a ≤ b)

/-- The directives of CSP 1.0. -/
def csp1 : Vocabulary :=
  OrderedMap.ofList [
    ("report-uri", ⟨.reportTargets, []⟩),
    ("sandbox", ⟨.allowances,
      ["allow-forms", "allow-same-origin", "allow-scripts", "allow-top-navigation"]⟩),
    ("connect-src", ⟨.sources, ["none", "self"]⟩),
    ("default-src", ⟨.sources, ["none", "self"]⟩),
    ("font-src", ⟨.sources, ["none", "self"]⟩),
    ("frame-src", ⟨.sources, ["none", "self"]⟩),
    ("img-src", ⟨.sources, ["none", "self"]⟩),
    ("media-src", ⟨.sources, ["none", "self"]⟩),
    ("object-src", ⟨.sources, ["none", "self"]⟩),
    ("script-src", ⟨.sources, ["none", "self", "unsafe-eval", "unsafe-inline"]⟩),
    ("style-src", ⟨.sources, ["none", "self", "unsafe-inline"]⟩)]

end Vocabulary

end ContentSecurity
