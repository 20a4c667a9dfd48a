import ContentSecurity.Refusal
import ContentSecurity.Source
import ContentSecurity.Vocabulary

/-!
Directives: a name with its sources. The vocabulary decides which values a directive may carry,
and an author's values are read by it.
-/
namespace ContentSecurity

structure Directive where
  name : String
  sources : List Source
  deriving DecidableEq, Repr

namespace Directive

/-- The sources as an author writes them. -/
def written (directive : Directive) : List String :=
  directive.sources.map Source.written

/-- Whether a value names one of the sources. -/
def mentions (directive : Directive) (value : String) : Bool :=
  directive.sources.any (·.isNamedBy value)

/-- Drops every source that one of the values names. -/
def without (directive : Directive) (values : List String) : Directive :=
  { directive with sources := directive.sources.filter fun source => !values.any source.isNamedBy }

/-- The directive without the values, unless no source is left. -/
def left? (directive : Directive) (values : List String) : Option Directive :=
  let left := directive.without values
  if left.sources.isEmpty then none else some left

theorem left?_eq_some_iff (directive : Directive) (values : List String) (left : Directive) :
    directive.left? values = some left ↔
      left = directive.without values ∧ left.sources ≠ [] := by
  unfold left?
  by_cases h : (directive.without values).sources = []
  · simp only [h, List.isEmpty_nil, if_true]
    constructor
    · intro hn
      cases hn
    · rintro ⟨rfl, hl⟩
      exact absurd h hl
  · rw [if_neg (by simpa using h)]
    constructor
    · rintro ⟨⟩
      exact ⟨rfl, h⟩
    · rintro ⟨rfl, -⟩
      rfl

/-- The sources as they follow the name, each after a blank. -/
def renderSources : List Source → String
  | [] => ""
  | source :: rest => " " ++ source.render ++ renderSources rest

def render (directive : Directive) : String :=
  directive.name ++ renderSources directive.sources

/-- Appends the bytes of the sources, each after a blank. -/
def writeSources (buffer : ByteArray) : List Source → ByteArray
  | [] => buffer
  | source :: rest => writeSources (source.write (buffer ++ " ".toUTF8)) rest

theorem writeSources_eq (buffer : ByteArray) (sources : List Source) :
    writeSources buffer sources = buffer ++ (renderSources sources).toUTF8 := by
  induction sources generalizing buffer with
  | nil => simp [writeSources, renderSources]
  | cons source rest ih =>
    simp [writeSources, renderSources, ih, Source.write_eq, ByteArray.append_assoc]

/-- Appends the bytes of the directive as it stands in a header. -/
def write (buffer : ByteArray) (directive : Directive) : ByteArray :=
  writeSources (buffer ++ directive.name.toUTF8) directive.sources

theorem write_eq (buffer : ByteArray) (directive : Directive) :
    directive.write buffer = buffer ++ directive.render.toUTF8 := by
  simp [write, render, writeSources_eq, ByteArray.append_assoc]

/-- How many bytes the sources take, each with the blank before it. -/
def sourcesSize : List Source → Nat
  | [] => 0
  | source :: rest => source.size + 1 + sourcesSize rest

/-- How many bytes the directive takes in a header. -/
def size (directive : Directive) : Nat :=
  directive.name.utf8ByteSize + sourcesSize directive.sources

theorem sourcesSize_eq (sources : List Source) :
    sourcesSize sources = (renderSources sources).utf8ByteSize := by
  induction sources with
  | nil => rfl
  | cons source rest ih =>
    have blank : " ".utf8ByteSize = 1 := by decide
    simp only [sourcesSize, renderSources, String.utf8ByteSize_append, Source.size_eq, ih, blank]
    omega

theorem size_eq (directive : Directive) : directive.size = directive.render.utf8ByteSize := by
  simp [size, render, sourcesSize_eq]

end Directive

namespace DirectiveForm

/-- The value that tolerates no other beside it: `none` where it is a keyword, and `*`. -/
def loner? (form : DirectiveForm) (values : List String) : Option String :=
  if form.hasKeyword "none" && values.contains "none" then some "none"
  else if values.contains "*" then some "*"
  else none

/-- Tells what a value in a list of sources is. -/
def source? (form : DirectiveForm) (value : String) : Option Source :=
  if form.hasKeyword value then some (.keyword value)
  else if isStar value then some .anywhere
  else if isDataMark value then some .data
  else if (HostPattern.parse? value).isSome then some (.host value)
  else none

/-- Reads the distinct values of a directive, and names the first that is not allowed. -/
def readValues (form : DirectiveForm) (directive : String) (values : List String) :
    Except Refusal (List Source) :=
  match form.kind with
  | .reportTargets => values.mapM fun value =>
      if isReportTarget value then .ok (.reportTarget value) else .error (.unreadableTarget value)
  | .allowances => values.mapM fun value =>
      if form.hasKeyword value then .ok (.allowance value) else .error (.unknownAllowance value)
  | .sources =>
    match if values.length > 1 then form.loner? values else none with
    | some value => .error (.notAlone directive value)
    | none => values.mapM fun value =>
        match form.source? value with
        | some source => .ok source
        | none => .error (.unreadableSource directive value)

end DirectiveForm

/-- Reads what an author lists for a directive. A value written twice counts once. -/
def Vocabulary.readDirective (vocabulary : Vocabulary) (name : String) (values : List String) :
    Except Refusal Directive :=
  match vocabulary.get? name with
  | none => .error (.unknownDirective name)
  | some form => do
    let sources ← form.readValues name values.eraseDups
    return ⟨name, sources.eraseDups⟩

end ContentSecurity
