import ContentSecurity.Directive
import ContentSecurity.Header.FieldValue

/-!
Policies: directives in the order in which they first came, at most one of a name. A policy is
written as text and, for the wire, as bytes; each directive ends with a semicolon.
-/
namespace ContentSecurity

/-- The directives of a policy, each under its name. -/
structure Policy where
  entries : OrderedMap Directive
  deriving DecidableEq

namespace Policy

def empty : Policy := ⟨∅⟩

instance : EmptyCollection Policy := ⟨empty⟩

instance : Inhabited Policy := ⟨empty⟩

def directives (policy : Policy) : List Directive :=
  policy.entries.values

def isEmpty (policy : Policy) : Bool :=
  policy.entries.isEmpty

def get? (policy : Policy) (name : String) : Option Directive :=
  policy.entries.get? name

/-- Puts a directive in the place of the one with its name, or at the end. -/
def insert (policy : Policy) (directive : Directive) : Policy :=
  ⟨policy.entries.insert directive.name directive⟩

/-- Drops the values from the directive of that name, and the directive itself when no source is
left in it. -/
def without (policy : Policy) (name : String) (values : List String) : Policy :=
  ⟨policy.entries.update name (·.left? values)⟩

theorem mem_directives_iff (policy : Policy) (directive : Directive) :
    directive ∈ policy.directives ↔ ∃ name, policy.get? name = some directive := by
  simp only [directives, OrderedMap.values, List.mem_map, get?, OrderedMap.get?_eq_some_iff]
  constructor
  · rintro ⟨entry, hm, rfl⟩
    exact ⟨entry.1, hm⟩
  · rintro ⟨name, hm⟩
    exact ⟨(name, directive), hm, rfl⟩

theorem get?_insert (policy : Policy) (directive : Directive) (name : String) :
    (policy.insert directive).get? name =
      if directive.name = name then some directive else policy.get? name :=
  policy.entries.get?_insert directive.name name directive

theorem get?_without (policy : Policy) (name other : String) (values : List String) :
    (policy.without name values).get? other =
      if name = other then (policy.get? name).bind (·.left? values) else policy.get? other :=
  policy.entries.get?_update name other _

/-- The same directives with the same sources, in whatever order the directives stand. -/
def sameDirectives (policy other : Policy) : Bool :=
  policy.entries.sameEntries (· == ·) other.entries

def renderDirectives : List Directive → String
  | [] => ""
  | directive :: rest => directive.render ++ ";" ++ renderDirectives rest

def render (policy : Policy) : String :=
  renderDirectives policy.directives

/-- Appends the bytes of the directives, each with its semicolon. -/
def writeDirectives (buffer : ByteArray) : List Directive → ByteArray
  | [] => buffer
  | directive :: rest => writeDirectives (directive.write buffer ++ ";".toUTF8) rest

theorem writeDirectives_eq (buffer : ByteArray) (directives : List Directive) :
    writeDirectives buffer directives = buffer ++ (renderDirectives directives).toUTF8 := by
  induction directives generalizing buffer with
  | nil => simp [writeDirectives, renderDirectives]
  | cons directive rest ih =>
    simp [writeDirectives, renderDirectives, ih, Directive.write_eq, ByteArray.append_assoc]

/-- Appends the bytes of the policy as it stands in a header. -/
def write (buffer : ByteArray) (policy : Policy) : ByteArray :=
  writeDirectives buffer policy.directives

theorem write_eq (buffer : ByteArray) (policy : Policy) :
    policy.write buffer = buffer ++ policy.render.toUTF8 :=
  writeDirectives_eq buffer policy.directives

/-- How many bytes the directives take, each with the semicolon after it. -/
def directivesSize : List Directive → Nat
  | [] => 0
  | directive :: rest => directive.size + 1 + directivesSize rest

/-- How many bytes the policy takes in a header. -/
def size (policy : Policy) : Nat :=
  directivesSize policy.directives

theorem directivesSize_eq (directives : List Directive) :
    directivesSize directives = (renderDirectives directives).utf8ByteSize := by
  induction directives with
  | nil => rfl
  | cons directive rest ih =>
    have mark : ";".utf8ByteSize = 1 := by decide
    simp only [directivesSize, renderDirectives, String.utf8ByteSize_append, Directive.size_eq, ih,
      mark]

theorem size_eq (policy : Policy) : policy.size = policy.render.utf8ByteSize :=
  directivesSize_eq policy.directives

/-- A policy that holds a control character has no header value. -/
def unprintable : Refusal :=
  .header "Failed to create header value: failed to parse header value"

/-- The value of the policy's header. A policy without directives needs no header. -/
def fieldValue (policy : Policy) : Except Refusal (Option FieldValue) :=
  if policy.isEmpty then .ok none
  else
    match FieldValue.ofBytes? (policy.write ByteArray.empty) with
    | some value => .ok (some value)
    | none => .error unprintable

end Policy

end ContentSecurity
