import ContentSecurity.Amendments
import ContentSecurity.Json.Value

/-!
How listed values are written in JSON: an object from directives to values, where the values are a
list of texts or one text alone. Writing always gives the list. A name that comes twice in an
object has its last value at its first place.
-/
namespace ContentSecurity.Written

open Json

/-- The texts of a list, if it holds nothing else. -/
def textsOf? : List Value → Option (List String)
  | [] => some []
  | .text first :: rest => (textsOf? rest).map (first :: ·)
  | _ :: _ => none

/-- One text, or a list of texts. -/
def valuesOf? : Value → Option (List String)
  | .text only => some [only]
  | .list items => textsOf? items
  | _ => none

/-- Reads the values of a directive. Whether they are texts is asked only after all is read. -/
def readValues (depth : Nat) : Reader (List String) := fun input => do
  let (found, rest) ← value true depth input
  match valuesOf? found with
  | some values => .ok (values, rest)
  | none => .error .mismatched

/-- Reads an object that maps any names to items of one form. -/
def readMap (item : Nat → Reader α) : Nat → Reader (OrderedMap α)
  | 0 => fun input =>
    match dropBlanks input with
    | '\x7b' :: _ => .error .malformed
    | input => refuse input
  | depth + 1 => fun input =>
    match dropBlanks input with
    | '\x7b' :: rest =>
      object true (fun name map input => do
        let (found, rest) ← memberValue (item depth) input
        .ok (map.insert name found, rest)) ∅ rest
    | input => refuse input

def readDirectiveValues : Nat → Reader DirectiveValues :=
  readMap readValues

def readScopedValues : Nat → Reader ScopedValues :=
  readMap readDirectiveValues

/-- Reads the values of a directive from a text that holds nothing else. -/
def parseValues (text : String) : Except Refusal (List String) :=
  (readAll (readValues deepest) text).mapError .json

def writeValues (values : List String) : List Char :=
  writeList (values.map quote)

def writeDirectiveValues (listed : DirectiveValues) : List Char :=
  writeObject (listed.entries.map fun (directive, values) => (directive, writeValues values))

def writeScopedValues (listed : ScopedValues) : List Char :=
  writeObject (listed.entries.map fun (scope, listed) => (scope, writeDirectiveValues listed))

/-- The values of a directive as a text. -/
def renderValues (values : List String) : String :=
  String.ofList (writeValues values)

end ContentSecurity.Written
