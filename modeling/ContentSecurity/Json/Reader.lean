import ContentSecurity.Json.Fault

/-!
Readers of JSON texts. A reader takes a value from the front of a text and gives it with what is
left. Of several faults in a text the one that comes first is reported, so a reader stops where it
meets a fault and looks no further.
-/
namespace ContentSecurity.Json

abbrev Reader (α : Type) := List Char → Except Fault (α × List Char)

def isBlank (c : Char) : Bool :=
  c == ' ' || c == '\n' || c == '\t' || c == '\r'

def dropBlanks (text : List Char) : List Char :=
  text.dropWhile isBlank

/-- Reads the letters of a word one by one. -/
def word : List Char → Reader Unit
  | [], text => .ok ((), text)
  | _ :: _, [] => .error .truncated
  | letter :: letters, c :: text => if c = letter then word letters text else .error .malformed

/-- Reads one mark after blanks. -/
def mark (c : Char) : Reader Unit := fun text =>
  match dropBlanks text with
  | [] => .error .truncated
  | first :: rest => if first = c then .ok ((), rest) else .error .malformed

/-- Reads a whole text. Nothing but blanks may follow the value. -/
def readAll (reader : Reader α) (text : String) : Except Fault α := do
  let (value, rest) ← reader text.toList
  if (dropBlanks rest).isEmpty then .ok value else .error .malformed

end ContentSecurity.Json
