import ContentSecurity.Json.Numeral
import ContentSecurity.Json.Quoted

/-!
JSON values, and the readers and writers of lists and objects from which the forms of documents are
put together.
-/
namespace ContentSecurity.Json

inductive Value where
  | null
  | bool (value : Bool)
  | number (numeral : Numeral)
  | text (text : String)
  | list (items : List Value)
  | object (members : List (String × Value))

/-- How deep lists and objects may be nested. -/
def deepest : Nat := 127

/-- Reads the next element of a list, or finds that the closing bracket follows, which it leaves. -/
def element? (item : Reader α) (first : Bool) : Reader (Option α) := fun text =>
  match dropBlanks text with
  | [] => .error .truncated
  | c :: rest =>
    if c = ']' then .ok (none, c :: rest)
    else if first then do
      let (found, rest) ← item (c :: rest)
      .ok (some found, rest)
    else if c = ',' then
      match dropBlanks rest with
      | [] => .error .truncated
      | c :: rest =>
        if c = ']' then .error .malformed
        else do
          let (found, rest) ← item (c :: rest)
          .ok (some found, rest)
    else .error .malformed

/-- Reads elements up to and with the closing bracket, in at most so many rounds. -/
def elements (item : Reader α) : Nat → Bool → Reader (List α)
  | 0, _ => fun _ => .error .truncated
  | rounds + 1, first => fun text => do
    let (found, rest) ← element? item first text
    match found with
    | none =>
      let (_, rest) ← mark ']' rest
      .ok ([], rest)
    | some found =>
      let (others, rest) ← elements item rounds false rest
      .ok (found :: others, rest)

/-- Reads a list of which the opening bracket has been read. Each element takes at least one
character of the text, so its length bounds the rounds. -/
def list (item : Reader α) : Reader (List α) := fun text =>
  elements item (text.length + 1) true text

/-- Reads the next key of an object, or finds that the closing brace follows, which it leaves. -/
def key? (strict first : Bool) : Reader (Option String) := fun text =>
  match dropBlanks text with
  | [] => .error .truncated
  | c :: rest =>
    if c = '\x7d' then .ok (none, c :: rest)
    else if first then key c rest
    else if c = ',' then
      match dropBlanks rest with
      | [] => .error .truncated
      | c :: rest => key c rest
    else .error .malformed
where
  key (c : Char) : Reader (Option String) := fun rest =>
    if c = '"' then do
      let (found, rest) ← quoted strict rest
      .ok (some (String.ofList found), rest)
    else .error .malformed

/-- Reads members up to and with the closing brace, in at most so many rounds. Each member, of which
the key has been read, goes into what has been gathered before. -/
def members (strict : Bool) (member : String → σ → Reader σ) : Nat → Bool → σ → Reader σ
  | 0, _, _ => fun _ => .error .truncated
  | rounds + 1, first, gathered => fun text => do
    let (key, rest) ← key? strict first text
    match key with
    | none =>
      let (_, rest) ← mark '\x7d' rest
      .ok (gathered, rest)
    | some key =>
      let (gathered, rest) ← member key gathered rest
      members strict member rounds false gathered rest

/-- Reads an object of which the opening brace has been read. -/
def object (strict : Bool) (member : String → σ → Reader σ) (start : σ) : Reader σ := fun text =>
  members strict member (text.length + 1) true start text

/-- Reads the value of a member, whose key has been read. -/
def memberValue (item : Reader α) : Reader α := fun text => do
  let (_, rest) ← mark ':' text
  item rest

/-- Reads a value that is neither a list nor an object. -/
def leaf (strict : Bool) : Reader Value
  | [] => .error .truncated
  | 'n' :: rest => do
    let (_, rest) ← word "ull".toList rest
    .ok (.null, rest)
  | 't' :: rest => do
    let (_, rest) ← word "rue".toList rest
    .ok (.bool true, rest)
  | 'f' :: rest => do
    let (_, rest) ← word "alse".toList rest
    .ok (.bool false, rest)
  | '"' :: rest => do
    let (found, rest) ← quoted strict rest
    .ok (.text (String.ofList found), rest)
  | c :: rest =>
    if c = '-' ∨ c.isDigit then do
      let (numeral, rest) ← Numeral.read strict (c :: rest)
      .ok (.number numeral, rest)
    else .error .malformed

/-- Reads any value in which lists and objects are nested at most so deep. -/
def value (strict : Bool) : Nat → Reader Value
  | 0 => fun text => leaf strict (dropBlanks text)
  | depth + 1 => fun text =>
    match dropBlanks text with
    | '[' :: rest => do
      let (items, rest) ← list (value strict depth) rest
      .ok (.list items, rest)
    | '\x7b' :: rest => do
      let (found, rest) ← object strict (fun key gathered text => do
        let (item, rest) ← memberValue (value strict depth) text
        .ok (gathered ++ [(key, item)], rest)) [] rest
      .ok (.object found, rest)
    | text => leaf strict text

/-- Passes over a value, however deep it is nested. -/
def skip : Reader Unit := fun text => do
  let (_, rest) ← value false text.length text
  .ok ((), rest)

/-- Refuses a value of another form than the one asked for. A list or an object is refused where it
begins; any other value is read first. -/
def refuse : Reader α
  | '[' :: _ => .error .mismatched
  | '\x7b' :: _ => .error .mismatched
  | text => do
    let _ ← leaf true text
    .error .mismatched

/-- Reads a text. -/
def text : Reader String := fun input =>
  match dropBlanks input with
  | '"' :: rest => do
    let (found, rest) ← quoted true rest
    .ok (String.ofList found, rest)
  | input => refuse input

/-- Puts commas between items. -/
def writeItems : List (List Char) → List Char
  | [] => []
  | [item] => item
  | item :: rest => item ++ ',' :: writeItems rest

def writeList (items : List (List Char)) : List Char :=
  '[' :: writeItems items ++ [']']

def writeMember (member : String × List Char) : List Char :=
  quote member.1 ++ ':' :: member.2

def writeObject (members : List (String × List Char)) : List Char :=
  '\x7b' :: writeItems (members.map writeMember) ++ ['\x7d']

end ContentSecurity.Json
