import ContentSecurity.Json.Reader

/-!
Quoted texts. Writing escapes the quote, the backslash and the control characters and nothing
else; reading knows every escape of JSON. A character above U+FFFF may be written as two surrogate
units; a surrogate unit without its partner is a fault, except in a value that is only skipped.
-/
namespace ContentSecurity.Json

/-- How a character stands between quotes. -/
def escapeChar (c : Char) : List Char :=
  if c = '"' then ['\\', '"']
  else if c = '\\' then ['\\', '\\']
  else if c = '\x08' then ['\\', 'b']
  else if c = '\t' then ['\\', 't']
  else if c = '\n' then ['\\', 'n']
  else if c = '\x0c' then ['\\', 'f']
  else if c = '\r' then ['\\', 'r']
  else if c.toNat < 32 then
    ['\\', 'u', '0', '0', Nat.digitChar (c.toNat / 16), Nat.digitChar (c.toNat % 16)]
  else [c]

def quote (text : String) : List Char :=
  '"' :: text.toList.flatMap escapeChar ++ ['"']

/-- The character that a letter after a backslash stands for. -/
def shortEscape? : Char → Option Char
  | '"' => some '"'
  | '\\' => some '\\'
  | '/' => some '/'
  | 'b' => some '\x08'
  | 'f' => some '\x0c'
  | 'n' => some '\n'
  | 'r' => some '\r'
  | 't' => some '\t'
  | _ => none

def hexValue (c : Char) : Nat :=
  if c.isDigit then c.toNat - '0'.toNat
  else if c.isLower then c.toNat - 'a'.toNat + 10
  else c.toNat - 'A'.toNat + 10

def byteLength (text : List Char) : Nat :=
  (String.ofList text).utf8ByteSize

/-- Reads four hexadecimal digits. The text is too short for them when fewer than four bytes are
left. -/
def fourHexDigits : Reader Nat
  | a :: b :: c :: d :: rest =>
    if [a, b, c, d].all Char.isHexDigit then
      .ok ([a, b, c, d].foldl (fun value digit => 16 * value + hexValue digit) 0, rest)
    else .error .malformed
  | short => .error (if byteLength short < 4 then .truncated else .malformed)

def isHighSurrogate (unit : Nat) : Bool :=
  0xD800 ≤ unit && unit ≤ 0xDBFF

def isLowSurrogate (unit : Nat) : Bool :=
  0xDC00 ≤ unit && unit ≤ 0xDFFF

/-- Reads the second unit of a pair of surrogates. -/
def lowSurrogate (high : Nat) : Reader Char
  | [] => .error .truncated
  | ['\\'] => .error .truncated
  | '\\' :: 'u' :: text => do
    let (low, rest) ← fourHexDigits text
    if isLowSurrogate low then
      .ok (Char.ofNat (0x10000 + 0x400 * (high - 0xD800) + (low - 0xDC00)), rest)
    else .error .malformed
  | _ => .error .malformed

/-- Reads a character of which `\u` has been read. -/
def unicodeEscape (strict : Bool) : Reader Char := fun text => do
  let (unit, rest) ← fourHexDigits text
  if isHighSurrogate unit || isLowSurrogate unit then
    if !strict then .ok ('\uFFFD', rest)
    else if isHighSurrogate unit then lowSurrogate unit rest
    else .error .malformed
  else .ok (Char.ofNat unit, rest)

/-- Reads a character of which the backslash has been read. -/
def escape (strict : Bool) : Reader Char
  | [] => .error .truncated
  | 'u' :: rest => unicodeEscape strict rest
  | letter :: rest =>
    match shortEscape? letter with
    | some c => .ok (c, rest)
    | none => .error .malformed

theorem length_of_fourHexDigits {text rest : List Char} {unit : Nat}
    (h : fourHexDigits text = .ok (unit, rest)) : rest.length < text.length := by
  unfold fourHexDigits at h
  split at h
  · split at h
    · cases h
      simp only [List.length_cons]
      omega
    · cases h
  · cases h

theorem length_of_lowSurrogate {high : Nat} {text rest : List Char} {c : Char}
    (h : lowSurrogate high text = .ok (c, rest)) : rest.length < text.length := by
  unfold lowSurrogate at h
  split at h
  · cases h
  · cases h
  · rename_i text
    cases hu : fourHexDigits text with
    | error fault => simp [hu, bind, Except.bind] at h
    | ok read =>
      have shorter := length_of_fourHexDigits hu
      simp only [hu, bind, Except.bind] at h
      split at h
      · simp only [Except.ok.injEq, Prod.mk.injEq] at h
        rw [← h.2]
        simp only [List.length_cons]
        omega
      · cases h
  · cases h

theorem length_of_unicodeEscape {strict : Bool} {text rest : List Char} {c : Char}
    (h : unicodeEscape strict text = .ok (c, rest)) : rest.length < text.length := by
  unfold unicodeEscape at h
  cases hu : fourHexDigits text with
  | error fault => simp [hu, bind, Except.bind] at h
  | ok read =>
    have shorter := length_of_fourHexDigits hu
    simp only [hu, bind, Except.bind] at h
    split at h
    · split at h
      · simp only [Except.ok.injEq, Prod.mk.injEq] at h
        exact h.2 ▸ shorter
      · split at h
        · exact Nat.lt_trans (length_of_lowSurrogate h) shorter
        · cases h
    · simp only [Except.ok.injEq, Prod.mk.injEq] at h
      exact h.2 ▸ shorter

/-- Every escape takes something from the text. -/
theorem length_of_escape {strict : Bool} {text rest : List Char} {c : Char}
    (h : escape strict text = .ok (c, rest)) : rest.length < text.length := by
  unfold escape at h
  split at h
  · cases h
  · exact Nat.lt_trans (length_of_unicodeEscape h) (by simp)
  · split at h
    · cases h
      simp
    · cases h

/-- Reads a text of which the opening quote has been read, up to and with the closing quote. -/
def quoted (strict : Bool) (text : List Char) : Except Fault (List Char × List Char) :=
  match text with
  | [] => .error .truncated
  | '"' :: rest => .ok ([], rest)
  | '\\' :: rest =>
    match _read : escape strict rest with
    | .error fault => .error fault
    | .ok (c, rest) => (quoted strict rest).map fun (found, rest) => (c :: found, rest)
  | c :: rest =>
    if c < ' ' then .error .malformed
    else (quoted strict rest).map fun (found, rest) => (c :: found, rest)
termination_by text.length
decreasing_by
  · have := length_of_escape _read
    simp only [List.length_cons]
    omega
  · simp

end ContentSecurity.Json
