import ContentSecurity.Text.LetterCase

/-!
The rules from which the value grammars are put together. A rule looks at the front of the input
and gives what it recognised there with what is left.

* A scheme is `http://` or `https://`, whatever the case of its letters.
* A domain is a run of letters, digits, hyphens, dots and encoded bytes that does not start with a
  dot.
* An address literal stands in brackets: groups of at most four hexadecimal digits with colons
  between them, of which there is at least one.
* A port is a colon with at least one digit.
* A path is a slash with a run of path characters and encoded bytes.

An encoded byte is `%` with two hexadecimal digits. Letters and digits are those of ASCII.
-/
namespace ContentSecurity.Grammar

/-- A rule recognises something at the front of the input, or does not. -/
abbrev Rule (α : Type) := List Char → Option (α × List Char)

/-- Tries a rule, and stays where it was if the rule does not match. -/
def Rule.ifThere (rule : Rule α) (input : List Char) : Option α × List Char :=
  match rule input with
  | some (found, rest) => (some found, rest)
  | none => (none, input)

inductive Scheme where
  | http | https
  deriving DecidableEq, Repr

def scheme : Rule Scheme := fun input =>
  match Text.afterFolded? "https://".toList input with
  | some rest => some (.https, rest)
  | none => (Text.afterFolded? "http://".toList input).map fun rest => (.http, rest)

/-- Whether the mark `*.` stands in front, and what follows it. -/
def anySubdomain (input : List Char) : Bool × List Char :=
  match input with
  | '*' :: '.' :: rest => (true, rest)
  | _ => (false, input)

/-- Splits off the longest run of plain characters and of `%` followed by two hexadecimal digits. -/
def spanEncoded (plain : Char → Bool) : List Char → List Char × List Char
  | [] => ([], [])
  | '%' :: a :: b :: rest =>
    if a.isHexDigit && b.isHexDigit then
      let (run, rest) := spanEncoded plain rest
      ('%' :: a :: b :: run, rest)
    else
      ([], '%' :: a :: b :: rest)
  | c :: rest =>
    if plain c then
      let (run, rest) := spanEncoded plain rest
      (c :: run, rest)
    else
      ([], c :: rest)

/-- Nothing is lost. -/
theorem spanEncoded_append (plain : Char → Bool) (input : List Char) :
    (spanEncoded plain input).1 ++ (spanEncoded plain input).2 = input := by
  fun_induction spanEncoded plain input with
  | case1 => rfl
  | case2 a b rest hex run rest' h ih => simpa [h] using ih
  | case3 => rfl
  | case4 c rest _ ok run rest' h ih => simpa [h] using ih
  | case5 => rfl

def isDomainChar (c : Char) : Bool :=
  c.isAlphanum || c == '-' || c == '.'

def domain : Rule (List Char)
  | '.' :: _ => none
  | input =>
    match spanEncoded isDomainChar input with
    | ([], _) => none
    | found => some found

/-- A group between the colons of an address literal. -/
def isAddressGroup (group : List Char) : Bool :=
  group.length ≤ 4 && group.all Char.isHexDigit

/-- What may stand between the brackets of an address literal. -/
def isAddress (inner : List Char) : Bool :=
  inner.contains ':' && (inner.splitOn ':').all isAddressGroup

/-- The first closing bracket ends the literal; what is recognised includes both brackets. -/
def addressLiteral : Rule (List Char)
  | '[' :: input =>
    let inner := input.takeWhile (· != ']')
    match input.dropWhile (· != ']') with
    | close :: rest => if isAddress inner then some ('[' :: inner ++ [close], rest) else none
    | [] => none
  | _ => none

/-- What is recognised are the digits, without the colon. -/
def port : Rule (List Char)
  | ':' :: input =>
    match input.takeWhile Char.isDigit with
    | [] => none
    | digits => some (digits, input.dropWhile Char.isDigit)
  | _ => none

def isPathChar (c : Char) : Bool :=
  c.isAlphanum || "_!#$&'()*+,./:;=?@[]~-".toList.contains c

def path : Rule (List Char)
  | '/' :: input =>
    let (run, rest) := spanEncoded isPathChar input
    some ('/' :: run, rest)
  | _ => none

end ContentSecurity.Grammar
