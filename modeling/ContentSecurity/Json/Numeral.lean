import ContentSecurity.Json.Reader

/-!
Numerals. Their values are never asked for, but a numeral too large for a double is a fault. It is
measured by its leading digits, as many as fit into 64 bits, and the power of ten that the others
leave.
-/
namespace ContentSecurity.Json

/-- The parts of a numeral as they were written. -/
structure Numeral where
  isNegative : Bool
  whole : List Char
  fraction : List Char
  hasNegativeExponent : Bool
  exponent : List Char
  deriving DecidableEq, Repr

namespace Numeral

def digitValue (c : Char) : Nat :=
  c.toNat - '0'.toNat

/-- Reads one digit or more. -/
def digits (atEnd : Fault) : Reader (List Char)
  | [] => .error atEnd
  | c :: rest =>
    if c.isDigit then .ok ((c :: rest).takeWhile Char.isDigit, (c :: rest).dropWhile Char.isDigit)
    else .error .malformed

/-- Reads the digits before the point, which start with a zero only if it is the one digit. -/
def wholeDigits (atEnd : Fault) : Reader (List Char)
  | '0' :: rest =>
    match rest with
    | [] => .ok (['0'], [])
    | c :: rest => if c.isDigit then .error .malformed else .ok (['0'], c :: rest)
  | text => digits atEnd text

def fractionDigits (atEnd : Fault) : Reader (List Char)
  | '.' :: text => digits atEnd text
  | text => .ok ([], text)

/-- Reads the sign and the digits of the power of ten. -/
def exponentDigits (atEnd : Fault) : Reader (Bool × List Char) := fun text =>
  match text with
  | [] => .ok ((false, []), [])
  | c :: rest =>
    if c = 'e' ∨ c = 'E' then do
      let (isNegative, rest) := match rest with
        | '-' :: rest => (true, rest)
        | '+' :: rest => (false, rest)
        | rest => (false, rest)
      let (found, rest) ← digits atEnd rest
      .ok ((isNegative, found), rest)
    else .ok ((false, []), c :: rest)

/-- Appends digits to a number as long as it fits into 64 bits; gives the digits that are left. -/
def absorb (significand : Nat) : List Char → Nat × List Char
  | [] => (significand, [])
  | digit :: rest =>
    let longer := 10 * significand + digitValue digit
    if longer < UInt64.size then absorb longer rest else (significand, digit :: rest)

/-- The leading digits, and the power of ten that goes with them. -/
def scaled (numeral : Numeral) : Nat × Int :=
  let (significand, dropped) := absorb 0 numeral.whole
  let (significand, ignored) := absorb significand numeral.fraction
  let power : Nat := numeral.exponent.foldl (fun value digit => 10 * value + digitValue digit) 0
  let shift : Int := dropped.length - (numeral.fraction.length - ignored.length : Nat)
  (significand, if numeral.hasNegativeExponent then shift - power else shift + power)

/-- The multiple of a power of two nearest to a number that has at most 53 significant bits. Of two
that are equally near it is the one with the even significand. -/
def nearestDouble (n : Nat) : Nat :=
  let unit := 1 <<< (n.log2 - 52)
  let below := n / unit
  let left := 2 * (n % unit)
  if unit < left ∨ (left = unit ∧ below % 2 = 1) then (below + 1) * unit else below * unit

/-- The least number that is rounded beyond the doubles. -/
def overflow : Nat :=
  ((1 <<< 54) - 1) <<< 970

/-- The numeral is within the range of doubles. Zero is, whatever power of ten goes with it. -/
def isInRange (numeral : Numeral) : Bool :=
  let (significand, power) := numeral.scaled
  if significand = 0 ∨ power < 0 then true
  else if 308 < power then false
  else nearestDouble significand * nearestDouble (Nat.pow 10 power.toNat) < overflow

/-- Reads a numeral. In a value that is only skipped its size does not matter, and a numeral that
ends too early is no numeral. -/
def read (strict : Bool) : Reader Numeral := fun text => do
  let atEnd : Fault := if strict then .truncated else .malformed
  let (isNegative, rest) := match text with
    | '-' :: rest => (true, rest)
    | rest => (false, rest)
  let (whole, rest) ← wholeDigits atEnd rest
  let (fraction, rest) ← fractionDigits atEnd rest
  let ((hasNegativeExponent, exponent), rest) ← exponentDigits atEnd rest
  let numeral : Numeral := ⟨isNegative, whole, fraction, hasNegativeExponent, exponent⟩
  if strict && !numeral.isInRange then .error .malformed else .ok (numeral, rest)

end Numeral

end ContentSecurity.Json
