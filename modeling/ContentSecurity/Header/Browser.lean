import ContentSecurity.Text.DecimalDigit
import ContentSecurity.Text.LetterCase

/-!
The browser that a user agent string names. The first token that reads as a browser with its
version decides: `Firefox/`, `Chrome/` or `Safari/` with all the decimal digits that follow, or
`MSIE 1` with one more digit.
-/
namespace ContentSecurity

inductive Browser where
  | firefox | chrome | safari | explorer
  deriving DecidableEq, Repr

structure BrowserToken where
  browser : Browser
  digits : List Char
  deriving DecidableEq, Repr

namespace BrowserToken

/-- A browser's name in front of the text, and all digits after it. -/
def named? (browser : Browser) (name : String) (text : List Char) : Option BrowserToken :=
  match Text.after? name.toList text with
  | none => none
  | some rest =>
    match rest.takeWhile Text.isDecimalDigit with
    | [] => none
    | digits => some ⟨browser, digits⟩

/-- A version of two digits, of which the first is 1. -/
def explorer? (text : List Char) : Option BrowserToken :=
  match Text.after? "MSIE 1".toList text with
  | some (digit :: _) =>
    if Text.isDecimalDigit digit then some ⟨.explorer, ['1', digit]⟩ else none
  | _ => none

/-- The token with which the text starts. -/
def atFront? (text : List Char) : Option BrowserToken :=
  match named? .firefox "Firefox/" text with
  | some token => some token
  | none =>
    match named? .chrome "Chrome/" text with
    | some token => some token
    | none =>
      match named? .safari "Safari/" text with
      | some token => some token
      | none => explorer? text

/-- The token that comes first in the text. -/
def first? : List Char → Option BrowserToken
  | [] => none
  | c :: rest =>
    match atFront? (c :: rest) with
    | some token => some token
    | none => first? rest

/-- Versions are kept in 64 bits. -/
def largestVersion : Nat :=
  UInt64.size - 1

def decimalValue (digits : List Char) : Nat :=
  digits.foldl (fun value digit => 10 * value + (digit.toNat - '0'.toNat)) 0

/-- The version that the digits write. A version that is too large, or written with digits other
than `0` to `9`, counts as the largest. -/
def version (token : BrowserToken) : Nat :=
  if token.digits.all Char.isDigit then min (decimalValue token.digits) largestVersion
  else largestVersion

end BrowserToken

end ContentSecurity
