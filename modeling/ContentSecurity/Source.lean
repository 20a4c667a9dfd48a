import ContentSecurity.Grammar.Value

/-!
Sources, the single values of a directive: what each is, how an author writes it and how it stands
in a header, where keywords are quoted.
-/
namespace ContentSecurity

inductive Source where
  | keyword (word : String)
  /-- The star, which stands for every source. -/
  | anywhere
  | data
  | host (text : String)
  /-- Something that a sandbox lets pass. -/
  | allowance (word : String)
  | reportTarget (text : String)
  deriving DecidableEq, Repr

namespace Source

/-- The source as an author writes it, without quotes. -/
def written : Source → String
  | keyword word => word
  | anywhere => "*"
  | data => "data:"
  | host text => text
  | allowance word => word
  | reportTarget text => text

/-- Whether an author's value names this source: `data:` in any case, everything else exactly. -/
def isNamedBy (source : Source) (value : String) : Bool :=
  match source with
  | data => isDataMark value
  | _ => source.written == value

def keyword? : Source → Option String
  | keyword word => some word
  | _ => none

def host? : Source → Option String
  | host text => some text
  | _ => none

def isKeyword (source : Source) (word : String) : Bool :=
  source.keyword? == some word

/-- The keyword `none`, which stands for no source at all. -/
def deniesAll (source : Source) : Bool :=
  source.isKeyword "none"

def allowsAll (source : Source) : Bool :=
  source == anywhere

def isData (source : Source) : Bool :=
  source == data

/-- The source as it stands in a header. -/
def render : Source → String
  | keyword word => "'" ++ word ++ "'"
  | source => source.written

/-- Appends the bytes of the source as it stands in a header. -/
def write (buffer : ByteArray) : Source → ByteArray
  | keyword word => buffer ++ "'".toUTF8 ++ word.toUTF8 ++ "'".toUTF8
  | source => buffer ++ source.written.toUTF8

theorem write_eq (buffer : ByteArray) (source : Source) :
    source.write buffer = buffer ++ source.render.toUTF8 := by
  cases source <;> simp [write, render, ByteArray.append_assoc]

/-- How many bytes the source takes in a header. -/
def size : Source → Nat
  | keyword word => word.utf8ByteSize + 2
  | source => source.written.utf8ByteSize

theorem size_eq (source : Source) : source.size = source.render.utf8ByteSize := by
  cases source with
  | keyword word =>
    have quote : "'".utf8ByteSize = 1 := by decide
    simp only [size, render, String.utf8ByteSize_append]
    omega
  | _ => rfl

end Source

end ContentSecurity
