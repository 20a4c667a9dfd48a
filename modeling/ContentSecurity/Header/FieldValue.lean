/-!
Values of HTTP header fields: which bytes they may hold, and when they can be read as text.
-/
namespace ContentSecurity

/-- A tab, or any byte that is no control character. -/
def isFieldByte (byte : UInt8) : Bool :=
  byte == 9 || (32 ≤ byte && byte != 127)

/-- A tab, or a printing character of ASCII. -/
def isVisibleByte (byte : UInt8) : Bool :=
  byte == 9 || (32 ≤ byte && byte < 127)

structure FieldValue where
  bytes : ByteArray
  legal : bytes.data.all isFieldByte = true

namespace FieldValue

def ofBytes? (bytes : ByteArray) : Option FieldValue :=
  if legal : bytes.data.all isFieldByte = true then some ⟨bytes, legal⟩ else none

def ofString? (text : String) : Option FieldValue :=
  ofBytes? text.toUTF8

/-- The value as text, when it keeps to the printing characters of ASCII and tabs. -/
def text? (value : FieldValue) : Option String :=
  if value.bytes.data.all isVisibleByte then String.fromUTF8? value.bytes else none

end FieldValue

end ContentSecurity
