/-
HueCycle.Json.Fault — why a JSON text was refused: faults of the text
itself, values of the wrong kind or size, and objects with the wrong keys.
-/
import HueCycle.Decimal.Notation
import HueCycle.Files.OsError
import HueCycle.Text.Quoted

namespace HueCycle.Json

/-- What stood where something else was expected. -/
inductive Found where
  | null
  | boolean (b : Bool)
  | integer (n : Int)
  | number (x : Float)
  | text (s : String)
  | sequence
  | map
  | unitVariant

/-- How a message names what stood there. -/
def Found.description : Found → String
  | .null => "null"
  | .boolean b => s!"boolean `{b}`"
  | .integer n => s!"integer `{n}`"
  | .number x => s!"floating point `{Decimal.Style.json.text x}`"
  | .text s => s!"string {Text.quote s}"
  | .sequence => "sequence"
  | .map => "map"
  | .unitVariant => "unit variant"

/-- Reasons to refuse a JSON text. -/
inductive Fault where
  | endInValue
  | endInString
  | endInList
  | endInObject
  | expectedColon
  | expectedListEnd
  | expectedObjectEnd
  | expectedIdent
  | expectedValue
  | invalidEscape
  | invalidNumber
  | numberOutOfRange
  | invalidCodePoint
  | controlCharacter
  | keyNotString
  | loneSurrogate
  | hexEscapeEnd
  | trailingComma
  | trailingCharacters
  | wrongType (found : Found) (expected : String)
  | wrongValue (found : Found) (expected : String)
  | wrongLength (length : Nat) (expected : String)
  | unknownField (name : String) (known : List String)
  | unknownVariant (name : String) (known : List String)
  | missingField (name : String)
  | duplicateField (name : String)
  /-- The text could not be read to its end. -/
  | unreadable (reason : Files.OsError)
  /-- A path that JSON, being text, cannot hold. -/
  | pathNotText

/-- A name between back quotes. -/
def ticked (name : String) : String := s!"`{name}`"

/-- The names that would have been right. -/
def alternatives : List String → String
  | [] => "there are no fields"
  | [a] => ticked a
  | [a, b] => s!"{ticked a} or {ticked b}"
  | names => "one of " ++ String.intercalate ", " (names.map ticked)

/-- The text of a fault. -/
def Fault.message : Fault → String
  | .endInValue => "EOF while parsing a value"
  | .endInString => "EOF while parsing a string"
  | .endInList => "EOF while parsing a list"
  | .endInObject => "EOF while parsing an object"
  | .expectedColon => "expected `:`"
  | .expectedListEnd => "expected `,` or `]`"
  | .expectedObjectEnd => "expected `,` or `\x7d`"
  | .expectedIdent => "expected ident"
  | .expectedValue => "expected value"
  | .invalidEscape => "invalid escape"
  | .invalidNumber => "invalid number"
  | .numberOutOfRange => "number out of range"
  | .invalidCodePoint => "invalid unicode code point"
  | .controlCharacter => "control character (\\u0000-\\u001F) found while parsing a string"
  | .keyNotString => "key must be a string"
  | .loneSurrogate => "lone leading surrogate in hex escape"
  | .hexEscapeEnd => "unexpected end of hex escape"
  | .trailingComma => "trailing comma"
  | .trailingCharacters => "trailing characters"
  | .wrongType found expected => s!"invalid type: {found.description}, expected {expected}"
  | .wrongValue found expected => s!"invalid value: {found.description}, expected {expected}"
  | .wrongLength length expected => s!"invalid length {length}, expected {expected}"
  | .unknownField name known =>
    s!"unknown field {ticked name}, expected {alternatives known}"
  | .unknownVariant name known =>
    s!"unknown variant {ticked name}, expected {alternatives known}"
  | .missingField name => s!"missing field {ticked name}"
  | .duplicateField name => s!"duplicate field {ticked name}"
  | .unreadable reason => reason.text
  | .pathNotText => "path contains invalid UTF-8 characters"

end HueCycle.Json
