/-
HueCycle.Json.Reader — reading JSON values of a wanted kind straight from
the octets, so that of two faults the earlier one is reported whether it
lies in the text or in a value. A reader gives the value and what follows.
-/
import HueCycle.Json.Number
import HueCycle.Json.Str

namespace HueCycle.Json

/-- Read a value at the head of a text. -/
abbrev Reader (α : Type) := Bytes → Except Fault (α × Bytes)

/-- Whether an octet may stand between tokens. -/
def isSpace (b : UInt8) : Bool := b = 0x20 || b = 0x0A || b = 0x09 || b = 0x0D

/-- What follows the blanks at the head of a text. -/
def skipSpace (bytes : Bytes) : Bytes := bytes.dropWhile isSpace

/-- What follows the rest of a literal name. -/
def readIdent : Bytes → Bytes → Except Fault Bytes
  | [], bytes => .ok bytes
  | _ :: _, [] => .error .endInValue
  | w :: word, b :: bytes => if b = w then readIdent word bytes else .error .expectedIdent

/-- The letters of `null`, `true` and `false` after the first. -/
def ull : Bytes := [0x75, 0x6C, 0x6C]
def rue : Bytes := [0x72, 0x75, 0x65]
def alse : Bytes := [0x61, 0x6C, 0x73, 0x65]

/-- What a number is called when it is not wanted. -/
def Number.found : Number → Found
  | .integer n => .integer n
  | .real x => .number x

/-- The fault of a text that begins with a value of another kind than the
wanted one. Scalars are read to their end first and may be faulty
themselves; of lists and objects only the first octet is looked at. -/
def unwanted (expected : String) (bytes : Bytes) : Fault :=
  let wrong (found : Except Fault Found) : Fault :=
    match found with
    | .ok found => .wrongType found expected
    | .error fault => fault
  match bytes with
  | [] => .expectedValue
  | b :: rest =>
    if b = 0x6E then wrong ((readIdent ull rest).map fun _ => .null)
    else if b = 0x74 then wrong ((readIdent rue rest).map fun _ => .boolean true)
    else if b = 0x66 then wrong ((readIdent alse rest).map fun _ => .boolean false)
    else if b = 0x2D then wrong ((readNumber true rest).map fun r => r.1.found)
    else if isDigit b then wrong ((readNumber false bytes).map fun r => r.1.found)
    else if b = quoteOctet then wrong ((readStr rest).map fun r => .text (Utf8.lossy r.1))
    else if b = 0x5B then .wrongType .sequence expected
    else if b = 0x7B then .wrongType .map expected
    else .expectedValue

/-- A number, after blanks. -/
def number (expected : String) : Reader Number := fun bytes =>
  match skipSpace bytes with
  | [] => .error .endInValue
  | b :: rest =>
    if b = 0x2D then readNumber true rest
    else if isDigit b then readNumber false (b :: rest)
    else .error (unwanted expected (b :: rest))

/-- A whole number from 0 up to and without `2^width`. -/
def natural (width : Nat) : Reader Nat := fun bytes =>
  let expected := s!"u{width}"
  match number expected bytes with
  | .error fault => .error fault
  | .ok (.real x, _) => .error (.wrongType (.number x) expected)
  | .ok (.integer n, rest) =>
    if 0 ≤ n ∧ n < (Nat.pow 2 width : Int) then .ok (n.toNat, rest)
    else .error (.wrongValue (.integer n) expected)

/-- A number as a double. -/
def float : Reader Float := fun bytes =>
  match number "f64" bytes with
  | .error fault => .error fault
  | .ok (.real x, rest) => .ok (x, rest)
  | .ok (.integer n, rest) => .ok (Float.ofInt n, rest)

/-- A string. -/
def string (expected : String) : Reader Bytes := fun bytes =>
  match skipSpace bytes with
  | [] => .error .endInValue
  | b :: rest =>
    if b = quoteOctet then readStr rest else .error (unwanted expected (b :: rest))

/-- The value `null`. -/
def unit : Reader Unit := fun bytes =>
  match skipSpace bytes with
  | [] => .error .endInValue
  | b :: rest =>
    if b = 0x6E then (readIdent ull rest).map ((), ·)
    else .error (unwanted "unit" (b :: rest))

/-- The colon after a key. -/
def colon (bytes : Bytes) : Except Fault Bytes :=
  match skipSpace bytes with
  | [] => .error .endInObject
  | b :: rest => if b = 0x3A then .ok rest else .error .expectedColon

/-- The brackets that a skipped value may be inside of. -/
inductive Bracket where
  | list
  | object

/-- What the skipper looks for next. -/
inductive Sought where
  | value
  /-- The end of the innermost bracket or its first item. -/
  | first
  | key
  /-- A comma or the end of the innermost bracket. -/
  | more

/-- The octet that closes a bracket. -/
def Bracket.close : Bracket → UInt8
  | .list => 0x5D
  | .object => 0x7D

/-- The fault of a text that ends inside a bracket. -/
def Bracket.endFault : Bracket → Fault
  | .list => .endInList
  | .object => .endInObject

/-- What an item of a bracket begins with. -/
def Bracket.item : Bracket → Sought
  | .list => .value
  | .object => .key

/-- What follows a scalar or the opening of a bracket. -/
def skipToken (b : UInt8) (rest : Bytes) : Except Fault (Option Bracket × Bytes) :=
  if b = 0x6E then (readIdent ull rest).map (none, ·)
  else if b = 0x74 then (readIdent rue rest).map (none, ·)
  else if b = 0x66 then (readIdent alse rest).map (none, ·)
  else if b = 0x2D then (skipNumber rest).map (none, ·)
  else if isDigit b then (skipNumber (b :: rest)).map (none, ·)
  else if b = quoteOctet then (skipStr rest).map (none, ·)
  else if b = 0x5B then .ok (some .list, rest)
  else if b = 0x7B then .ok (some .object, rest)
  else .error .expectedValue

/-- Skip on inside of open brackets, innermost first, for at most `steps`
tokens. -/
def skipFrom : Nat → Sought → List Bracket → Bytes → Except Fault Bytes
  | 0, _, _, _ => .error .endInValue
  | steps + 1, .value, stack, bytes =>
    match skipSpace bytes with
    | [] => .error .endInValue
    | b :: rest =>
      match skipToken b rest with
      | .error fault => .error fault
      | .ok (some bracket, rest) => skipFrom steps .first (bracket :: stack) rest
      | .ok (none, rest) => skipFrom steps .more stack rest
  | _ + 1, .more, [], bytes => .ok bytes
  | steps + 1, .more, bracket :: stack, bytes =>
    match skipSpace bytes with
    | [] => .error bracket.endFault
    | b :: rest =>
      if b = 0x2C then skipFrom steps bracket.item (bracket :: stack) rest
      else if b = bracket.close then skipFrom steps .more stack rest
      else .error (match bracket with | .list => .expectedListEnd | .object => .expectedObjectEnd)
  | _ + 1, .first, [], bytes => .ok bytes
  | steps + 1, .first, bracket :: stack, bytes =>
    match skipSpace bytes with
    | [] => .error bracket.endFault
    | b :: rest =>
      if b = bracket.close then skipFrom steps .more stack rest
      else skipFrom steps bracket.item (bracket :: stack) (b :: rest)
  | steps + 1, .key, stack, bytes =>
    match skipSpace bytes with
    | [] => .error .endInObject
    | b :: rest =>
      if b = quoteOctet then
        match skipStr rest with
        | .error fault => .error fault
        | .ok rest =>
          match colon rest with
          | .error fault => .error fault
          | .ok rest => skipFrom steps .value stack rest
      else .error .keyNotString

/-- What follows a value of any kind and depth. Every token but the last one
is at least one octet long and leads to at most two more steps. -/
def skipValue (bytes : Bytes) : Except Fault Bytes :=
  skipFrom (3 * bytes.length + 3) .value [] bytes

/-- The value of a whole text: only blanks may follow. -/
def readWhole {α : Type} (reader : Reader α) (bytes : Bytes) : Except Fault α :=
  match reader bytes with
  | .error fault => .error fault
  | .ok (a, rest) => if (skipSpace rest).isEmpty then .ok a else .error .trailingCharacters

end HueCycle.Json
