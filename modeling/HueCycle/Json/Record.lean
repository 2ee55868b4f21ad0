/-
HueCycle.Json.Record — reading records: an object with known keys in any
order, or a list of the values in the order of declaration.

A record is described by its fields; each knows its name, how to tell that
it is set already, and how to read its value into the state. A key may
come once only. Unknown keys are refused or skipped, and a list may or may
not stop early, as the record says.
-/
import HueCycle.Json.Reader

namespace HueCycle.Json

/-- A field of a record that is gathered in a state of type `σ`. -/
structure Record.Field (σ : Type) where
  name : String
  isSet : σ → Bool
  read : σ → Reader σ

/-- A field whose value is read by `reader` and kept by `put`. -/
def Record.Field.of {σ α : Type} (name : String) (get : σ → Option α) (put : σ → α → σ)
    (reader : Reader α) : Record.Field σ where
  name := name
  isSet s := (get s).isSome
  read s bytes := (reader bytes).map fun r => (put s r.1, r.2)

/-- A record that gathers its fields in `σ` and then becomes a `τ`. -/
structure Record (σ τ : Type) where
  /-- The name of the record in messages. -/
  name : String
  fields : List (Record.Field σ)
  start : σ
  /-- Whether unknown keys are refused. -/
  closed : Bool
  /-- Whether a list may stop before the last field. -/
  mayStop : Bool
  finish : σ → Except Fault τ

/-- The next item of a list: where it begins, or nothing at the closing
bracket. -/
def nextItem (isFirst : Bool) (bytes : Bytes) : Except Fault (Option Bytes) :=
  match skipSpace bytes with
  | [] => .error .endInList
  | b :: rest =>
    if b = 0x5D then .ok none
    else if isFirst then .ok (some (b :: rest))
    else if b = 0x2C then
      match skipSpace rest with
      | [] => .error .endInValue
      | c :: more => if c = 0x5D then .error .trailingComma else .ok (some (c :: more))
    else .error .expectedListEnd

/-- The closing bracket of a list of which enough has been read. -/
def listEnd (bytes : Bytes) : Except Fault Bytes :=
  match skipSpace bytes with
  | [] => .error .endInList
  | b :: rest =>
    if b = 0x5D then .ok rest
    else if b = 0x2C && (skipSpace rest).head? == some 0x5D then .error .trailingComma
    else .error .trailingCharacters

/-- The next key of an object: what follows its opening quote, or nothing at
the closing brace. -/
def nextKey (isFirst : Bool) (bytes : Bytes) : Except Fault (Option Bytes) :=
  match skipSpace bytes with
  | [] => .error .endInObject
  | b :: rest =>
    if b = 0x7D then .ok none
    else if isFirst then
      if b = quoteOctet then .ok (some rest) else .error .keyNotString
    else if b = 0x2C then
      match skipSpace rest with
      | [] => .error .endInValue
      | c :: more =>
        if c = quoteOctet then .ok (some more)
        else if c = 0x7D then .error .trailingComma
        else .error .keyNotString
    else .error .expectedObjectEnd

/-- The closing brace of an object. -/
def objectEnd (bytes : Bytes) : Except Fault Bytes :=
  match skipSpace bytes with
  | [] => .error .endInObject
  | b :: rest =>
    if b = 0x7D then .ok rest
    else if b = 0x2C then .error .trailingComma
    else .error .trailingCharacters

namespace Record

variable {σ τ : Type}

/-- The values of a list, field by field, from the field at `index` on. -/
def readItems (r : Record σ τ) : List (Field σ) → Nat → σ → Bytes → Except Fault (σ × Bytes)
  | [], _, s, bytes => .ok (s, bytes)
  | f :: fields, index, s, bytes => do
    match ← nextItem (index == 0) bytes with
    | none =>
      if r.mayStop then return (s, bytes)
      else throw (.wrongLength index s!"{r.name} with {r.fields.length} elements")
    | some item =>
      let (s, rest) ← f.read s item
      readItems r fields (index + 1) s rest

/-- The value of one key: of a field that is not set yet, or of a key that
does not matter. -/
def readMember (r : Record σ τ) (key : Bytes) (s : σ) (bytes : Bytes) :
    Except Fault (σ × Bytes) := do
  match r.fields.find? fun f => Utf8.encode f.name == key with
  | some f =>
    if f.isSet s then throw (.duplicateField f.name)
    f.read s (← colon bytes)
  | none =>
    if r.closed then throw (.unknownField (Utf8.lossy key) (r.fields.map Field.name))
    return (s, ← skipValue (← colon bytes))

/-- The members of an object, at most `steps` of them. -/
def readMembers (r : Record σ τ) : Nat → Bool → σ → Bytes → Except Fault (σ × Bytes)
  | 0, _, _, _ => .error .endInObject
  | steps + 1, isFirst, s, bytes => do
    match ← nextKey isFirst bytes with
    | none => return (s, bytes)
    | some rest =>
      let (key, rest) ← readStr rest
      let (s, rest) ← r.readMember key s rest
      readMembers r steps false s rest

/-- Read a record. A member of an object takes at least one octet. -/
def read (r : Record σ τ) : Reader τ := fun bytes => do
  match skipSpace bytes with
  | [] => throw .endInValue
  | b :: rest =>
    if b = 0x5B then
      let (s, rest) ← r.readItems r.fields 0 r.start rest
      let value ← r.finish s
      return (value, ← listEnd rest)
    else if b = 0x7B then
      let (s, rest) ← r.readMembers (rest.length + 1) true r.start rest
      let value ← r.finish s
      return (value, ← objectEnd rest)
    else throw (unwanted r.name (b :: rest))

end Record

/-- A value that a record cannot do without. -/
def require {α : Type} (name : String) : Option α → Except Fault α
  | some a => .ok a
  | none => .error (.missingField name)

/-- A natural number in decimal. -/
def writeNatural (n : Nat) : Bytes := (Decimal.digits n).flatMap String.utf8EncodeChar

/-- A double with the fewest digits that read back. -/
def writeFloat (x : Float) : Bytes := (Decimal.Style.json.chars x).flatMap String.utf8EncodeChar

/-- An object from its keys and written values, without blanks. -/
def writeObject (members : List (String × Bytes)) : Bytes :=
  let member (m : String × Bytes) : Bytes := writeStr (Utf8.encode m.1) ++ 0x3A :: m.2
  0x7B :: (List.intercalate [0x2C] (members.map member)) ++ [0x7D]

end HueCycle.Json
