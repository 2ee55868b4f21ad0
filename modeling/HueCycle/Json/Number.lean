/-
HueCycle.Json.Number — JSON numbers.

A number without fraction and exponent is an integer if it fits 64 bits,
where `-0` counts as a fraction. Every other number becomes a double by a
simple rule that does not always give the nearest one: digits are taken
into a 64-bit significand while they fit, digits of the integer part that
do not fit only raise the exponent and later digits of the fraction are
dropped; then the significand, as a double, is multiplied or divided by
the power of ten.
-/
import HueCycle.Json.Fault
import HueCycle.Text.Utf8

namespace HueCycle.Json

/-- A number as read. -/
inductive Number where
  | integer (n : Int)
  | real (x : Float)

/-- Whether an octet is a decimal digit. -/
def isDigit (b : UInt8) : Bool := 0x30 ≤ b && b ≤ 0x39

/-- The digits at the head of a text, as numbers. -/
def digitRun (bytes : Bytes) : List Nat := (bytes.takeWhile isDigit).map fun b => b.toNat - 0x30

/-- What follows the digits at the head of a text. -/
def afterDigits (bytes : Bytes) : Bytes := bytes.dropWhile isDigit

/-- The number that digits form. -/
def ofDigits (digits : List Nat) : Nat := digits.foldl (fun n d => n * 10 + d) 0

/-- Take digits into a significand as long as it stays below `2^64`; the
significand and how many digits went in. -/
def absorb (significand : Nat) : List Nat → Nat × Nat
  | [] => (significand, 0)
  | d :: rest =>
    if significand * 10 + d < 0x10000000000000000 then
      let (s, n) := absorb (significand * 10 + d) rest
      (s, n + 1)
    else (significand, 0)

/-- The double nearest to `10^k`. -/
def powerOfTen (k : Nat) : Float := Float.ofScientific 1 false k

/-- Bring an exponent below -308 into reach by dividing, `steps` times at
most; three divisions leave nothing of any significand. -/
def lift : Nat → Float → Int → Float × Int
  | 0, f, e => (f, e)
  | steps + 1, f, e =>
    if e < -308 ∧ !(f == 0.0) then lift steps (f / powerOfTen 308) (e + 308) else (f, e)

/-- A significand times a power of ten. -/
def scale (significand : Nat) (exponent : Int) : Except Fault Float :=
  let (f, e) := lift 4 significand.toUInt64.toFloat exponent
  if f == 0.0 then .ok f
  else if 308 < e then .error .numberOutOfRange
  else if 0 ≤ e then
    let x := f * powerOfTen e.toNat
    if x.isInf then .error .numberOutOfRange else .ok x
  else .ok (f / powerOfTen (-e).toNat)

/-- Keep an exponent within 32 bits with sign. -/
def clampExponent (e : Int) : Int := max (-0x80000000) (min 0x7FFFFFFF e)

/-- The magnitude after `e` or `E` has been read. -/
def readExponent (significand : Nat) (start : Int) (bytes : Bytes) :
    Except Fault (Float × Bytes) := do
  let (positive, bytes) := match bytes with
    | 0x2B :: rest => (true, rest)
    | 0x2D :: rest => (false, rest)
    | _ => (true, bytes)
  match bytes with
  | [] => throw .endInValue
  | b :: _ =>
    if !isDigit b then throw .invalidNumber
    let written := ofDigits (digitRun bytes)
    if written < 0x80000000 then
      let exponent := if positive then start + written else start - written
      let x ← scale significand (clampExponent exponent)
      return (x, afterDigits bytes)
    else if significand ≠ 0 ∧ positive then throw .numberOutOfRange
    else return (0.0, afterDigits bytes)

/-- The magnitude after the digits of a significand: an exponent may follow. -/
def readScaled (significand : Nat) (exponent : Int) (bytes : Bytes) :
    Except Fault (Float × Bytes) :=
  match bytes with
  | 0x65 :: rest => readExponent significand exponent rest
  | 0x45 :: rest => readExponent significand exponent rest
  | _ => (scale significand exponent).map (·, bytes)

/-- The magnitude after the point has been read. -/
def readFraction (significand : Nat) (exponent : Int) (bytes : Bytes) :
    Except Fault (Float × Bytes) :=
  match digitRun bytes with
  | [] => .error (if bytes.isEmpty then .endInValue else .invalidNumber)
  | digits =>
    let (s, taken) := absorb significand digits
    readScaled s (exponent - taken) (afterDigits bytes)

/-- A number whose sign has been read. -/
def readNumber (negative : Bool) (bytes : Bytes) : Except Fault (Number × Bytes) := do
  let sign (x : Float) : Number := .real (if negative then -x else x)
  match bytes with
  | [] => throw .endInValue
  | b :: rest =>
    if !isDigit b then throw .invalidNumber
    if b = 0x30 && rest.head?.any isDigit then throw .invalidNumber
    let digits := digitRun bytes
    let after := afterDigits bytes
    let (significand, taken) := absorb 0 digits
    let dropped : Int := ((digits.length - taken : Nat) : Int)
    match after with
    | 0x2E :: more =>
      let (x, rest) ← readFraction significand dropped more
      return (sign x, rest)
    | 0x65 :: _ | 0x45 :: _ =>
      let (x, rest) ← readScaled significand dropped after
      return (sign x, rest)
    | _ =>
      if dropped ≠ 0 then
        let x ← scale significand dropped
        return (sign x, after)
      else if !negative then return (.integer significand, after)
      else if significand = 0 ∨ 0x8000000000000000 < significand then
        return (.real (-significand.toUInt64.toFloat), after)
      else return (.integer (-(significand : Int)), after)

/-- What follows an exponent that does not matter. -/
def skipExponent (bytes : Bytes) : Except Fault Bytes :=
  let bytes := match bytes with
    | 0x2B :: rest => rest
    | 0x2D :: rest => rest
    | _ => bytes
  match bytes with
  | [] => .error .invalidNumber
  | b :: _ => if isDigit b then .ok (afterDigits bytes) else .error .invalidNumber

/-- What follows the integer part of a number that does not matter. -/
def skipTail (bytes : Bytes) : Except Fault Bytes :=
  match bytes with
  | 0x2E :: rest =>
    if (digitRun rest).isEmpty then .error .invalidNumber
    else
      match afterDigits rest with
      | 0x65 :: more => skipExponent more
      | 0x45 :: more => skipExponent more
      | after => .ok after
  | 0x65 :: rest => skipExponent rest
  | 0x45 :: rest => skipExponent rest
  | _ => .ok bytes

/-- What follows a number that does not matter, after its sign. -/
def skipNumber (bytes : Bytes) : Except Fault Bytes :=
  match bytes with
  | [] => .error .invalidNumber
  | b :: rest =>
    if !isDigit b then .error .invalidNumber
    else if b = 0x30 && rest.head?.any isDigit then .error .invalidNumber
    else skipTail (afterDigits bytes)

end HueCycle.Json
