/-
HueCycle.Decimal.Reading — numbers as written on a command line.

A whole number is digits after an optional sign. A decimal number may have
a point, with digits on at least one side of it, and an exponent; the names
of infinity and of the value that is no number are read in any case. The
double is the one nearest to the number written.
-/

namespace HueCycle.Decimal

/-- The value of a decimal digit. -/
def digitValue? (c : Char) : Option Nat :=
  if '0' ≤ c ∧ c ≤ '9' then some (c.toNat - '0'.toNat) else none

/-- The number that digits form; none unless there is at least one and nothing
else. -/
def readDigits? (cs : List Char) : Option Nat :=
  if cs.isEmpty then none
  else cs.foldlM (fun n c => (digitValue? c).map (n * 10 + ·)) 0

/-- A whole number with an optional sign. -/
def readInteger? : List Char → Option Int
  | '+' :: cs => (readDigits? cs).map Int.ofNat
  | '-' :: cs => (readDigits? cs).map fun n => -(n : Int)
  | cs => (readDigits? cs).map Int.ofNat

/-- A whole number with an optional plus sign. -/
def readNatural? : List Char → Option Nat
  | '+' :: cs => readDigits? cs
  | cs => readDigits? cs

/-- The double nearest to `significand · 10^exponent`. Beyond the given bounds
only zero and infinity are left. -/
def nearest (significand : Nat) (exponent : Int) : Float :=
  let size : Int := exponent + ((Nat.toDigits 10 significand).length : Nat)
  if significand = 0 ∨ size < -400 then 0.0
  else if 400 < size then 1.0 / 0.0
  else Float.ofScientific significand (exponent < 0) exponent.natAbs

/-- An exponent after its letter. -/
def readExponent? : List Char → Option Int
  | [] => some 0
  | e :: cs => if e = 'e' ∨ e = 'E' then readInteger? cs else none

/-- A magnitude of digits, point and exponent. -/
def readMagnitude? (cs : List Char) : Option Float :=
  let isDigit (c : Char) : Bool := (digitValue? c).isSome
  let whole := cs.takeWhile isDigit
  let (fraction, tail) := match cs.dropWhile isDigit with
    | '.' :: rest => (rest.takeWhile isDigit, rest.dropWhile isDigit)
    | rest => ([], rest)
  match readDigits? (whole ++ fraction), readExponent? tail with
  | some significand, some exponent => some (nearest significand (exponent - fraction.length))
  | _, _ => none

/-- A number without its sign. -/
def readUnsigned? (cs : List Char) : Option Float :=
  let lower := String.ofList (cs.map Char.toLower)
  if lower = "inf" ∨ lower = "infinity" then some (1.0 / 0.0)
  else if lower = "nan" then some (0.0 / 0.0)
  else readMagnitude? cs

/-- A decimal number. -/
def readFloat? : List Char → Option Float
  | '+' :: cs => readUnsigned? cs
  | '-' :: cs => (readUnsigned? cs).map (-·)
  | cs => readUnsigned? cs

end HueCycle.Decimal
