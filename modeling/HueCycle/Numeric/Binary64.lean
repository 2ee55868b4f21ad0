/-
HueCycle.Numeric.Binary64 — a finite double taken apart into sign,
mantissa and exponent, and the three whole-number operations the colour
and timing formulas need: the integer part toward zero (`trunc`), what
the integer part leaves (`fract`), and the nearest integer with halves
away from zero (`round`).

All three work on the bits in exact integer arithmetic. A magnitude of
`mantissa · 2^exponent` with a negative exponent is cut or rounded by a
shift, and the resulting integer is below `2^53`, so turning it back into
a double is exact.
-/

namespace HueCycle.Binary64

/-- The parts of a finite double: its value is `± mantissa · 2^exponent`. -/
structure Parts where
  negative : Bool
  mantissa : Nat
  exponent : Int
deriving Repr, DecidableEq

/-- Take a double apart; an infinity or a NaN has no parts. -/
def parts (x : Float) : Option Parts :=
  let word : Nat := x.toBits.toNat
  let negative := decide (0x8000000000000000 ≤ word)
  let field : Nat := word / 0x10000000000000 % 0x800
  let fraction : Nat := word % 0x10000000000000
  if field = 2047 then none
  else if field = 0 then some ⟨negative, fraction, -1074⟩
  else some ⟨negative, fraction + 0x10000000000000, (field : Int) - 1075⟩

/-- Whether the sign bit is set; true of `-0.0`. -/
def isNegative (x : Float) : Bool := decide (0x8000000000000000 ≤ x.toBits.toNat)

/-- A whole number below `2^64` with a sign; zero keeps its sign too. -/
def signed (negative : Bool) (n : Nat) : Float :=
  let magnitude := n.toUInt64.toFloat
  if negative then -magnitude else magnitude

/-- The integer part, toward zero. The sign survives even when the result
is zero; infinities and NaN stay what they are. -/
def trunc (x : Float) : Float :=
  match parts x with
  | none => x
  | some p =>
    if 0 ≤ p.exponent then x
    else signed p.negative (p.mantissa >>> (-p.exponent).toNat)

/-- The nearest integer, halves away from zero, keeping the sign of a
result that is zero. -/
def round (x : Float) : Float :=
  match parts x with
  | none => x
  | some p =>
    if 0 ≤ p.exponent then x
    else
      let shift := (-p.exponent).toNat
      signed p.negative ((p.mantissa + Nat.pow 2 (shift - 1)) >>> shift)

/-- What `trunc` leaves, with the sign of `x` also when nothing is left.
The difference is exact: both operands share the exponent grid of `x`. -/
def fract (x : Float) : Float :=
  let rest := x - trunc x
  if rest == 0 then signed (isNegative x) 0 else rest

/-- The integer part clamped to 64 bits with sign, and zero for NaN. -/
def toInt (x : Float) : Int :=
  match parts x with
  | none => if x.isNaN then 0 else if isNegative x then -0x8000000000000000 else 0x7FFFFFFFFFFFFFFF
  | some p =>
    let magnitude : Int :=
      if 0 ≤ p.exponent then p.mantissa <<< p.exponent.toNat
      else p.mantissa >>> (-p.exponent).toNat
    let value := if p.negative then -magnitude else magnitude
    max (-0x8000000000000000) (min 0x7FFFFFFFFFFFFFFF value)

end HueCycle.Binary64
