/-
HueCycle.Numeric.Scalar — the number operations that the colour and
timing formulas use, as a class, so that one definition of a formula can
be read in two ways: over doubles, which is how the program runs, and over
the rationals, which is what the formula means before rounding.

Comparisons are Boolean because a double may be unordered with every
number, itself included; `larger` and `smaller` pass such a value over.
-/
import HueCycle.Numeric.Binary64

namespace HueCycle

/-- Numbers over which a formula can be read. -/
class Scalar (α : Type) extends Add α, Sub α, Mul α, Div α where
  /-- A whole number as a scalar. -/
  whole : Nat → α
  lt : α → α → Bool
  le : α → α → Bool
  eq : α → α → Bool
  /-- Whether the value is unordered with every number. -/
  isNaN : α → Bool
  /-- The integer part, toward zero. -/
  trunc : α → α
  /-- What `trunc` leaves, with the sign of the number. -/
  fract : α → α
  /-- The integer part as an integer. -/
  toInt : α → Int

/-- Doubles. The integer part is clamped to 64 bits with sign, and is zero
for NaN. -/
instance : Scalar Float where
  whole := Float.ofNat
  lt x y := x < y
  le x y := x ≤ y
  eq x y := x == y
  isNaN := Float.isNaN
  trunc := Binary64.trunc
  fract := Binary64.fract
  toInt := Binary64.toInt

/-- Exact rationals. -/
instance : Scalar Rat where
  whole n := n
  lt x y := x < y
  le x y := x ≤ y
  eq x y := x == y
  isNaN _ := false
  trunc x := (x.num.tdiv x.den : Int)
  fract x := x - (x.num.tdiv x.den : Int)
  toInt x := x.num.tdiv x.den

namespace Scalar

variable {α : Type} [Scalar α]

/-- The larger of two numbers; an unordered operand gives way to the other. -/
@[specialize] def larger (x y : α) : α :=
  if isNaN x then y else if lt x y then y else x

/-- The smaller of two numbers; an unordered operand gives way to the other. -/
@[specialize] def smaller (x y : α) : α :=
  if isNaN x then y else if lt y x then y else x

/-- The remainder of division by one that is never negative. Rounding the
last addition may give one itself. -/
@[specialize] def fractUp (x : α) : α :=
  let rest := fract x
  if lt rest (whole 0) then rest + whole 1 else rest

end Scalar

end HueCycle
