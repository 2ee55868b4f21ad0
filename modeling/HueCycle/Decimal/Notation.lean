/-
HueCycle.Decimal.Notation — how numbers are written. There are three
styles: the one of messages (`Style.message`), the one of JSON
(`Style.json`), both with the fewest digits that read back, and a fixed
number of places for tables (`fixed`).
-/
import HueCycle.Decimal.Shortest

namespace HueCycle.Decimal

/-- How the fewest digits of a number are laid out. -/
structure Style where
  /-- Which of two equally near numerals is written. -/
  tie : Tie
  /-- The exponents of the first digit for which the number is written out
  in full; no bounds for always. -/
  positional : Option (Int × Int)
  /-- Whether a whole number written out in full ends in `.0`. -/
  pointZero : Bool
  /-- The texts of the values that are not finite. -/
  nan : String
  infinity : String
  negativeInfinity : String

/-- Numbers in messages are always written out in full, whole numbers
without a point. -/
def Style.message : Style where
  tie := .up
  positional := none
  pointZero := false
  nan := "NaN"
  infinity := "inf"
  negativeInfinity := "-inf"

/-- JSON numbers are written out in full when the exponent of the first digit
is from -5 to 15, and then always with a point; JSON has no other number
than the finite ones. -/
def Style.json : Style where
  tie := .toEven
  positional := some (-5, 15)
  pointZero := true
  nan := "null"
  infinity := "null"
  negativeInfinity := "null"

/-- A run of `n` zeros. -/
def zeros (n : Nat) : List Char := List.replicate n '0'

/-- The decimal digits of a natural number. -/
def digits (n : Nat) : List Char := Nat.toDigits 10 n

/-- The text of an integer exponent with its sign. -/
def exponentText (e : Int) : List Char :=
  if e < 0 then '-' :: digits e.natAbs else '+' :: digits e.natAbs

/-- A magnitude written out in full. -/
def positionalText (pointZero : Bool) (n : Numeral) : List Char :=
  let ds := digits n.significand
  if 0 ≤ n.exponent then
    ds ++ zeros n.exponent.toNat ++ (if pointZero then ['.', '0'] else [])
  else
    let places := (-n.exponent).toNat
    if places < ds.length then
      ds.take (ds.length - places) ++ '.' :: ds.drop (ds.length - places)
    else '0' :: '.' :: (zeros (places - ds.length) ++ ds)

/-- A magnitude with an exponent: one digit before the point, and a point
only if more digits follow. -/
def exponentialText (n : Numeral) : List Char :=
  let ds := digits n.significand
  let e := n.exponent + (ds.length - 1 : Nat)
  match ds with
  | [] => []
  | d :: [] => d :: 'e' :: exponentText e
  | d :: more => d :: '.' :: (more ++ 'e' :: exponentText e)

/-- A magnitude in the given style. -/
def Style.magnitude (style : Style) (n : Numeral) : List Char :=
  match style.positional with
  | none => positionalText style.pointZero n
  | some (low, high) =>
    let e := n.exponent + ((digits n.significand).length - 1 : Nat)
    if n.significand = 0 ∨ (low ≤ e ∧ e ≤ high) then positionalText style.pointZero n
    else exponentialText n

/-- The characters of a number in the given style. -/
def Style.chars (style : Style) (x : Float) : List Char :=
  match Binary64.parts x with
  | some p =>
    let magnitude := style.magnitude (shortest style.tie p.mantissa p.exponent)
    if p.negative then '-' :: magnitude else magnitude
  | none =>
    if x.isNaN then style.nan.toList
    else if Binary64.isNegative x then style.negativeInfinity.toList
    else style.infinity.toList

/-- The text of a number in the given style. -/
def Style.text (style : Style) (x : Float) : String := String.ofList (style.chars x)

/-- The nearest whole number to a ratio, ties to even. -/
def Ratio.nearestEven (r : Ratio) : Nat :=
  let quotient := r.num / r.den
  let twice := 2 * (r.num % r.den)
  if twice < r.den then quotient
  else if r.den < twice then quotient + 1
  else quotient + quotient % 2

/-- The exact value with a fixed number of places, ties to even; the sign
stays even when every digit is zero. -/
def fixed (places : Nat) (x : Float) : String :=
  match Binary64.parts x with
  | some p =>
    let scaled := (Ratio.ofBinary p.mantissa p.exponent).scaleDown (-(places : Int))
    let magnitude := positionalText false ⟨scaled.nearestEven, -(places : Int)⟩
    String.ofList (if p.negative then '-' :: magnitude else magnitude)
  | none => Style.message.text x

end HueCycle.Decimal
