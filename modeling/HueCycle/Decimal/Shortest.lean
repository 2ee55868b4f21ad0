/-
HueCycle.Decimal.Shortest — the fewest decimal digits that still name a
given double, and of the numerals with that many digits the nearest one.

A finite double `m · 2^q` is read back from every real between the two
midpoints to its neighbours, the midpoints included exactly when `m` is
even. For 1, 2, … 17 digits the two points of that decimal grid next to
the value are tested in exact integer arithmetic; the first grid with a
hit wins. Seventeen digits always suffice. Which of two equally near
numerals is taken is left to the caller.
-/
import HueCycle.Numeric.Binary64

namespace HueCycle.Decimal

/-- Which of two equally near numerals to take. -/
inductive Tie where
  | toEven
  | up
deriving Repr, DecidableEq

/-- The numeral `significand · 10^exponent`. -/
structure Numeral where
  significand : Nat
  exponent : Int
deriving Repr, DecidableEq

/-- A ratio of naturals with a positive denominator in use. -/
structure Ratio where
  num : Nat
  den : Nat

/-- The number `n · 2^q` as a ratio. -/
def Ratio.ofBinary (n : Nat) (q : Int) : Ratio :=
  if 0 ≤ q then ⟨n <<< q.toNat, 1⟩ else ⟨n, Nat.pow 2 (-q).toNat⟩

/-- The ratio divided by `10^e`. -/
def Ratio.scaleDown (r : Ratio) (e : Int) : Ratio :=
  if 0 ≤ e then ⟨r.num, r.den * Nat.pow 10 e.toNat⟩ else ⟨r.num * Nat.pow 10 (-e).toNat, r.den⟩

/-- Whether the ratio is at least `10^e`. -/
def Ratio.reaches (r : Ratio) (e : Int) : Bool :=
  let s := r.scaleDown e
  s.den ≤ s.num

/-- Step an estimate of the leading decimal exponent up while the next power
of ten is still reached. -/
def climb (r : Ratio) : Nat → Int → Int
  | 0, e => e
  | steps + 1, e => if r.reaches (e + 1) then climb r steps (e + 1) else e

/-- The exponent of the leading decimal digit of a positive ratio. The binary
lengths give an estimate that is at most three too low. -/
def leadingExponent (r : Ratio) : Int :=
  let binary : Int := (Nat.log2 r.num : Int) - (Nat.log2 r.den : Int) - 1
  climb r 4 ((binary * 30103).fdiv 100000 - 1)

/-- Drop the zeros at the end of a significand, at most `steps` of them. -/
def Numeral.trim : Nat → Numeral → Numeral
  | 0, n => n
  | steps + 1, n =>
    if n.significand ≠ 0 ∧ n.significand % 10 = 0 then
      trim steps ⟨n.significand / 10, n.exponent + 1⟩
    else n

/-- The interval of reals that round to a double, in units of `2^(q - 2)`:
its ends, the value itself and whether the ends belong to it. The gap below
a power of two is half the gap above it. -/
structure Span where
  low : Nat
  value : Nat
  high : Nat
  unit : Int
  closed : Bool

/-- The interval around `m · 2^q`. -/
def Span.around (m : Nat) (q : Int) : Span where
  low := if m = 0x10000000000000 ∧ q ≠ -1074 then 4 * m - 1 else 4 * m - 2
  value := 4 * m
  high := 4 * m + 2
  unit := q - 2
  closed := m % 2 == 0

/-- Whether the numeral lies in the interval. -/
def Span.holds (s : Span) (n : Numeral) : Bool :=
  let low := (Ratio.ofBinary s.low s.unit).scaleDown n.exponent
  let high := (Ratio.ofBinary s.high s.unit).scaleDown n.exponent
  if s.closed then low.num ≤ n.significand * low.den && n.significand * high.den ≤ high.num
  else low.num < n.significand * low.den && n.significand * high.den < high.num

/-- The nearest numeral of the interval on the grid of step `10^e`. -/
def Span.nearestOn? (s : Span) (tie : Tie) (e : Int) : Option Numeral :=
  let value := (Ratio.ofBinary s.value s.unit).scaleDown e
  let below : Numeral := ⟨value.num / value.den, e⟩
  let above : Numeral := ⟨below.significand + 1, e⟩
  let twice := 2 * (value.num % value.den)
  match s.holds below, s.holds above with
  | false, false => none
  | true, false => some below
  | false, true => some above
  | true, true =>
    if twice < value.den then some below
    else if value.den < twice then some above
    else
      match tie with
      | .up => some above
      | .toEven => if below.significand % 2 = 0 then some below else some above

/-- Try grids of more and more digits, at most `steps` of them. -/
def Span.search (s : Span) (tie : Tie) : Nat → Int → Numeral
  | 0, e => ⟨0, e⟩
  | steps + 1, e =>
    match s.nearestOn? tie e with
    | some n => n
    | none => s.search tie steps (e - 1)

/-- The shortest numeral of the magnitude `m · 2^q`. -/
def shortest (tie : Tie) (m : Nat) (q : Int) : Numeral :=
  if m = 0 then ⟨0, 0⟩
  else
    let span := Span.around m q
    let lead := leadingExponent (Ratio.ofBinary span.value span.unit)
    (span.search tie 17 lead).trim 17

end HueCycle.Decimal
