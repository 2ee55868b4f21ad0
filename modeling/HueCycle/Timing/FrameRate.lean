/-
HueCycle.Timing.FrameRate — frame rates and frame delays as exact
fractions. A rate is any two 32-bit numbers; `FrameRate.checked` refuses
the ones with a zero. The delay of a frame is the inverse of the rate in
lowest terms, found by dividing out the last remainder that is not zero,
and must fit the 16-bit fields of a frame header.
-/
import HueCycle.Error
import HueCycle.Numeric.Scalar

namespace HueCycle

/-- A rate of `num` frames in `den` seconds. -/
structure FrameRate where
  num : UInt32
  den : UInt32
deriving Repr, DecidableEq

/-- The time a frame is shown: `num / den` seconds. -/
structure FrameDelay where
  num : UInt16
  den : UInt16
deriving Repr, DecidableEq

namespace FrameDelay

/-- The delay in seconds. -/
def seconds (d : FrameDelay) : Float := d.num.toFloat / d.den.toFloat

/-- The delay in milliseconds. -/
def milliseconds (d : FrameDelay) : Float := d.seconds * 1000.0

end FrameDelay

namespace FrameRate

open Scalar

/-- A rate with both parts above zero. -/
def checked (num den : UInt32) : Except Error FrameRate :=
  if den = 0 then .error (.validation .rateWithoutSeconds)
  else if num = 0 then .error (.validation .rateWithoutFrames)
  else .ok ⟨num, den⟩

/-- Whole frames in a second. -/
def perSecond (frames : UInt32) : Except Error FrameRate := checked frames 1

/-- The rate as a number. -/
@[specialize] def value {α : Type} [Scalar α] (r : FrameRate) : α :=
  whole r.num.toNat / whole r.den.toNat

/-- The time at which a frame starts, in seconds. Multiplying first makes
whole rates divide once only. -/
@[specialize] def elapsed {α : Type} [Scalar α] (r : FrameRate) (frames : Nat) : α :=
  whole frames * whole r.den.toNat / whole r.num.toNat

/-- A part of a delay as a 16-bit number. -/
def narrow? (n : Nat) : Option UInt16 :=
  if n < 0x10000 then some (UInt16.ofNat n) else none

/-- The greatest common divisor: remainders are taken until nothing is left. -/
def commonDivisor (a b : UInt32) : UInt32 :=
  if b = 0 then a else commonDivisor b (a % b)
termination_by b.toNat
decreasing_by
  rename_i hb
  rw [UInt32.toNat_mod]
  exact Nat.mod_lt _ (Nat.pos_of_ne_zero fun hzero => hb (UInt32.toNat_inj.mp hzero))

@[simp] theorem toNat_commonDivisor (a b : UInt32) :
    (commonDivisor a b).toNat = Nat.gcd a.toNat b.toNat := by
  -- along the loop: the remainder has the same common divisors as what it is left of
  fun_induction commonDivisor a b with
  | case1 a => exact (Nat.gcd_zero_right a.toNat).symm
  | case2 a b _ ih =>
    rw [ih, UInt32.toNat_mod, Nat.gcd_comm, ← Nat.gcd_rec, Nat.gcd_comm]

/-- The time one frame is shown, in lowest terms. The rate with both parts
zero has no greatest common divisor to divide by. -/
def delay (r : FrameRate) : Except Error FrameDelay :=
  let common := (commonDivisor r.den r.num).toNat
  if common = 0 then .error (.fatal .divisionByZero)
  else
    let num := r.den.toNat / common
    let den := r.num.toNat / common
    match narrow? num, narrow? den with
    | some num, some den => .ok ⟨num, den⟩
    | _, _ => .error (.config (.delayTooFine (UInt32.ofNat num) (UInt32.ofNat den)))

end FrameRate

end HueCycle
