/-
HueCycle.Proofs.Color.HueInTurn — the hue within a turn, over doubles, is a
number exactly where the hue is finite.

So two hues with the same bits within a turn are both finite or both not,
and recolouring with either is allowed or refused alike.
-/
import Mathlib
import HueCycle.Color.Recolor
import HueCycle.Proofs.Numeric.Doubles

namespace HueCycle

open Binary64

namespace Binary64

/-- A whole number below `2^64` with a sign is a number. -/
theorem isNaN_signed (negative : Bool) (n : Nat) : (signed negative n).isNaN = false := by
  have hmagnitude : (n.toUInt64.toFloat).isNaN = false := by
    show (Float.Model.pack (.ofUInt64 _ n.toUInt64)).unpack.isNaN = _
    rw [isNaN_unpack_pack]
    exact isNaN_normalize _ _ _ _
  unfold signed
  dsimp only
  split
  · rw [isNaN_neg, hmagnitude]
  · exact hmagnitude

theorem isNaN_of_isFinite {x : Float} (h : x.isFinite = true) : x.isNaN = false := by
  change x.toModel.unpack.isFinite = true at h
  show x.toModel.unpack.isNaN = false
  generalize x.toModel.unpack = u at h
  cases u with
  | notANumber => exact absurd h (by simp [Float.Model.UnpackedFloat.isFinite])
  | infinity s => rfl
  | zero s => rfl
  | finite s m e hm => rfl

theorem trunc_of_not_isFinite {x : Float} (h : x.isFinite = false) : trunc x = x := by
  have hparts : parts x = none := by
    rw [← isSome_parts] at h
    simpa using h
  rw [trunc, hparts]

theorem isNaN_trunc {x : Float} (h : x.isFinite = true) : (trunc x).isNaN = false := by
  unfold trunc
  split
  · exact isNaN_of_isFinite h
  · split
    · exact isNaN_of_isFinite h
    · exact isNaN_signed _ _

/-- What the integer part leaves of a number is a number exactly if the number is finite. -/
theorem isNaN_fract (x : Float) : (fract x).isNaN = !x.isFinite := by
  unfold fract
  dsimp only
  cases hx : x.isFinite with
  | true =>
    split
    · exact isNaN_signed _ _
    · exact isNaN_sub hx (isNaN_trunc hx)
  | false =>
    have hrest : (x - trunc x).isNaN = true := by
      rw [trunc_of_not_isFinite hx]
      exact isNaN_sub_self hx
    rw [(compare_of_isNaN hrest 0).1]
    exact hrest

end Binary64

/-- The hue within a turn is a number exactly if the hue is finite. -/
theorem Hsv.isNaN_hueInTurn (hue : Float) : (Hsv.hueInTurn hue).isNaN = !hue.isFinite := by
  have hturned : (Scalar.fractUp hue).isNaN = !hue.isFinite := by
    show (if decide (fract hue < Float.ofNat 0) then fract hue + Float.ofNat 1
      else fract hue).isNaN = _
    split
    · rename_i hneg
      cases hx : hue.isFinite with
      | true => exact isNaN_add (by rw [isNaN_fract, hx]; rfl) (by decide)
      | false =>
        have hnan : (fract hue).isNaN = true := by rw [isNaN_fract, hx]; rfl
        exact absurd (of_decide_eq_true hneg) (compare_of_isNaN hnan _).2.1
    · exact isNaN_fract hue
  show (if decide (Float.ofNat 1 ≤ Scalar.fractUp hue) then Float.ofNat 0
    else Scalar.fractUp hue).isNaN = _
  split
  · rename_i hwhole
    rw [← hturned]
    cases hnan : (Scalar.fractUp hue).isNaN with
    | false => decide
    | true => exact absurd (of_decide_eq_true hwhole) (compare_of_isNaN hnan _).2.2
  · exact hturned

end HueCycle
