/-
HueCycle.Proofs.Numeric.Rationals — the number operations over the rationals.

Nothing is rounded, so each is an operation of mathematics. The integer part
goes toward zero: it is the floor of a number that is not negative or is
whole, and one more than the floor of every other one
(`toInt_eq_floor_iff`). What lies within a unit is the same on both sides of
zero (`fractUp_eq`).
-/
import Mathlib
import HueCycle.Numeric.Scalar

namespace HueCycle.Exact

open Scalar

/-! ## §1 Order -/

theorem eq_iff {x y : ℚ} : eq x y = true ↔ x = y := beq_iff_eq

theorem larger_eq (x y : ℚ) : larger x y = max x y := by
  show (if decide (x < y) = true then y else x) = max x y
  simp only [decide_eq_true_eq, max_def_lt]

theorem smaller_eq (x y : ℚ) : smaller x y = min x y := by
  show (if decide (y < x) = true then y else x) = min x y
  simp only [decide_eq_true_eq, min_comm x y, min_def_lt]

/-! ## §2 Integer parts -/

theorem trunc_eq (x : ℚ) : trunc x = (toInt x : ℚ) := rfl

theorem toInt_of_nonneg {x : ℚ} (h : 0 ≤ x) : toInt x = ⌊x⌋ := by
  show x.num.tdiv x.den = _
  rw [Rat.floor_def', Int.tdiv_eq_ediv_of_nonneg (Rat.num_nonneg.mpr h)]

theorem toInt_neg (x : ℚ) : toInt (-x) = -toInt x := by
  show (-x).num.tdiv (-x).den = -(x.num.tdiv x.den)
  rw [Rat.num_neg_eq_neg_num, Rat.den_neg_eq_den, Int.neg_tdiv]

theorem toInt_of_nonpos {x : ℚ} (h : x ≤ 0) : toInt x = ⌈x⌉ := by
  have hfloor := toInt_of_nonneg (neg_nonneg.mpr h)
  rw [toInt_neg, Int.floor_neg] at hfloor
  exact neg_inj.mp hfloor

theorem toInt_intCast (n : ℤ) : toInt (n : ℚ) = n := by
  rcases le_total 0 n with h | h
  · rw [toInt_of_nonneg (by exact_mod_cast h), Int.floor_intCast]
  · rw [toInt_of_nonpos (by exact_mod_cast h), Int.ceil_intCast]

/-- A number whose integer part is its floor. -/
def Floors (x : ℚ) : Prop := 0 ≤ x ∨ ∃ n : ℤ, (n : ℚ) = x

theorem toInt_of_floors {x : ℚ} (h : Floors x) : toInt x = ⌊x⌋ := by
  rcases h with h | ⟨n, rfl⟩
  · exact toInt_of_nonneg h
  · rw [toInt_intCast, Int.floor_intCast]

/-- Below zero the integer part of a number between two whole ones is the upper of them. -/
theorem toInt_of_not_floors {x : ℚ} (h : ¬ Floors x) : toInt x = ⌊x⌋ + 1 := by
  obtain ⟨hneg, hbetween⟩ := not_or.mp h
  rw [toInt_of_nonpos (not_le.mp hneg).le]
  exact (Int.ceil_eq_floor_add_one_iff_notMem x).mpr hbetween

/-- A whole number may be added before or after the integer part is taken, unless it leads over
zero. -/
theorem toInt_add {x : ℚ} {n : ℤ} (h : Floors (x + n) ↔ Floors x) :
    toInt (x + n) = toInt x + n := by
  by_cases hx : Floors x
  · rw [toInt_of_floors hx, toInt_of_floors (h.mpr hx), Int.floor_add_intCast]
  · rw [toInt_of_not_floors hx, toInt_of_not_floors (mt h.mp hx), Int.floor_add_intCast]
    ring

theorem toInt_eq_floor_iff {x : ℚ} : toInt x = ⌊x⌋ ↔ Floors x := by
  refine ⟨fun h => ?_, toInt_of_floors⟩
  by_contra hnot
  rw [toInt_of_not_floors hnot] at h
  omega

/-! ## §3 Parts within a unit -/

/-- The remainder of division by one that is never negative is what lies above the floor. -/
theorem fractUp_eq (x : ℚ) : fractUp x = Int.fract x := by
  have hhigh := Int.fract_lt_one x
  show (if decide (x - (toInt x : ℚ) < (0 : ℕ)) = true then x - (toInt x : ℚ) + (1 : ℕ)
    else x - (toInt x : ℚ)) = Int.fract x
  by_cases h : Floors x
  · rw [toInt_of_floors h, Int.self_sub_floor, if_neg (by simp)]
  · have hrest : x - ((⌊x⌋ + 1 : ℤ) : ℚ) = Int.fract x - 1 := by
      rw [Int.cast_add, Int.cast_one, ← sub_sub, Int.self_sub_floor]
    rw [toInt_of_not_floors h, hrest, if_pos (by simpa using hhigh), Nat.cast_one, sub_add_cancel]

end HueCycle.Exact
