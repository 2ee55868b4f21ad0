/-
HueCycle.Proofs.Numeric.Errors — how far a computed double lies from the
exact number.

One rounding moves a number by at most the part `roundoff` of it, or by
half of the least double where doubles are equally far apart
(`Nearest.error`). `Close` bounds a difference by a part of the exact
number, so errors of factors and divisors add up, and their products with
each other are so small that whole multiples of `roundoff` can absorb them.
-/
import Mathlib
import HueCycle.Proofs.Numeric.WholeNumbers

namespace HueCycle.Binary64

open Float.Model Float.Model.UnpackedFloat
open Decimal (Span)

/-! ## §1 One rounding -/

/-- The largest part of a number that rounding can add or take away. -/
def roundoff : ℚ := 2 ^ (-53 : Int)

theorem roundoff_pos : 0 < roundoff := two_zpow_pos _

/-- The interval of a double reaches half a unit to each side. -/
theorem abs_sub_le_of_contains {m : Nat} {e : Int} {r : ℚ} (hm : 0 < m)
    (h : (Span.around m e).Contains r) : |scaled m e - r| ≤ 2 ^ (e - 1) := by
  obtain ⟨hlow, hhigh⟩ := h.bounds
  have hcenter : scaled m e = 4 * m * 2 ^ (e - 2) := by
    rw [scaled, show e = 2 + (e - 2) by ring, two_zpow_add]
    norm_num
    ring
  have hhalf : (2 : ℚ) ^ (e - 1) = 2 * 2 ^ (e - 2) := by
    rw [show e - 1 = 1 + (e - 2) by ring, two_zpow_add, zpow_one]
  have hlow' : (4 * (m : ℚ) - 2) * 2 ^ (e - 2) ≤ r := by
    refine le_trans (mul_le_mul_of_nonneg_right ?_ (two_zpow_pos _).le) hlow
    have hleast : ((4 * m - 2 : Nat) : ℚ) ≤ (Span.around m e).low := by
      exact_mod_cast Span.le_low_around m e
    rw [Nat.cast_sub (by omega)] at hleast
    exact_mod_cast hleast
  have hhigh' : r ≤ (4 * (m : ℚ) + 2) * 2 ^ (e - 2) := by
    refine hhigh.trans_eq ?_
    show ((4 * m + 2 : Nat) : ℚ) * 2 ^ (e - 2) = _
    push_cast
    ring
  rw [hcenter, hhalf, abs_le]
  constructor <;> linarith

/-- Above the finest grid half a unit is a small part of every number of the interval. -/
theorem abs_sub_le_roundoff {m : Nat} {e : Int} {r : ℚ} (hm : OnGrid m e) (he : e ≠ -1074)
    (h : (Span.around m e).Contains r) : |scaled m e - r| ≤ r * roundoff := by
  have hunit := two_zpow_pos (e - 2)
  have hlow : ((Span.around m e).low : ℚ) * 2 ^ (e - 2) ≤ r := h.bounds.1
  have hpart : (2 : ℚ) ^ 54 * 2 ^ (e - 2) * roundoff = 2 * 2 ^ (e - 2) := by
    rw [roundoff, mul_right_comm]
    norm_num
  rcases le_or_gt ((2 : ℚ) ^ 54 * 2 ^ (e - 2)) r with hge | hlt
  · refine (abs_sub_le_of_contains hm.pos h).trans ?_
    calc (2 : ℚ) ^ (e - 1) = 2 ^ (1 + (e - 2)) := by congr 1; ring
      _ = 2 ^ 54 * 2 ^ (e - 2) * roundoff := by rw [hpart, two_zpow_add, zpow_one]
      _ ≤ r * roundoff := mul_le_mul_of_nonneg_right hge roundoff_pos.le
  · -- only below a power of two, and there the gap is half as wide
    have hless : (Span.around m e).low < 2 ^ 54 := by
      have := lt_of_mul_lt_mul_right (hlow.trans_lt hlt) hunit.le
      exact_mod_cast this
    have hleast := Span.le_low_around m e
    have hfull := hm.full.resolve_right he
    obtain rfl : m = 2 ^ 52 := by omega
    rw [Span.low_around_of_full he] at hlow
    have hvalue : scaled (2 ^ 52) e = 2 ^ 54 * 2 ^ (e - 2) := by
      rw [scaled, show e = 2 + (e - 2) by ring, two_zpow_add]
      norm_num
      ring
    have hroom : 2 ^ (e - 2) ≤ r * roundoff := by
      calc (2 : ℚ) ^ (e - 2) ≤ ((4 * 2 ^ 52 - 1 : Nat) : ℚ) * 2 ^ (e - 2) * roundoff := by
            rw [mul_right_comm, roundoff]
            refine le_mul_of_one_le_left hunit.le ?_
            norm_num
        _ ≤ r * roundoff := mul_le_mul_of_nonneg_right hlow roundoff_pos.le
    refine le_trans ?_ hroom
    rw [hvalue, abs_of_nonneg (by linarith)]
    have hends : ((4 * 2 ^ 52 - 1 : Nat) : ℚ) = 2 ^ 54 - 1 := by norm_num
    rw [hends] at hlow
    linarith

namespace Nearest

variable {negative negative' : Bool} {r r' : ℚ} {x x' : Float} {p p' : Parts}

/-- **The error of one rounding.** -/
theorem error (h : Nearest negative r x) (hr : 0 ≤ r) (hp : parts x = some p) :
    |p.magnitude - r| ≤ max (r * roundoff) (2 ^ (-1075 : Int)) := by
  rw [Nearest, unpack_of_parts hp, Parts.unpacked] at h
  split at h
  · rename_i hzero
    rw [magnitude_of_zero hzero, zero_sub, abs_neg, abs_of_nonneg hr]
    exact h.2.trans (le_max_right _ _)
  · obtain ⟨-, hgrid, hcontains⟩ := h
    by_cases he : p.exponent = -1074
    · refine le_trans ?_ (le_max_right _ _)
      have hhalf := abs_sub_le_of_contains hgrid.pos hcontains
      rw [Parts.magnitude]
      rwa [he] at hhalf ⊢
    · exact (abs_sub_le_roundoff hgrid he hcontains).trans (le_max_left _ _)

/-- What rounds to a finite double is below the overflow. -/
theorem lt_overflow (h : Nearest negative r x) (hp : parts x = some p) : r < overflow := by
  have hcanonical := canonical_of_parts hp
  have hmost : overflow = scaled (4 * 2 ^ 53 - 2) 969 := by
    rw [overflow, show (1024 : Int) = 55 + 969 by norm_num, show (970 : Int) = 1 + 969 by norm_num,
      two_zpow_add, two_zpow_add, scaled]
    generalize (2 : ℚ) ^ (969 : Int) = unit
    norm_num
    ring
  rw [Nearest, unpack_of_parts hp, Parts.unpacked] at h
  split at h
  · refine h.2.trans_lt ?_
    rw [hmost, scaled]
    calc (2 : ℚ) ^ (-1075 : Int) < 2 ^ (969 : Int) := zpow_lt_zpow_right₀ (by norm_num) (by norm_num)
      _ ≤ ((4 * 2 ^ 53 - 2 : Nat) : ℚ) * 2 ^ (969 : Int) :=
        le_mul_of_one_le_left (two_zpow_pos _).le (by norm_num)
  · obtain ⟨-, hgrid, hcontains⟩ := h
    have hlt := hcanonical.lt
    have hends {n : Nat} (hn : n ≤ 4 * 2 ^ 53 - 2) : scaled n (p.exponent - 2) ≤ overflow := by
      obtain ⟨k, hk⟩ : ∃ k : Nat, (969 : Int) = p.exponent - 2 + k :=
        ⟨(971 - p.exponent).toNat, by have := hcanonical.high; omega⟩
      rw [hmost, hk, scaled_add_nat, scaled_le_scaled]
      exact hn.trans (Nat.le_mul_of_pos_right _ (Nat.two_pow_pos k))
    -- the largest mantissa is odd, so its interval is open
    rcases Nat.mod_two_eq_zero_or_one p.mantissa with heven | hodd
    · have hhigh : r ≤ scaled (4 * p.mantissa + 2) (p.exponent - 2) := hcontains.bounds.2
      exact (hhigh.trans_lt (scaled_lt_scaled.mpr (Nat.lt_add_of_pos_right (by decide : 0 < 2)))
        ).trans_le (hends (by omega))
    · exact (hcontains.strict hodd).2.trans_le (hends (by show 4 * p.mantissa + 2 ≤ _; omega))

/-- **Rounding keeps the order.** -/
theorem magnitude_mono (h : Nearest negative r x) (h' : Nearest negative' r' x') (hle : r ≤ r')
    (hp : parts x = some p) (hp' : parts x' = some p') : p.magnitude ≤ p'.magnitude := by
  rw [Nearest, unpack_of_parts hp, Parts.unpacked] at h
  rw [Nearest, unpack_of_parts hp', Parts.unpacked] at h'
  split at h
  · rename_i hzero
    rw [magnitude_of_zero hzero]
    exact p'.magnitude_nonneg
  · obtain ⟨-, hgrid, hcontains⟩ := h
    split at h'
    · exact absurd (lt_of_contains_onGrid hgrid hcontains) (not_lt.mpr (hle.trans h'.2))
    · obtain ⟨-, hgrid', hcontains'⟩ := h'
      by_contra hgt
      exact absurd (lt_of_contains hgrid' hgrid hcontains' hcontains
        ((scaled_lt_iff hgrid' hgrid).mp (not_le.mp hgt))) (not_lt.mpr hle)

end Nearest

/-! ## §2 Errors of results -/

/-- A number that differs from an exact one by at most the part `a` of it. -/
def Close (a x r : ℚ) : Prop := |x - r| ≤ a * r

namespace Close

variable {a b x y r t : ℚ}

theorem refl (r : ℚ) : Close 0 r r := by simp [Close]

theorem mono (h : Close a x r) (hr : 0 ≤ r) (hab : a ≤ b) : Close b x r :=
  h.trans (mul_le_mul_of_nonneg_right hab hr)

theorem le (h : Close a x r) : x ≤ (1 + a) * r := by
  have := (abs_le.mp h).2
  linarith

theorem ge (h : Close a x r) : (1 - a) * r ≤ x := by
  have := (abs_le.mp h).1
  linarith

theorem pos (h : Close a x r) (ha : a < 1) (hr : 0 < r) : 0 < x :=
  (mul_pos (by linarith) hr).trans_le h.ge

theorem mul (hx : Close a x r) (hy : Close b y t) (hr : 0 ≤ r) (ht : 0 ≤ t) :
    Close (a + b + a * b) (x * y) (r * t) := by
  have hsplit : x * y - r * t = (x - r) * (y - t) + (x - r) * t + r * (y - t) := by ring
  have hproduct : |(x - r) * (y - t)| ≤ a * r * (b * t) := by
    rw [abs_mul]
    exact mul_le_mul hx hy (abs_nonneg _) ((abs_nonneg _).trans hx)
  have hleft : |(x - r) * t| ≤ a * r * t := by
    rw [abs_mul, abs_of_nonneg ht]
    exact mul_le_mul_of_nonneg_right hx ht
  have hright : |r * (y - t)| ≤ r * (b * t) := by
    rw [abs_mul, abs_of_nonneg hr]
    exact mul_le_mul_of_nonneg_left hy hr
  calc |x * y - r * t| ≤ |(x - r) * (y - t)| + |(x - r) * t| + |r * (y - t)| := by
        rw [hsplit]
        exact (abs_add_le _ _).trans (add_le_add_left (abs_add_le _ _) _)
    _ ≤ (a + b + a * b) * (r * t) := by linarith

theorem div (hx : Close a x r) (hy : Close b y t) (hr : 0 ≤ r) (ht : 0 < t) (hb : b < 1) :
    Close ((a + b) / (1 - b)) (x / y) (r / t) := by
  have hbelow : 0 < (1 - b) * t := mul_pos (by linarith) ht
  have hy' : 0 < y := hy.pos hb ht
  have hsplit : x / y - r / t = ((x - r) * t - r * (y - t)) / (y * t) := by
    field_simp
    ring
  have hnum : |(x - r) * t - r * (y - t)| ≤ (a + b) * (r * t) := by
    refine (abs_sub _ _).trans ?_
    rw [abs_mul, abs_mul, abs_of_nonneg hr, abs_of_pos ht]
    have hleft := mul_le_mul_of_nonneg_right hx ht.le
    have hright := mul_le_mul_of_nonneg_left hy hr
    linarith
  have hab : 0 ≤ (a + b) * (r * t) := (abs_nonneg _).trans hnum
  rw [Close, hsplit, abs_div, abs_of_pos (mul_pos hy' ht), div_le_iff₀ (mul_pos hy' ht)]
  calc |(x - r) * t - r * (y - t)| ≤ (a + b) * (r * t) := hnum
    _ = (a + b) * (r * t) * ((1 - b) * t) / ((1 - b) * t) := (mul_div_cancel_right₀ _ hbelow.ne').symm
    _ ≤ (a + b) * (r * t) * y / ((1 - b) * t) := by
        gcongr
        exact hy.ge
    _ = (a + b) / (1 - b) * (r / t) * (y * t) := by
        have : (1 - b) ≠ 0 := by linarith
        field_simp

end Close

/-- Rounding a number that is not among the least ones. -/
theorem Nearest.close {negative : Bool} {r : ℚ} {x : Float} {p : Parts} (h : Nearest negative r x)
    (hp : parts x = some p) (hr : 2 ^ (-1022 : Int) ≤ r) : Close roundoff p.magnitude r := by
  have hr0 : 0 ≤ r := (two_zpow_pos _).le.trans hr
  have herror := h.error hr0 hp
  have hsmall : (2 : ℚ) ^ (-1075 : Int) ≤ r * roundoff := by
    calc (2 : ℚ) ^ (-1075 : Int) = 2 ^ (-1022 : Int) * roundoff := by
          rw [roundoff, ← two_zpow_add]
          norm_num
      _ ≤ r * roundoff := mul_le_mul_of_nonneg_right hr roundoff_pos.le
  rw [max_eq_left hsmall] at herror
  rwa [Close, mul_comm]

end HueCycle.Binary64
