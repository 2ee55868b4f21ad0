/-
HueCycle.Proofs.Numeric.IntegerParts — the integer part of a double and what
it leaves.

The integer part is exact: its magnitude is the floor of the magnitude and
its sign is kept. What it leaves is a difference of two doubles less than one
apart, so after rounding it still lies between minus one and one, and between
zero and one when it is brought to a turn. `toInt_of_nonneg` reads the integer
part as an integer.
-/
import Mathlib
import HueCycle.Numeric.Scalar
import HueCycle.Proofs.Numeric.Operations

namespace HueCycle.Binary64

/-! ## §1 The integer part -/

/-- A magnitude with binary places is cut by a shift. -/
theorem floor_magnitude_of_neg {p : Parts} (he : p.exponent < 0) :
    ⌊p.magnitude⌋₊ = p.mantissa >>> (-p.exponent).toNat := by
  rw [Parts.magnitude, floor_scaled, Nat.shiftLeft_eq, show p.exponent.toNat = 0 by omega,
    Nat.pow_zero, Nat.mul_one, Nat.shiftRight_eq_div_pow]

/-- **The integer part** has the sign of the double and the floor of its magnitude. -/
theorem parts_trunc {x : Float} {p : Parts} (h : parts x = some p) :
    ∃ q, parts (trunc x) = some q ∧ q.negative = p.negative ∧
      q.magnitude = (⌊p.magnitude⌋₊ : ℚ) := by
  rw [trunc, h]
  dsimp only
  by_cases he : 0 ≤ p.exponent
  · obtain ⟨n, hn⟩ := exists_nat_magnitude he
    rw [if_pos he]
    exact ⟨p, h, rfl, by rw [hn, Nat.floor_natCast]⟩
  · rw [if_neg he, floor_magnitude_of_neg (by omega)]
    refine parts_signed p.negative ?_
    rw [Nat.shiftRight_eq_div_pow]
    exact (Nat.div_le_self _ _).trans_lt (canonical_of_parts h).lt

section Values

variable {x : Float} {v : ℚ}

/-- The integer part lies less than one from the number, on the side of zero. -/
theorem hasValue_trunc (h : HasValue x v) :
    ∃ t, HasValue (trunc x) t ∧ (0 ≤ v → 0 ≤ v - t ∧ v - t ≤ 1) ∧
      (v ≤ 0 → -1 ≤ v - t ∧ v - t ≤ 0) := by
  obtain ⟨p, hp, rfl⟩ := h
  obtain ⟨q, hq, hnegative, hmagnitude⟩ := parts_trunc hp
  refine ⟨q.value, ⟨q, hq, rfl⟩, ?_⟩
  have hfloor := Nat.floor_le p.magnitude_nonneg
  have hceil := (Nat.lt_floor_add_one p.magnitude).le
  have hmag := p.magnitude_nonneg
  rw [Parts.value, Parts.value, hnegative, hmagnitude]
  cases p.negative with
  | false =>
    simp only [Bool.false_eq_true, if_false]
    exact ⟨fun _ => ⟨by linarith, by linarith⟩, fun h => ⟨by linarith, by linarith⟩⟩
  | true =>
    simp only [if_true]
    exact ⟨fun h => ⟨by linarith, by linarith⟩, fun h => ⟨by linarith, by linarith⟩⟩

/-- **The integer part of a number that is not negative**, as an integer. -/
theorem toInt_of_nonneg (h : HasValue x v) (hv : 0 ≤ v) (hlt : v < 2 ^ 63) :
    toInt x = ⌊v⌋₊ := by
  obtain ⟨p, hp, rfl⟩ := h
  have habs : p.value = p.magnitude := by rw [← p.abs_value, abs_of_nonneg hv]
  have hinteger : (if 0 ≤ p.exponent then ((p.mantissa <<< p.exponent.toNat : Nat) : Int)
      else ((p.mantissa >>> (-p.exponent).toNat : Nat) : Int)) = ⌊p.magnitude⌋₊ := by
    split
    · rename_i he
      rw [Parts.magnitude, floor_scaled, show (-p.exponent).toNat = 0 by omega, Nat.pow_zero,
        Nat.div_one]
    · rename_i he
      rw [floor_magnitude_of_neg (by omega)]
  have hsign : (if p.negative then -(⌊p.magnitude⌋₊ : Int) else ⌊p.magnitude⌋₊) =
      ⌊p.magnitude⌋₊ := by
    split
    · rename_i hnegative
      have hzero : p.magnitude = 0 := by
        rw [Parts.value, if_pos hnegative] at habs
        linarith
      rw [hzero, Nat.floor_zero]
      rfl
    · rfl
  have hbound : ⌊p.magnitude⌋₊ < 2 ^ 63 := by
    rw [Nat.floor_lt p.magnitude_nonneg, ← habs]
    exact_mod_cast hlt
  rw [toInt, hp, habs]
  dsimp only
  rw [hinteger, hsign]
  omega

/-! ## §2 What the integer part leaves -/

/-- What is left lies between minus one and one. -/
theorem hasValue_fract (h : HasValue x v) : ∃ w, HasValue (fract x) w ∧ -1 ≤ w ∧ w ≤ 1 := by
  obtain ⟨t, ht, hpositive, hnegative⟩ := hasValue_trunc h
  have hleft : -1 ≤ v - t ∧ v - t ≤ 1 := by
    rcases le_total 0 v with hv | hv
    · obtain ⟨hlow, hhigh⟩ := hpositive hv
      exact ⟨by linarith, hhigh⟩
    · obtain ⟨hlow, hhigh⟩ := hnegative hv
      exact ⟨hlow, by linarith⟩
  obtain ⟨w, hw, hlow, hhigh⟩ := (nearestTo_sub h ht).between hasValue_ofNat_one.neg
    hasValue_ofNat_one hleft.1 hleft.2
  unfold fract
  dsimp only
  split
  · exact ⟨0, hasValue_signed_zero _, by norm_num, by norm_num⟩
  · exact ⟨w, hw, hlow, hhigh⟩

/-- **The remainder of division by one** of a finite double lies between zero and one. -/
theorem hasValue_fractUp (h : HasValue x v) :
    ∃ w, HasValue (Scalar.fractUp x) w ∧ 0 ≤ w ∧ w ≤ 1 := by
  obtain ⟨w, hw, hlow, hhigh⟩ := hasValue_fract h
  show ∃ w, HasValue (if decide (fract x < Float.ofNat 0) then fract x + Float.ofNat 1
    else fract x) w ∧ 0 ≤ w ∧ w ≤ 1
  split
  · rename_i hneg
    have hw0 : w < 0 := (hw.lt_iff hasValue_ofNat_zero).mp (of_decide_eq_true hneg)
    exact (nearestTo_add hw hasValue_ofNat_one).between_zero_one (by linarith) (by linarith)
  · rename_i hnonneg
    have hw0 : ¬ w < 0 := fun h => hnonneg (decide_eq_true ((hw.lt_iff hasValue_ofNat_zero).mpr h))
    exact ⟨w, hw, not_lt.mp hw0, hhigh⟩

end Values

end HueCycle.Binary64
