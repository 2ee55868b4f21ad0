/-
HueCycle.Proofs.Timing.FrameCount — how many frames a schedule has.

A schedule has as many frames as rate times duration, rounded to a whole
number, and there is at least one and at most as many as an animated PNG
can state. So the duration of a schedule is not too short for its rate.
-/
import Mathlib
import HueCycle.Schedule
import HueCycle.Proofs.Animate
import HueCycle.Proofs.Numeric.WholeNumbers

namespace HueCycle

open Binary64

/-! ## §1 Rates -/

/-- Whole frames a second as a number. -/
theorem FrameRate.parts_value (n : UInt32) :
    ∃ p, parts (FrameRate.value ⟨n, 1⟩) = some p ∧ p.negative = false ∧ p.magnitude = n.toNat := by
  have hn : n.toNat < 2 ^ 53 := n.toNat_lt.trans (by decide)
  obtain ⟨p, hp, hnegative, hmagnitude⟩ := parts_ofNat hn
  obtain ⟨q, hq, hnegative', hone⟩ := parts_ofNat (n := 1) (by decide)
  have hunit : q.mantissa ≠ 0 := by
    intro hzero
    rw [magnitude_of_zero hzero] at hone
    norm_num at hone
  have hquotient := nearest_div hp hq hunit
  rw [hmagnitude, hone, hnegative, hnegative', Nat.cast_one, div_one] at hquotient
  exact hquotient.whole hn

/-! ## §2 Counts -/

/-- The rounded product that is neither below one nor above the limit is finite and not negative. -/
theorem parts_of_between {x : Float} (hnumber : x.isNaN = false) (hlow : ¬ x < 1.0)
    (hhigh : ¬ 4294967295.0 < x) :
    ∃ p, parts x = some p ∧ p.negative = false ∧ 1 ≤ p.magnitude ∧ p.magnitude ≤ 4294967295 := by
  have hone : parts 1.0 = some ⟨false, 2 ^ 52, -52⟩ := rfl
  have hlimit : parts 4294967295.0 = some ⟨false, 4294967295 * 2 ^ 21, -21⟩ := rfl
  have hunit : Parts.value ⟨false, 2 ^ 52, -52⟩ = 1 := by
    norm_num [Parts.value, Parts.magnitude, scaled]
  have hmost : Parts.value ⟨false, 4294967295 * 2 ^ 21, -21⟩ = 4294967295 := by
    norm_num [Parts.value, Parts.magnitude, scaled]
  cases hparts : parts x with
  | none =>
    have hone' := unpack_of_parts hone
    have hlimit' := unpack_of_parts hlimit
    rcases unpack_of_parts_none hparts with ⟨s, hu⟩ | hu
    · cases s with
      | negative =>
        refine absurd ((lt_iff _ _).mpr ?_) hlow
        rw [hu, hone']
        rfl
      | positive =>
        refine absurd ((lt_iff _ _).mpr ?_) hhigh
        rw [hu, hlimit']
        rfl
    · have hnan : x.isNaN = true := by
        show x.toModel.unpack.isNaN = true
        rw [hu]
        rfl
      rw [hnumber] at hnan
      cases hnan
  | some p =>
    rw [lt_iff_value hparts hone, hunit, not_lt] at hlow
    rw [lt_iff_value hlimit hparts, hmost, not_lt] at hhigh
    cases hnegative : p.negative with
    | true =>
      have hvalue : p.value = -p.magnitude := if_pos hnegative
      have := p.magnitude_nonneg
      linarith
    | false =>
      have hvalue : p.value = p.magnitude := if_neg (by simp [hnegative])
      rw [hvalue] at hlow hhigh
      exact ⟨p, rfl, hnegative, hlow, hhigh⟩

/-- **The number of frames** is rate times duration rounded to a whole number, at least one and at
most what 32 bits hold. -/
theorem Schedule.countFrames_eq_ok {rate : FrameRate} {duration : Float} {count : UInt64}
    (hnumber : (rate.value * duration).isNaN = false)
    (h : countFrames rate duration = .ok count) :
    ∃ p, parts (rate.value * duration) = some p ∧ p.negative = false ∧
      count.toNat = ⌊p.magnitude + 1 / 2⌋₊ ∧ 1 ≤ count.toNat ∧ count.toNat ≤ 4294967295 := by
  unfold countFrames at h
  generalize rate.value * duration = product at hnumber h
  dsimp only at h
  split at h
  · cases h
  · split at h
    · cases h
    · rename_i hlow
      split at h
      · cases h
      · rename_i hhigh
        obtain rfl := Except.ok.inj h
        cases hparts : parts product with
        | none =>
          have hstays : Binary64.round product = product := by rw [Binary64.round, hparts]
          rw [hstays] at hlow hhigh
          obtain ⟨q, hq, -⟩ := parts_of_between hnumber hlow hhigh
          rw [hparts] at hq
          cases hq
        | some p =>
          obtain ⟨q, hq, hnegative, hmagnitude⟩ := parts_round hparts
          obtain ⟨q', hq', hpositive, hone, hmost⟩ :=
            parts_of_between (isNaN_of_parts hq) hlow hhigh
          obtain rfl := Option.some.inj (hq.symm.trans hq')
          have hcount := toNat_toUInt64 hq hpositive (hmost.trans_lt (by norm_num))
          rw [hmagnitude] at hcount hone hmost
          rw [Nat.floor_natCast] at hcount
          rw [hcount]
          exact ⟨p, rfl, hnegative.symm.trans hpositive, rfl, by exact_mod_cast hone,
            by exact_mod_cast hmost⟩

/-! ## §3 Schedules -/

/-- What a schedule of whole frames a second rests on: the duration is positive, and not shorter
than a quarter of a frame. -/
theorem Schedule.plan_perSecond {n : UInt32} {duration shifts blinks : Float} {schedule : Schedule}
    (h : Schedule.plan ⟨n, 1⟩ duration shifts blinks = .ok schedule) :
    1 ≤ schedule.frameCount.toNat ∧ schedule.frameCount.toNat ≤ 4294967295 ∧
      ∃ d, parts duration = some d ∧ d.negative = false ∧ 1 / 4 ≤ n.toNat * d.magnitude := by
  obtain ⟨hduration, -, -, count, delay, hcount, -, rfl⟩ := Schedule.plan_eq_ok_iff.mp h
  rw [Bool.or_eq_false_iff, Bool.not_eq_false', decide_eq_false_iff_not] at hduration
  obtain ⟨hfinite, hpositive⟩ := hduration
  obtain ⟨d, hd⟩ := Option.isSome_iff_exists.mp ((isSome_parts duration).trans hfinite)
  have hzero : parts 0.0 = some ⟨false, 0, -1074⟩ := rfl
  rw [le_iff_value hd hzero, Parts.value_of_zero (p := ⟨false, 0, -1074⟩) rfl, not_le] at hpositive
  have hsign : d.negative = false := by
    by_contra hnegative
    have hvalue : d.value = -d.magnitude := if_pos (by simpa using hnegative)
    have := d.magnitude_nonneg
    linarith
  obtain ⟨r, hr, hrate, hvalue⟩ := FrameRate.parts_value n
  have hproduct := nearest_mul hr hd
  rw [hvalue] at hproduct
  obtain ⟨p, hp, -, hcounted, hone, hmost⟩ := Schedule.countFrames_eq_ok hproduct.isNaN hcount
  refine ⟨hone, hmost, d, hd, hsign, ?_⟩
  by_contra hshort
  have hquarter : (n.toNat : ℚ) * d.magnitude ≤ 2 ^ (-2 : Int) := by
    norm_num at hshort ⊢
    exact hshort.le
  obtain ⟨p', hp', -, hless⟩ := hproduct.le_two_pow (by decide) (by decide) hquarter
  obtain rfl := Option.some.inj (hp.symm.trans hp')
  have hnone : ⌊p.magnitude + 1 / 2⌋₊ = 0 := by
    rw [Nat.floor_eq_zero]
    norm_num at hless ⊢
    linarith
  omega

end HueCycle
