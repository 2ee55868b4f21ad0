/-
HueCycle.Proofs.Timing.AnyRate — what planning a schedule answers at every
rate, also at one with a zero.

A rate with a zero is infinite, zero or no number, and so is its product with
a duration. Infinite and zero products are refused by the limits on the number
of frames. A product that is no number passes every comparison and counts as
no frames; only the rate with both parts zero has it, and its delay has no
greatest common divisor to divide by. Main statement:
`Schedule.plan_stops_only_without_rate`.
-/
import Mathlib
import HueCycle.Proofs.Timing.Delay
import HueCycle.Proofs.Timing.FrameCount

namespace HueCycle

open Binary64
open Float.Model Float.Model.UnpackedFloat

/-- The faults of a rate, of a duration, and of turns and cycles. -/
def ConfigFault.isTiming : ConfigFault → Bool
  | .durationNotPositive _ | .shiftsNotFinite | .blinksNotFinite | .notWhole .. | .noFrames
  | .tooManyFrames _ | .delayTooFine .. | .rateZero => true
  | _ => false

/-! ## §1 Rates as numbers -/

namespace FrameRate

/-- The rate with both parts zero. -/
def none : FrameRate := ⟨0, 0⟩

theorem eq_none_of_zero {rate : FrameRate} (hnum : rate.num = 0) (hden : rate.den = 0) :
    rate = none := by
  cases rate
  exact congrArg₂ FrameRate.mk hnum hden

/-- A whole number of 32 bits is zero exactly if the mantissa of its double is. -/
theorem parts_part (n : UInt32) :
    ∃ p, parts (Float.ofNat n.toNat) = some p ∧ p.magnitude = n.toNat ∧
      (p.mantissa = 0 ↔ n = 0) := by
  obtain ⟨p, hp, -, hvalue⟩ := parts_ofNat (n.toNat_lt.trans (by decide))
  refine ⟨p, hp, hvalue, fun hzero => ?_, fun hzero => ?_⟩
  · rw [magnitude_of_zero hzero] at hvalue
    exact UInt32.toNat_inj.mp (by exact_mod_cast hvalue.symm)
  · by_contra hne
    have hpos := Parts.magnitude_pos hne
    rw [hvalue, hzero] at hpos
    exact absurd hpos (by simp)

/-- A rate with seconds is a finite number, and zero if it has no frames. -/
theorem parts_value_of_den {rate : FrameRate} (hden : rate.den ≠ 0) :
    ∃ p, parts rate.value = some p ∧ (rate.num = 0 → p.magnitude = 0) := by
  obtain ⟨p, hp, hnum, -⟩ := parts_part rate.num
  obtain ⟨q, hq, hden', hzero⟩ := parts_part rate.den
  have hquotient := nearest_div hp hq (mt hzero.mp hden)
  rw [hnum, hden'] at hquotient
  have hone : (1 : ℚ) ≤ rate.den.toNat := by
    exact_mod_cast Nat.pos_of_ne_zero fun h => hden (UInt32.toNat_inj.mp h)
  have hbound : (rate.num.toNat : ℚ) / rate.den.toNat ≤ 2 ^ (32 : Int) := by
    refine (div_le_self (Nat.cast_nonneg _) hone).trans ?_
    exact_mod_cast rate.num.toNat_lt.le
  obtain ⟨r, hr, -, -⟩ := hquotient.le_two_pow (by decide) (by decide) hbound
  refine ⟨r, hr, fun hnone => ?_⟩
  have hnothing : (rate.num.toNat : ℚ) / rate.den.toNat = (0 : Nat) := by
    rw [hnone, show ((0 : UInt32).toNat : ℚ) = 0 from Nat.cast_zero, zero_div, Nat.cast_zero]
  rw [hnothing] at hquotient
  obtain ⟨r', hr', -, hmagnitude⟩ := hquotient.whole (by decide)
  obtain rfl := Option.some.inj (hr.symm.trans hr')
  rw [hmagnitude, Nat.cast_zero]

/-- A rate with frames and without seconds is infinite. -/
theorem unpack_value_of_den_eq_zero {rate : FrameRate} (hnum : rate.num ≠ 0) (hden : rate.den = 0) :
    ∃ s, (rate.value : Float).toModel.unpack = .infinity s := by
  obtain ⟨p, hp, -, hzero⟩ := parts_part rate.num
  have hfinite : (Float.ofNat rate.num.toNat).toModel.unpack =
      .finite (signOf p.negative) p.mantissa p.exponent
        (Nat.pos_of_ne_zero (mt hzero.mp hnum)) := by
    rw [unpack_of_parts hp, Parts.unpacked, dif_neg (mt hzero.mp hnum)]
  have hnone : (Float.ofNat rate.den.toNat).toModel.unpack = .zero .positive := by
    rw [hden]
    rfl
  refine ⟨signOf p.negative / .positive, ?_⟩
  show (Float.Model.pack (UnpackedFloat.div _ (Float.ofNat rate.num.toNat).toModel.unpack
    (Float.ofNat rate.den.toNat).toModel.unpack)).unpack = _
  rw [hfinite, hnone]
  exact unpack_pack_infinity _

end FrameRate

/-! ## §2 Frames -/

namespace Schedule

/-- Where one part of the rate is not zero, rate times duration is a number. -/
theorem isNaN_product {rate : FrameRate} (hrate : rate ≠ .none) {duration : Float} {d : Parts}
    (hd : parts duration = some d) (hpos : d.mantissa ≠ 0) :
    (rate.value * duration).isNaN = false := by
  by_cases hden : rate.den = 0
  · have hnum : rate.num ≠ 0 := fun hnum => hrate (FrameRate.eq_none_of_zero hnum hden)
    obtain ⟨s, hs⟩ := FrameRate.unpack_value_of_den_eq_zero hnum hden
    show (Float.Model.pack (UnpackedFloat.mul _ (rate.value : Float).toModel.unpack
      duration.toModel.unpack)).unpack.isNaN = false
    rw [isNaN_unpack_pack, hs, unpack_of_parts hd, Parts.unpacked, dif_neg hpos]
    rfl
  · obtain ⟨p, hp, -⟩ := FrameRate.parts_value_of_den hden
    exact (nearest_mul hp hd).isNaN

/-- **Frames are only counted at a rate with frames and seconds**, and their number is at least
one and at most what 32 bits hold. -/
theorem countFrames_bounds {rate : FrameRate} (hrate : rate ≠ .none) {duration : Float} {d : Parts}
    (hd : parts duration = some d) (hpos : d.mantissa ≠ 0) {count : UInt64}
    (h : countFrames rate duration = .ok count) :
    1 ≤ count.toNat ∧ count.toNat ≤ 4294967295 ∧ rate.num ≠ 0 ∧ rate.den ≠ 0 := by
  obtain ⟨p, hp, -, hcount, hone, hmost⟩ := countFrames_eq_ok (isNaN_product hrate hd hpos) h
  have hden : rate.den ≠ 0 := by
    intro hden
    have hnum : rate.num ≠ 0 := fun hnum => hrate (FrameRate.eq_none_of_zero hnum hden)
    obtain ⟨s, hs⟩ := FrameRate.unpack_value_of_den_eq_zero hnum hden
    have hinfinite : (rate.value * duration).isFinite = false := by
      show (Float.Model.pack (UnpackedFloat.mul _ (rate.value : Float).toModel.unpack
        duration.toModel.unpack)).unpack.isFinite = false
      rw [hs, unpack_of_parts hd, Parts.unpacked, dif_neg hpos]
      exact congrArg UnpackedFloat.isFinite (unpack_pack_infinity _)
    rw [← isSome_parts, hp] at hinfinite
    cases hinfinite
  refine ⟨hone, hmost, fun hnum => ?_, hden⟩
  obtain ⟨q, hq, hzero⟩ := FrameRate.parts_value_of_den hden
  have hproduct := nearest_mul hq hd
  rw [hzero hnum, zero_mul, ← Nat.cast_zero] at hproduct
  obtain ⟨p', hp', -, hnothing⟩ := hproduct.whole (by decide)
  obtain rfl := Option.some.inj (hp.symm.trans hp')
  rw [hnothing, Nat.cast_zero, zero_add, Nat.floor_eq_zero.mpr (by norm_num)] at hcount
  omega

/-- The rate with both parts zero counts no frames, and is not refused for it. -/
theorem countFrames_none (duration : Float) : countFrames .none duration = .ok 0 := by
  have hproduct : (FrameRate.none.value : Float) * duration = 0.0 / 0.0 := rfl
  rw [countFrames, hproduct, if_neg (by decide +kernel), if_neg (by decide +kernel),
    if_neg (by decide +kernel)]
  exact congrArg Except.ok (by decide +kernel)

theorem countFrames_eq_error {rate : FrameRate} {duration : Float} {e : Error}
    (h : countFrames rate duration = .error e) :
    ∃ fault, fault.isTiming = true ∧ e = .config fault := by
  unfold countFrames at h
  dsimp only at h
  split at h
  · exact ⟨_, rfl, (Except.error.inj h).symm⟩
  · split at h
    · exact ⟨_, rfl, (Except.error.inj h).symm⟩
    · split at h
      · exact ⟨_, rfl, (Except.error.inj h).symm⟩
      · cases h

end Schedule

/-! ## §3 Delays -/

namespace FrameRate

/-- A rate without a delay has one that is too fine, or no greatest common divisor to divide by. -/
theorem delay_eq_error {rate : FrameRate} {e : Error} (h : rate.delay = .error e) :
    (∃ fault, fault.isTiming = true ∧ e = .config fault) ∨
      e = .fatal .divisionByZero ∧ rate = none := by
  by_cases hrate : rate.den ≠ 0 ∨ rate.num ≠ 0
  · obtain ⟨_, _, rfl, -⟩ := tooFine_of_delay_eq_error hrate h
    exact .inl ⟨_, rfl, rfl⟩
  · rw [not_or, not_not, not_not] at hrate
    obtain rfl := eq_none_of_zero hrate.2 hrate.1
    exact .inr ⟨(Except.error.inj (delay_zero.symm.trans h)).symm, rfl⟩

end FrameRate

/-! ## §4 Schedules -/

namespace Schedule

variable {rate : FrameRate} {duration shifts blinks : Float}

/-- The numbers that planning looks at before the rate: a duration above zero, and turns and
cycles that are finite. -/
def Admits (duration shifts blinks : Float) : Prop :=
  (duration.isFinite = true ∧ ¬ duration ≤ 0.0) ∧ shifts.isFinite = true ∧ blinks.isFinite = true

theorem Admits.parts (h : Admits duration shifts blinks) :
    ∃ d, parts duration = some d ∧ d.mantissa ≠ 0 := by
  obtain ⟨⟨hfinite, hpositive⟩, -⟩ := h
  obtain ⟨d, hd⟩ := Option.isSome_iff_exists.mp ((isSome_parts duration).trans hfinite)
  refine ⟨d, hd, fun hzero => hpositive ?_⟩
  have hnone : Binary64.parts 0.0 = some ⟨false, 0, -1074⟩ := rfl
  rw [le_iff_value hd hnone, Parts.value_of_zero hzero, Parts.value_of_zero rfl]

/-- Planning with such numbers is counting frames, then inverting the rate. -/
theorem plan_of_admits (h : Admits duration shifts blinks) :
    plan rate duration shifts blinks = countFrames rate duration >>= fun frameCount =>
      rate.delay >>= fun delay => .ok { rate, duration, shifts, blinks, frameCount, delay } := by
  obtain ⟨⟨hfinite, hpositive⟩, hshifts, hblinks⟩ := h
  simp only [plan, hfinite, hpositive, hshifts, hblinks]
  rfl

/-- With other numbers nothing is planned. -/
theorem plan_of_not_admits (rate : FrameRate) (h : ¬ Admits duration shifts blinks) :
    ∃ fault, fault.isTiming = true ∧
      plan rate duration shifts blinks = .error (.config fault) := by
  unfold plan
  by_cases hduration : duration.isFinite = true ∧ ¬ duration ≤ 0.0
  · by_cases hshifts : shifts.isFinite = true
    · have hblinks : blinks.isFinite = false := by
        by_contra hblinks
        exact h ⟨hduration, hshifts, by simpa using hblinks⟩
      refine ⟨.blinksNotFinite, rfl, ?_⟩
      simp only [hduration, hshifts, hblinks]
      rfl
    · refine ⟨.shiftsNotFinite, rfl, ?_⟩
      simp only [hduration, hshifts]
      rfl
  · refine ⟨.durationNotPositive duration, rfl, ?_⟩
    have hrefused : (!duration.isFinite || decide (duration ≤ 0.0)) = true := by
      rw [Bool.or_eq_true, Bool.not_eq_true', decide_eq_true_eq, ← Bool.not_eq_true]
      tauto
    simp only [hrefused]
    rfl

/-- A schedule, or a fault elsewhere than in the configuration, is only had from such numbers. -/
theorem admits_of_plan {result : Except Error Schedule}
    (h : plan rate duration shifts blinks = result)
    (hresult : ∀ fault, result ≠ .error (.config fault)) : Admits duration shifts blinks := by
  by_contra hnot
  obtain ⟨fault, -, hfault⟩ := plan_of_not_admits rate hnot
  exact hresult fault (h.symm.trans hfault)

/-- **What planning can report**: an error of the configuration, and at the rate with both parts
zero the division. -/
theorem plan_eq_error {e : Error} (h : plan rate duration shifts blinks = .error e) :
    (∃ fault, fault.isTiming = true ∧ e = .config fault) ∨
      e = .fatal .divisionByZero ∧ rate = .none := by
  by_cases hadmits : Admits duration shifts blinks
  · rw [plan_of_admits hadmits] at h
    rcases bind_eq_error.mp h with hcount | ⟨count, -, hlater⟩
    · exact .inl (countFrames_eq_error hcount)
    · rcases bind_eq_error.mp hlater with hdelay | ⟨delay, -, hlast⟩
      · exact FrameRate.delay_eq_error hdelay
      · cases hlast
  · obtain ⟨fault, htiming, hfault⟩ := plan_of_not_admits rate hadmits
    exact .inl ⟨fault, htiming, Except.error.inj (h.symm.trans hfault)⟩

/-- Where the numbers are admitted, nothing is planned at the rate with both parts zero. -/
theorem plan_none (h : Admits duration shifts blinks) :
    plan .none duration shifts blinks = .error (.fatal .divisionByZero) := by
  rw [plan_of_admits h, countFrames_none]
  show (FrameRate.delay ⟨0, 0⟩ >>= _) = _
  rw [FrameRate.delay_zero]
  rfl

/-- **Planning at any rate.** A schedule has at least one frame and at most what 32 bits hold, a
rate without a zero and a delay without one. Without a schedule there is an error of the
configuration, with one exception: the rate with both parts zero stops the program, for every
duration above zero with finite turns and cycles. -/
theorem plan_stops_only_without_rate (rate : FrameRate) (duration shifts blinks : Float) :
    (∀ schedule, plan rate duration shifts blinks = .ok schedule →
      1 ≤ schedule.frameCount.toNat ∧ schedule.frameCount.toNat ≤ 4294967295 ∧
        schedule.rate = rate ∧ rate.num ≠ 0 ∧ rate.den ≠ 0 ∧
        schedule.delay.num ≠ 0 ∧ schedule.delay.den ≠ 0) ∧
    (∀ e, plan rate duration shifts blinks = .error e →
      (∃ fault, e = .config fault) ∨ e = .fatal .divisionByZero) ∧
    (plan rate duration shifts blinks = .error (.fatal .divisionByZero) ↔
      rate = .none ∧ Admits duration shifts blinks) := by
  refine ⟨fun schedule h => ?_, fun e h => ?_, fun h => ?_, ?_⟩
  · have hadmits := admits_of_plan h (by simp)
    have hrate : rate ≠ .none := by
      rintro rfl
      rw [plan_none hadmits] at h
      cases h
    obtain ⟨d, hd, hpos⟩ := hadmits.parts
    rw [plan_of_admits hadmits] at h
    obtain ⟨count, hcount, hlater⟩ := bind_eq_ok.mp h
    obtain ⟨delay, hdelay, hlast⟩ := bind_eq_ok.mp hlater
    obtain rfl := Except.ok.inj hlast
    obtain ⟨hone, hmost, hnum, hden⟩ := countFrames_bounds hrate hd hpos hcount
    exact ⟨hone, hmost, rfl, hnum, hden, FrameRate.delay_pos hdelay hnum hden⟩
  · rcases plan_eq_error h with ⟨fault, -, hfault⟩ | ⟨hfatal, -⟩
    · exact .inl ⟨fault, hfault⟩
    · exact .inr hfatal
  · have hadmits := admits_of_plan h (by simp)
    rcases plan_eq_error h with ⟨fault, -, hfault⟩ | ⟨-, hrate⟩
    · cases hfault
    · exact ⟨hrate, hadmits⟩
  · rintro ⟨rfl, hadmits⟩
    exact plan_none hadmits

/-- Three frames in two seconds. -/
theorem plan_stops_only_without_rate_three_halves :
    ∃ schedule, plan ⟨3, 2⟩ 2.0 1.0 0.0 = .ok schedule ∧
      1 ≤ schedule.frameCount.toNat ∧ schedule.delay = ⟨2, 3⟩ := by
  have hproduct : (FrameRate.value ⟨3, 2⟩ : Float) * 2.0 = 3.0 := by decide +kernel
  have hround : Binary64.round 3.0 = 3.0 := by decide +kernel
  have hcount : countFrames ⟨3, 2⟩ 2.0 = .ok 3 := by
    rw [countFrames, hproduct, hround, if_neg (by decide +kernel), if_neg (by decide),
      if_neg (by decide)]
    exact congrArg Except.ok (by decide +kernel)
  have hdelay : FrameRate.delay ⟨3, 2⟩ = .ok ⟨2, 3⟩ := by
    simp [FrameRate.delay, FrameRate.narrow?]
  have hplan : plan ⟨3, 2⟩ 2.0 1.0 0.0 = .ok ⟨⟨3, 2⟩, 2.0, 1.0, 0.0, 3, ⟨2, 3⟩⟩ := by
    rw [plan_of_admits ⟨by decide, by decide, by decide⟩, hcount, hdelay]
    rfl
  obtain ⟨hok, -⟩ := plan_stops_only_without_rate ⟨3, 2⟩ 2.0 1.0 0.0
  exact ⟨_, hplan, (hok _ hplan).1, rfl⟩

/-- One second at the rate with both parts zero. -/
theorem plan_divides_by_zero :
    plan ⟨0, 0⟩ 1.0 1.0 0.0 = .error (.fatal .divisionByZero) :=
  plan_none ⟨by decide, by decide, by decide⟩

end Schedule

end HueCycle
