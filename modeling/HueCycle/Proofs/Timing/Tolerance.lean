/-
HueCycle.Proofs.Timing.Tolerance — how far rate times duration may be from
the number of frames.

The product is compared with the whole number next to it, and the room that
it has grows with it: a billionth of the product, or of one frame where the
product is below one. Both sides of that comparison are rounded. So what is
accepted lies within the room up to a few roundings (`near_of_not_lt`), and
what lies within the room is accepted (`not_lt_of_near`). Below half a
billion frames the room is less than half a frame.

  §1 Doubles — magnitudes, whole numbers and errors as values
  §2 Room    — the comparison as one of exact numbers
  §3 Counts  — which products count, and for how many frames
  §4 Plans   — `Schedule.plan_keeps_duration`
-/
import Mathlib
import HueCycle.Proofs.Color.Channels
import HueCycle.Proofs.Timing.AnyRate

namespace HueCycle

namespace Binary64

/-! ## §1 Doubles -/

section Values

variable {x : Float} {v r : ℚ}

theorem HasValue.abs (h : HasValue x v) : HasValue x.abs |v| := by
  obtain ⟨p, hp, rfl⟩ := h
  have hcanonical := canonical_of_parts hp
  refine ⟨{ p with negative := false }, ?_, p.abs_value.symm⟩
  refine parts_of_unpack ⟨hcanonical.lt, hcanonical.low, hcanonical.high, hcanonical.full⟩ ?_
  show (Float.Model.pack x.toModel.unpack.abs).unpack = _
  rw [unpack_of_parts hp, Parts.unpacked, Parts.unpacked]
  split
  · exact unpack_pack_zero _
  · rename_i hne
    exact unpack_pack_onGrid _ (hcanonical.onGrid hne) hcanonical.high

/-- The whole number next to one that is not negative. -/
theorem hasValue_round (h : HasValue x v) (hv : 0 ≤ v) : HasValue (round x) ⌊v + 1 / 2⌋₊ := by
  obtain ⟨p, hp, rfl⟩ := h
  have hmagnitude : p.value = p.magnitude := by rw [← p.abs_value, abs_of_nonneg hv]
  obtain ⟨q, hq, hsign, hwhole⟩ := parts_round hp
  refine ⟨q, hq, ?_⟩
  rw [Parts.value, hsign, hwhole, hmagnitude]
  split
  · rename_i hnegative
    have hzero : p.magnitude = 0 := by
      rw [Parts.value, if_pos hnegative] at hmagnitude
      linarith
    rw [hzero, zero_add, Nat.floor_eq_zero.mpr (by norm_num), Nat.cast_zero, neg_zero]
  · rfl

/-- A whole number above zero, cut to a word. -/
theorem toUInt64_of_hasValue {n : ℕ} (h : HasValue x n) (hpos : 0 < n) (hmost : n < 2 ^ 64) :
    x.toUInt64 = UInt64.ofNat n := by
  obtain ⟨q, hq, hvalue⟩ := h
  have hcast : (0 : ℚ) < n := by exact_mod_cast hpos
  have hpositive : q.negative = false := by
    cases hsign : q.negative with
    | false => rfl
    | true =>
      rw [Parts.value, if_pos hsign] at hvalue
      have := q.magnitude_nonneg
      linarith
  have hmagnitude : q.magnitude = n := by
    rwa [Parts.value, if_neg (by simp [hpositive])] at hvalue
  refine UInt64.toNat_inj.mp ?_
  rw [toNat_toUInt64 hq hpositive (by rw [hmagnitude]; exact_mod_cast hmost), hmagnitude,
    Nat.floor_natCast, UInt64.toNat_ofNat_of_lt' hmost]

/-- Rounding a number that is not among the least ones. -/
theorem NearestTo.close (h : NearestTo r x) (hx : HasValue x v) (hr : 2 ^ (-1022 : Int) ≤ |r|) :
    Close roundoff |v| |r| := by
  obtain ⟨negative, hnearest, -⟩ := h
  obtain ⟨p, hp, rfl⟩ := hx
  rw [p.abs_value]
  exact Nearest.close hnearest hp hr

end Values

end Binary64

open Binary64

namespace Schedule

/-! ## §2 Room -/

/-- One part in a thousand million. -/
def billionth : ℚ := 1 / 10 ^ 9

/-- The error of rounding is bounded down to far below a billionth. -/
theorem two_zpow_le_billionth : (2 : ℚ) ^ (-1022 : Int) ≤ billionth := by
  calc (2 : ℚ) ^ (-1022 : Int) ≤ 2 ^ (-30 : Int) :=
        zpow_le_zpow_right₀ (by norm_num) (by norm_num)
    _ ≤ billionth := by norm_num [billionth]

/-- A product lies next to a number of frames: no further from it than the given part of itself, or
of one frame where it is smaller than that. -/
def Near (part product : ℚ) (frames : ℕ) : Prop := |product - frames| ≤ part * max product 1

/-- The tolerance as a number. -/
def toleranceValue : ℚ := 4835703278458517 * 2 ^ (-82 : Int)

theorem hasValue_tolerance : HasValue tolerance toleranceValue :=
  ⟨⟨false, 4835703278458517, -82⟩, by decide +kernel, rfl⟩

theorem toleranceValue_bounds :
    billionth ≤ toleranceValue ∧ toleranceValue ≤ (1 + roundoff) * billionth := by
  constructor <;> norm_num [billionth, toleranceValue, roundoff]

section Room

variable {product whole : Float} {x : ℚ} {n : ℕ}

/-- The room that a product has, before it is rounded. -/
theorem nearestTo_room (hx : HasValue product x) :
    NearestTo (toleranceValue * max x 1) (tolerance * Scalar.larger product 1.0) :=
  nearestTo_mul hasValue_tolerance (hasValue_larger hx hasValue_one)

theorem exists_hasValue_room (hx : HasValue product x) :
    ∃ t, HasValue (tolerance * Scalar.larger product 1.0) t := by
  refine (nearestTo_room hx).exists_hasValue ?_
  have hmost := (hasValue_larger hx hasValue_one).abs_lt_overflow
  have hpart : |toleranceValue| ≤ 1 := by norm_num [toleranceValue]
  rw [abs_mul]
  exact (mul_le_of_le_one_left (abs_nonneg _) hpart).trans_lt hmost

/-- Rounding widens the room by little. -/
theorem abs_room_le {t : ℚ} (hx : HasValue product x)
    (ht : HasValue (tolerance * Scalar.larger product 1.0) t) :
    |t| ≤ (1 + roundoff) * (toleranceValue * max x 1) := by
  have hone : 1 ≤ max x 1 := le_max_right x 1
  have hpos : 0 ≤ toleranceValue * max x 1 :=
    mul_nonneg (by norm_num [toleranceValue]) (by linarith)
  have hclose := (nearestTo_room hx).close ht (by
    rw [abs_of_nonneg hpos]
    calc (2 : ℚ) ^ (-1022 : Int) ≤ billionth := two_zpow_le_billionth
      _ ≤ toleranceValue * 1 := by linarith [toleranceValue_bounds.1]
      _ ≤ toleranceValue * max x 1 :=
          mul_le_mul_of_nonneg_left hone (by norm_num [toleranceValue]))
  rw [abs_of_nonneg hpos] at hclose
  exact hclose.le

theorem exists_hasValue_difference (hx : HasValue product x) (hn : HasValue whole n)
    (hnonneg : 0 ≤ x) : ∃ d, HasValue (product - whole) d := by
  refine (nearestTo_sub hx hn).exists_hasValue ?_
  have hxmost := hx.abs_lt_overflow
  have hnmost := hn.abs_lt_overflow
  have hn0 : (0 : ℚ) ≤ n := Nat.cast_nonneg n
  rw [abs_of_nonneg hnonneg] at hxmost
  rw [abs_of_nonneg hn0] at hnmost
  rw [abs_lt]
  constructor <;> linarith

/-- **What is accepted lies within the room**, up to the roundings of the comparison. -/
theorem near_of_not_lt (hx : HasValue product x) (hn : HasValue whole n) (hnonneg : 0 ≤ x)
    (h : ¬ tolerance * Scalar.larger product 1.0 < (product - whole).abs) :
    Near ((1 + 4 * roundoff) * billionth) x n := by
  obtain ⟨t, ht⟩ := exists_hasValue_room hx
  obtain ⟨d, hd⟩ := exists_hasValue_difference hx hn hnonneg
  have hle : |d| ≤ t := not_lt.mp (mt (ht.lt_iff hd.abs).mpr h)
  have hone : 1 ≤ max x 1 := le_max_right x 1
  have hroom := abs_room_le hx ht
  rw [Near]
  rcases le_or_gt ((2 : ℚ) ^ (-1022 : Int)) |x - n| with hbig | hsmall
  · have hdifference := ((nearestTo_sub hx hn).close hd hbig).ge
    have hchain : (1 - roundoff) * |x - n| ≤ (1 + roundoff) ^ 2 * billionth * max x 1 := by
      calc (1 - roundoff) * |x - n| ≤ |t| := hdifference.trans (hle.trans (le_abs_self t))
        _ ≤ (1 + roundoff) * (toleranceValue * max x 1) := hroom
        _ ≤ (1 + roundoff) * ((1 + roundoff) * billionth * max x 1) := by
            refine mul_le_mul_of_nonneg_left ?_ (by linarith [roundoff_pos])
            exact mul_le_mul_of_nonneg_right toleranceValue_bounds.2 (by linarith)
        _ = (1 + roundoff) ^ 2 * billionth * max x 1 := by ring
    have hfactor : (1 + roundoff) ^ 2 * billionth ≤
        (1 - roundoff) * ((1 + 4 * roundoff) * billionth) := by norm_num [billionth, roundoff]
    have hkeep : 0 < 1 - roundoff := by norm_num [roundoff]
    refine le_of_mul_le_mul_left ?_ hkeep
    calc (1 - roundoff) * |x - n| ≤ (1 + roundoff) ^ 2 * billionth * max x 1 := hchain
      _ ≤ (1 - roundoff) * ((1 + 4 * roundoff) * billionth) * max x 1 :=
          mul_le_mul_of_nonneg_right hfactor (by linarith)
      _ = (1 - roundoff) * ((1 + 4 * roundoff) * billionth * max x 1) := by ring
  · have hpart : billionth ≤ (1 + 4 * roundoff) * billionth := by norm_num [billionth, roundoff]
    calc |x - n| ≤ billionth := hsmall.le.trans two_zpow_le_billionth
      _ ≤ (1 + 4 * roundoff) * billionth := hpart
      _ ≤ (1 + 4 * roundoff) * billionth * max x 1 :=
          le_mul_of_one_le_right (by norm_num [billionth, roundoff]) hone

/-- **What lies within the room is accepted**: rounding both sides keeps their order. -/
theorem not_lt_of_near (hx : HasValue product x) (hn : HasValue whole n) (hnonneg : 0 ≤ x)
    (h : Near billionth x n) :
    ¬ tolerance * Scalar.larger product 1.0 < (product - whole).abs := by
  obtain ⟨t, ht⟩ := exists_hasValue_room hx
  obtain ⟨d, hd⟩ := exists_hasValue_difference hx hn hnonneg
  have hpos : 0 ≤ toleranceValue * max x 1 :=
    mul_nonneg (by norm_num [toleranceValue]) ((zero_le_one).trans (le_max_right x 1))
  have hexact : |x - n| ≤ |toleranceValue * max x 1| := by
    rw [abs_of_nonneg hpos]
    exact h.trans (mul_le_mul_of_nonneg_right toleranceValue_bounds.1
      (zero_le_one.trans (le_max_right x 1)))
  have hkept := (nearestTo_sub hx hn).abs_mono (nearestTo_room hx) hexact hd ht
  rw [← ((nearestTo_room hx).sign ht).1 hpos] at hkept
  exact mt (ht.lt_iff hd.abs).mp (not_lt.mpr hkept)

end Room

/-! ## §3 Counts -/

section Counts

variable {rate : FrameRate} {duration : Float} {x : ℚ}

/-- A rounded product within the room and the limits is the count. -/
theorem countFrames_of_round (product : Float) {whole : Float}
    (hproduct : rate.value * duration = product) (hwhole : Binary64.round product = whole)
    (hroom : ¬ tolerance * Scalar.larger product 1.0 < (product - whole).abs)
    (hlow : ¬ whole < 1.0) (hhigh : ¬ 4294967295.0 < whole) :
    countFrames rate duration = .ok whole.toUInt64 := by
  rw [countFrames, hproduct, hwhole, if_neg hroom, if_neg hlow, if_neg hhigh]

/-- **What is counted** lies next to the product, which is not below half a frame. -/
theorem near_of_countFrames {count : UInt64} (hx : HasValue (rate.value * duration) x)
    (h : countFrames rate duration = .ok count) :
    1 / 2 ≤ x ∧ Near ((1 + 4 * roundoff) * billionth) x count.toNat := by
  obtain ⟨p, hp, hsign, hcount, hone, -⟩ := countFrames_eq_ok hx.isNaN h
  have hvalue : x = p.magnitude :=
    hx.unique ⟨p, hp, by rw [Parts.value, hsign, if_neg Bool.false_ne_true]⟩
  have hnonneg : 0 ≤ x := hvalue ▸ p.magnitude_nonneg
  have hwhole := hasValue_round hx hnonneg
  rw [← hvalue] at hcount
  rw [← hcount] at hwhole
  refine ⟨?_, near_of_not_lt hx hwhole hnonneg fun hbeyond => ?_⟩
  · have := Nat.floor_le (a := x + 1 / 2) (by linarith)
    rw [← hcount] at this
    have hcast : (1 : ℚ) ≤ count.toNat := by exact_mod_cast hone
    linarith
  · rw [countFrames, if_pos hbeyond] at h
    cases h

/-- Below half a billion frames the room is less than half a frame. -/
theorem room_lt_half (hlt : x < 5 * 10 ^ 8) : billionth * max x 1 < 1 / 2 := by
  have hmax : max x 1 < 5 * 10 ^ 8 := max_lt hlt (by norm_num)
  calc billionth * max x 1 < billionth * (5 * 10 ^ 8) :=
        mul_lt_mul_of_pos_left hmax (by norm_num [billionth])
    _ = 1 / 2 := by norm_num [billionth]

/-- **What lies within the room is counted**, as long as the room is less than half a frame. -/
theorem countFrames_of_near {n : ℕ} (hx : HasValue (rate.value * duration) x) (hn : 1 ≤ n)
    (hlt : x < 5 * 10 ^ 8) (h : Near billionth x n) :
    countFrames rate duration = .ok (UInt64.ofNat n) := by
  obtain ⟨hlow, hhigh⟩ := abs_le.mp (h.trans (room_lt_half hlt).le)
  have hstrict := abs_lt.mp (h.trans_lt (room_lt_half hlt))
  have hone : (1 : ℚ) ≤ n := by exact_mod_cast hn
  have hnonneg : 0 ≤ x := by linarith
  have hfloor : ⌊x + 1 / 2⌋₊ = n :=
    (Nat.floor_eq_iff (by linarith)).mpr ⟨by linarith, by linarith [hstrict.2]⟩
  have hwhole := hasValue_round hx hnonneg
  rw [hfloor] at hwhole
  have hmost : n < 2 ^ 32 := by
    have : (n : ℚ) < 2 ^ 32 := by linarith
    exact_mod_cast this
  have hlimit : HasValue 4294967295.0 4294967295 := by
    refine ⟨⟨false, 4294967295 * 2 ^ 21, -21⟩, rfl, ?_⟩
    norm_num [Parts.value, Parts.magnitude, scaled]
  have hnotless : ¬ Binary64.round (rate.value * duration) < 1.0 :=
    mt (hwhole.lt_iff hasValue_one).mp (not_lt.mpr hone)
  have hnotmore : ¬ 4294967295.0 < Binary64.round (rate.value * duration) := by
    refine mt (hlimit.lt_iff hwhole).mp (not_lt.mpr ?_)
    have : n ≤ 4294967295 := by omega
    exact_mod_cast this
  rw [countFrames_of_round _ rfl rfl (not_lt_of_near hx hwhole hnonneg h) hnotless hnotmore,
    toUInt64_of_hasValue hwhole hn (hmost.trans (by decide))]

/-- Half a frame is beyond the room. -/
theorem not_near_half {k : ℕ} (hk : k < 500000000) (n : ℕ) :
    ¬ Near ((1 + 4 * roundoff) * billionth) (k + 1 / 2) n := by
  have hdistance : (1 / 2 : ℚ) ≤ |(k : ℚ) + 1 / 2 - n| := by
    rcases Nat.lt_or_ge k n with hlt | hge
    · have : (k : ℚ) + 1 ≤ n := by exact_mod_cast hlt
      rw [abs_of_nonpos (by linarith)]
      linarith
    · have : (n : ℚ) ≤ k := by exact_mod_cast hge
      rw [abs_of_nonneg (by linarith)]
      linarith
  have hmax : max ((k : ℚ) + 1 / 2) 1 ≤ 500000000 - 1 / 2 := by
    have : (k : ℚ) ≤ 499999999 := by exact_mod_cast Nat.le_of_lt_succ hk
    exact max_le (by linarith) (by norm_num)
  intro h
  have hroom : (1 + 4 * roundoff) * billionth * max ((k : ℚ) + 1 / 2) 1 < 1 / 2 := by
    calc (1 + 4 * roundoff) * billionth * max ((k : ℚ) + 1 / 2) 1
        ≤ (1 + 4 * roundoff) * billionth * (500000000 - 1 / 2) :=
          mul_le_mul_of_nonneg_left hmax (by norm_num [roundoff, billionth])
      _ < 1 / 2 := by norm_num [roundoff, billionth]
  exact absurd (hdistance.trans h) (not_le.mpr hroom)

end Counts

/-! ## §4 Plans -/

section Plans

variable {rate : FrameRate} {duration shifts blinks : Float} {d x : ℚ}

/-- The exact time of a number of frames. -/
theorem elapsed_eq (rate : FrameRate) (n : ℕ) : (rate.elapsed n : ℚ) = n / rate.value := by
  show (n : ℚ) * rate.den.toNat / rate.num.toNat = n / (rate.num.toNat / rate.den.toNat)
  rw [div_div_eq_mul_div]

/-- A rate without a zero, and the double it is rounded to. -/
theorem exists_hasValue_rate (hnum : rate.num ≠ 0) (hden : rate.den ≠ 0) :
    (0 : ℚ) < rate.value ∧ ∃ q, HasValue rate.value q ∧ Close roundoff q rate.value := by
  have hpart {n : UInt32} (hn : n ≠ 0) : (1 : ℚ) ≤ n.toNat ∧ (n.toNat : ℚ) ≤ 2 ^ (32 : Int) := by
    refine ⟨?_, by exact_mod_cast n.toNat_lt.le⟩
    exact_mod_cast Nat.pos_of_ne_zero fun h => hn (UInt32.toNat_inj.mp h)
  obtain ⟨hnumlow, hnumhigh⟩ := hpart hnum
  obtain ⟨hdenlow, hdenhigh⟩ := hpart hden
  have hvalue : (rate.value : ℚ) = rate.num.toNat / rate.den.toNat := rfl
  have hlow : (2 : ℚ) ^ (-32 : Int) ≤ rate.value := by
    rw [hvalue, le_div_iff₀ (by linarith)]
    calc (2 : ℚ) ^ (-32 : Int) * rate.den.toNat ≤ 2 ^ (-32 : Int) * 2 ^ (32 : Int) :=
          mul_le_mul_of_nonneg_left hdenhigh (two_zpow_pos _).le
      _ ≤ rate.num.toNat := by rwa [← two_zpow_add, neg_add_cancel, zpow_zero]
  have hpos : (0 : ℚ) < rate.value := (two_zpow_pos _).trans_le hlow
  have hsome : (rate.den.toNat : ℚ) ≠ 0 := by linarith
  have hnearest : NearestTo rate.value (rate.value : Float) :=
    nearestTo_div (hasValue_ofNat (rate.num.toNat_lt.trans (by decide)))
      (hasValue_ofNat (rate.den.toNat_lt.trans (by decide))) hsome
  have hmost : |(rate.value : ℚ)| < overflow := by
    rw [abs_of_pos hpos, hvalue]
    refine (div_le_self (by linarith) hdenlow).trans_lt (hnumhigh.trans_lt ?_)
    have := scaled_lt_overflow (m := 1) (e := 32) (by decide) (by decide)
    rwa [scaled, Nat.cast_one, one_mul] at this
  obtain ⟨q, hq⟩ := hnearest.exists_hasValue hmost
  have hclose := hnearest.close hq (by
    rw [abs_of_pos hpos]
    exact (zpow_le_zpow_right₀ (by norm_num) (by norm_num)).trans hlow)
  rw [← (hnearest.sign hq).1 hpos.le, abs_of_pos hpos] at hclose
  exact ⟨hpos, q, hq, hclose⟩

/-- A product of at least half a frame is not far from the exact one. -/
theorem close_product (hnum : rate.num ≠ 0) (hden : rate.den ≠ 0) (hd : HasValue duration d)
    (hpos : 0 < d) (hx : HasValue (rate.value * duration) x) (hhalf : 1 / 2 ≤ x) :
    Close (3 * roundoff) x (rate.value * d) := by
  obtain ⟨hrate, q, hq, hclose⟩ := exists_hasValue_rate hnum hden
  have hqpos : 0 < q := hclose.pos (by norm_num [roundoff]) hrate
  have hproduct := nearestTo_mul hq hd
  have hquarter : HasValue 0.25 (1 / 4) := by
    refine ⟨⟨false, 2 ^ 52, -54⟩, rfl, ?_⟩
    norm_num [Parts.value, Parts.magnitude, scaled]
  have hlarge : 1 / 4 < q * d := by
    by_contra hsmall
    have := hproduct.mono (nearestTo_self hquarter) (not_lt.mp hsmall) hx hquarter
    linarith
  have hqd : 0 ≤ q * d := by linarith
  have hrounded := hproduct.close hx (by
    rw [abs_of_nonneg hqd]
    calc (2 : ℚ) ^ (-1022 : Int) ≤ 2 ^ (-2 : Int) :=
          zpow_le_zpow_right₀ (by norm_num) (by norm_num)
      _ ≤ q * d := by norm_num; linarith)
  rw [← (hproduct.sign hx).1 hqd, abs_of_nonneg hqd] at hrounded
  have hfirst : |x - q * d| ≤ roundoff * ((1 + roundoff) * (rate.value * d)) := by
    refine hrounded.trans (mul_le_mul_of_nonneg_left ?_ roundoff_pos.le)
    calc q * d ≤ (1 + roundoff) * rate.value * d := mul_le_mul_of_nonneg_right hclose.le hpos.le
      _ = (1 + roundoff) * (rate.value * d) := by ring
  have hsecond : |q * d - rate.value * d| ≤ roundoff * (rate.value * d) := by
    rw [← sub_mul, abs_mul, abs_of_pos hpos, ← mul_assoc]
    exact mul_le_mul_of_nonneg_right hclose hpos.le
  have hexact : (0 : ℚ) ≤ rate.value * d := (mul_pos hrate hpos).le
  calc |x - rate.value * d| ≤ |x - q * d| + |q * d - rate.value * d| := abs_sub_le _ _ _
    _ ≤ roundoff * (2 + roundoff) * (rate.value * d) := by linarith
    _ ≤ 3 * roundoff * (rate.value * d) :=
        mul_le_mul_of_nonneg_right (by norm_num [roundoff]) hexact

/-- **The time that the frames take** is the duration, up to a billionth of it or of the time of
one frame. -/
theorem abs_elapsed_sub_le (hnum : rate.num ≠ 0) (hden : rate.den ≠ 0) (hd : HasValue duration d)
    (hpos : 0 < d) {n : ℕ} (hx : HasValue (rate.value * duration) x) (hhalf : 1 / 2 ≤ x)
    (hnear : Near ((1 + 4 * roundoff) * billionth) x n) :
    |(rate.elapsed n : ℚ) - d| ≤ (billionth + 4 * roundoff) * max d (rate.elapsed 1) := by
  obtain ⟨hrate, -⟩ := exists_hasValue_rate hnum hden
  have hclose := close_product hnum hden hd hpos hx hhalf
  have hexact : (0 : ℚ) < rate.value * d := mul_pos hrate hpos
  have hmax : max x 1 ≤ (1 + 3 * roundoff) * max (rate.value * d) 1 := by
    have hone : (0 : ℚ) ≤ 1 + 3 * roundoff := by norm_num [roundoff]
    refine max_le (hclose.le.trans (mul_le_mul_of_nonneg_left (le_max_left _ _) hone)) ?_
    calc (1 : ℚ) ≤ 1 + 3 * roundoff := by norm_num [roundoff]
      _ ≤ (1 + 3 * roundoff) * max (rate.value * d) 1 :=
          le_mul_of_one_le_right hone (le_max_right _ _)
  have hframes : |(n : ℚ) - rate.value * d| ≤
      (billionth + 4 * roundoff) * max (rate.value * d) 1 := by
    have hroom : (0 : ℚ) ≤ max (rate.value * d) 1 := zero_le_one.trans (le_max_right _ _)
    calc |(n : ℚ) - rate.value * d| ≤ |(n : ℚ) - x| + |x - rate.value * d| := abs_sub_le _ _ _
      _ ≤ (1 + 4 * roundoff) * billionth * ((1 + 3 * roundoff) * max (rate.value * d) 1) +
          3 * roundoff * max (rate.value * d) 1 := by
          refine add_le_add ?_ (hclose.trans ?_)
          · rw [abs_sub_comm]
            exact hnear.trans (mul_le_mul_of_nonneg_left hmax (by norm_num [roundoff, billionth]))
          · exact mul_le_mul_of_nonneg_left (le_max_left _ _) (by norm_num [roundoff])
      _ = ((1 + 4 * roundoff) * billionth * (1 + 3 * roundoff) + 3 * roundoff) *
          max (rate.value * d) 1 := by ring
      _ ≤ (billionth + 4 * roundoff) * max (rate.value * d) 1 :=
          mul_le_mul_of_nonneg_right (by norm_num [roundoff, billionth]) hroom
  have hback : d = rate.value * d / rate.value := (mul_div_cancel_left₀ d hrate.ne').symm
  rw [elapsed_eq, elapsed_eq, Nat.cast_one]
  calc |(n : ℚ) / rate.value - d| = |(n : ℚ) - rate.value * d| / rate.value := by
        rw [← abs_of_pos hrate, ← abs_div, abs_of_pos hrate, sub_div, ← hback]
    _ ≤ (billionth + 4 * roundoff) * max (rate.value * d) 1 / rate.value :=
        div_le_div_of_nonneg_right hframes hrate.le
    _ = (billionth + 4 * roundoff) * max d (1 / rate.value) := by
        rw [mul_div_assoc, ← max_div_div_right hrate.le, ← hback]

/-- A rate without a zero is planned, or is refused as an error of the configuration. -/
theorem exists_plan_or_fault (hnum : rate.num ≠ 0) (shifts blinks : Float) :
    (∃ schedule, plan rate duration shifts blinks = .ok schedule) ∨
      ∃ fault, plan rate duration shifts blinks = .error (.config fault) := by
  cases hplan : plan rate duration shifts blinks with
  | ok schedule => exact .inl ⟨schedule, rfl⟩
  | error e =>
    rcases plan_eq_error hplan with ⟨fault, -, rfl⟩ | ⟨-, hnone⟩
    · exact .inr ⟨fault, rfl⟩
    · exact absurd (congrArg FrameRate.num hnone) hnum

/-- What a schedule says of its product. -/
theorem near_of_plan {schedule : Schedule} (hnum : rate.num ≠ 0)
    (hd : HasValue duration d) (hpos : 0 < d)
    (h : plan rate duration shifts blinks = .ok schedule) :
    ∃ x, HasValue (rate.value * duration) x ∧ 1 / 2 ≤ x ∧
      Near ((1 + 4 * roundoff) * billionth) x schedule.frameCount.toNat := by
  obtain ⟨-, -, -, count, delay, hcount, -, rfl⟩ := plan_eq_ok_iff.mp h
  obtain ⟨p, hp, rfl⟩ := hd
  have hmantissa : p.mantissa ≠ 0 := fun hzero => hpos.ne' (Parts.value_of_zero hzero)
  have hrate : rate ≠ .none := fun hnone => hnum (congrArg FrameRate.num hnone)
  obtain ⟨q, hq, -⟩ := countFrames_eq_ok (isNaN_product hrate hp hmantissa) hcount
  exact ⟨q.value, ⟨q, hq, rfl⟩, near_of_countFrames ⟨q, hq, rfl⟩ hcount⟩

/-- **A schedule keeps its duration.** At every rate without a zero, and for every duration above
zero, there is a schedule only where rate times duration, as a double, is next to the number of
frames: up to a few roundings within a billionth of the product, or of one frame where the product
is below one. Its frames then take the duration up to a billionth of it or of the time of one
frame, and the roundings of the product. Every other product is refused as an error of the
configuration, and so is each that is half a frame from a whole number, where it is below half a
billion frames. Below that, every product within the room is planned, if the rate has a delay, and
the turns and cycles are finite. -/
theorem plan_keeps_duration (rate : FrameRate) (duration shifts blinks : Float) (d : ℚ)
    (hnum : rate.num ≠ 0) (hden : rate.den ≠ 0) (hd : HasValue duration d) (hpos : 0 < d) :
    (∀ schedule, plan rate duration shifts blinks = .ok schedule →
      (∃ x, HasValue (rate.value * duration) x ∧
        |x - schedule.frameCount.toNat| ≤ (1 + 4 * roundoff) * billionth * max x 1) ∧
      |(rate.elapsed schedule.frameCount.toNat : ℚ) - d| ≤
        (billionth + 4 * roundoff) * max d (rate.elapsed 1)) ∧
    ((¬ ∃ x, HasValue (rate.value * duration) x ∧
        ∃ n : ℕ, |x - n| ≤ (1 + 4 * roundoff) * billionth * max x 1) →
      ∃ fault, plan rate duration shifts blinks = .error (.config fault)) ∧
    (∀ k : ℕ, HasValue (rate.value * duration) (k + 1 / 2) → k < 500000000 →
      ∃ fault, plan rate duration shifts blinks = .error (.config fault)) ∧
    ∀ (x : ℚ) (n : ℕ) (delay : FrameDelay), HasValue (rate.value * duration) x → x < 500000000 →
      1 ≤ n → |x - n| ≤ billionth * max x 1 → shifts.isFinite = true → blinks.isFinite = true →
      rate.delay = .ok delay →
      plan rate duration shifts blinks =
        .ok ⟨rate, duration, shifts, blinks, UInt64.ofNat n, delay⟩ := by
  have hrefused : (¬ ∃ x, HasValue (rate.value * duration) x ∧
      ∃ n : ℕ, Near ((1 + 4 * roundoff) * billionth) x n) →
      ∃ fault, plan rate duration shifts blinks = .error (.config fault) := by
    intro hnot
    refine (exists_plan_or_fault hnum shifts blinks).resolve_left ?_
    rintro ⟨schedule, hplan⟩
    obtain ⟨x, hx, -, hnear⟩ := near_of_plan hnum hd hpos hplan
    exact hnot ⟨x, hx, _, hnear⟩
  refine ⟨fun schedule hplan => ?_, hrefused, fun k hk hlt => hrefused ?_, ?_⟩
  · obtain ⟨x, hx, hhalf, hnear⟩ := near_of_plan hnum hd hpos hplan
    exact ⟨⟨x, hx, hnear⟩, abs_elapsed_sub_le hnum hden hd hpos hx hhalf hnear⟩
  · rintro ⟨x, hx, n, hnear⟩
    rw [hx.unique hk] at hnear
    exact not_near_half hlt n hnear
  · intro x n delay hx hlt hn hnear hshifts hblinks hdelay
    have hcount := countFrames_of_near hx hn (by linarith) hnear
    have hallowed : (!duration.isFinite || decide (duration ≤ 0.0)) = false := by
      have hnotzero : ¬ duration ≤ 0.0 := mt (hd.le_iff hasValue_zero).mp (not_le.mpr hpos)
      simp [hd.isFinite, hnotzero]
    exact plan_eq_ok_iff.mpr ⟨hallowed, hshifts, hblinks, _, delay, hcount, hdelay, rfl⟩

end Plans

/-- Film speed for 3003 thousandths of a second: the product is a little above 72 frames. One frame
a second for two and a half seconds is refused. -/
theorem plan_keeps_duration_film_speed :
    ∃ d, (((24000 : UInt32) ≠ 0 ∧ (1001 : UInt32) ≠ 0) ∧ HasValue 3.003 d ∧ 0 < d) ∧
      plan ⟨24000, 1001⟩ 3.003 1.0 0.0 =
        .ok ⟨⟨24000, 1001⟩, 3.003, 1.0, 0.0, 72, ⟨1001, 24000⟩⟩ ∧
      |(FrameRate.elapsed ⟨24000, 1001⟩ 72 : ℚ) - d| ≤
        (billionth + 4 * roundoff) * max d (FrameRate.elapsed ⟨24000, 1001⟩ 1) ∧
      ∃ fault, plan ⟨1, 1⟩ 2.5 1.0 0.0 = .error (.config fault) := by
  have hd : HasValue 3.003 (6762154840496800 * 2 ^ (-51 : Int)) :=
    ⟨⟨false, 6762154840496800, -51⟩, by decide +kernel, rfl⟩
  have hproduct : HasValue ((FrameRate.value ⟨24000, 1001⟩ : Float) * 3.003)
      (5066549580791809 * 2 ^ (-46 : Int)) :=
    ⟨⟨false, 5066549580791809, -46⟩, by decide +kernel, rfl⟩
  have hnear : |5066549580791809 * 2 ^ (-46 : Int) - ((72 : ℕ) : ℚ)| ≤
      billionth * max (5066549580791809 * 2 ^ (-46 : Int)) 1 := by
    rw [max_eq_left (by norm_num), abs_of_nonneg (by norm_num)]
    norm_num [billionth]
  have hdelay : FrameRate.delay ⟨24000, 1001⟩ = .ok ⟨1001, 24000⟩ := by
    simp [FrameRate.delay, FrameRate.narrow?]
  have hpos : (0 : ℚ) < 6762154840496800 * 2 ^ (-51 : Int) := by norm_num
  obtain ⟨hkeeps, -, -, hplans⟩ :=
    plan_keeps_duration ⟨24000, 1001⟩ 3.003 1.0 0.0 _ (by decide) (by decide) hd hpos
  have hplan := hplans _ 72 _ hproduct (by norm_num) (by decide) hnear (by decide) (by decide)
    hdelay
  have hshort : HasValue 2.5 (5 / 2) := by
    refine ⟨⟨false, 5 * 2 ^ 50, -51⟩, by decide +kernel, ?_⟩
    norm_num [Parts.value, Parts.magnitude, scaled]
  have hhalf : HasValue ((FrameRate.value ⟨1, 1⟩ : Float) * 2.5) ((2 : ℕ) + 1 / 2) := by
    refine ⟨⟨false, 5 * 2 ^ 50, -51⟩, by decide +kernel, ?_⟩
    norm_num [Parts.value, Parts.magnitude, scaled]
  obtain ⟨-, -, hrefused, -⟩ :=
    plan_keeps_duration ⟨1, 1⟩ 2.5 1.0 0.0 _ (by decide) (by decide) hshort (by norm_num)
  exact ⟨_, ⟨⟨by decide, by decide⟩, hd, hpos⟩, hplan, (hkeeps _ hplan).2,
    hrefused 2 hhalf (by decide)⟩

/-- The room grows with the product. Of a hundred frames it is more than a billionth of one, and of
half a billion frames it is half a frame. -/
theorem plan_accepts_half_a_frame :
    (∃ schedule x, plan ⟨1, 1⟩ 100.00000005 1.0 0.0 = .ok schedule ∧
      schedule.frameCount.toNat = 100 ∧
      HasValue ((FrameRate.value ⟨1, 1⟩ : Float) * 100.00000005) x ∧ 1 / 10 ^ 9 < |x - 100|) ∧
    ∃ schedule, plan ⟨1, 1⟩ 500000000.5 1.0 0.0 = .ok schedule ∧
      schedule.frameCount.toNat = 500000001 ∧
      HasValue ((FrameRate.value ⟨1, 1⟩ : Float) * 500000000.5) (500000000 + 1 / 2) := by
  have hdelay : FrameRate.delay ⟨1, 1⟩ = .ok ⟨1, 1⟩ := by
    simp [FrameRate.delay, FrameRate.narrow?]
  have hhundred : countFrames ⟨1, 1⟩ 100.00000005 = .ok (100.0 : Float).toUInt64 :=
    countFrames_of_round 100.00000005 (by decide +kernel) (by decide +kernel)
      (by decide +kernel) (by decide) (by decide)
  have hmillions : countFrames ⟨1, 1⟩ 500000000.5 = .ok (500000001.0 : Float).toUInt64 :=
    countFrames_of_round 500000000.5 (by decide +kernel) (by decide +kernel)
      (by decide +kernel) (by decide) (by decide)
  refine ⟨⟨_, 7036874421284837 * 2 ^ (-46 : Int), plan_eq_ok_iff.mpr ⟨by decide, by decide,
    by decide, _, _, hhundred, hdelay, rfl⟩, by decide +kernel, ?_, ?_⟩, _, plan_eq_ok_iff.mpr
    ⟨by decide, by decide, by decide, _, _, hmillions, hdelay, rfl⟩, by decide +kernel, ?_⟩
  · exact ⟨⟨false, 7036874421284837, -46⟩, by decide +kernel, rfl⟩
  · rw [abs_of_nonneg (by norm_num)]
    norm_num
  · refine ⟨⟨false, 8388608008388608, -24⟩, by decide +kernel, ?_⟩
    norm_num [Parts.value, Parts.magnitude, scaled]

end Schedule

end HueCycle
