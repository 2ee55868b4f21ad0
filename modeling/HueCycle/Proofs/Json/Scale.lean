/-
HueCycle.Proofs.Json.Scale — the double that a JSON reader makes of a
significand and a power of ten.

The reader rounds the significand, takes the power of ten from its nearest
double and multiplies or divides them, so it rounds up to three times, and
twice more where the power of ten is so small that it is divided off in two
steps. `scale_spec` bounds what comes together that way;
`scale_exact` says when only one rounding is left.
-/
import Mathlib
import HueCycle.Json.Number
import HueCycle.Proofs.Numeric.Errors
import HueCycle.Proofs.Decimal.Shortest

namespace HueCycle.Json

open Binary64 Float.Model Float.Model.UnpackedFloat

/-! ## §1 Powers of ten -/

/-- Up to the exponent 22 powers of ten are doubles. -/
theorem parts_powerOfTen_table : ∀ k < 23, (parts (powerOfTen k)).any fun p =>
    !p.negative && p.mantissa * 2 ^ p.exponent.toNat == 10 ^ k * 2 ^ (-p.exponent).toNat := by
  decide +kernel

theorem parts_powerOfTen {k : Nat} (hk : k < 23) :
    ∃ p, parts (powerOfTen k) = some p ∧ p.negative = false ∧ p.magnitude = 10 ^ k := by
  have hcheck := parts_powerOfTen_table k hk
  rw [Option.any_eq_true] at hcheck
  obtain ⟨p, hp, hcheck⟩ := hcheck
  rw [Bool.and_eq_true, Bool.not_eq_true', beq_iff_eq] at hcheck
  refine ⟨p, hp, hcheck.1, ?_⟩
  have hvalue : (p.mantissa : ℚ) * 2 ^ p.exponent.toNat = 10 ^ k * 2 ^ (-p.exponent).toNat := by
    exact_mod_cast hcheck.2
  have hsplit : (2 : ℚ) ^ p.exponent * 2 ^ (-p.exponent).toNat = 2 ^ p.exponent.toNat := by
    rw [← zpow_natCast, ← zpow_natCast, ← two_zpow_add]
    congr 1
    omega
  refine mul_right_cancel₀ (pow_ne_zero (-p.exponent).toNat (two_ne_zero (α := ℚ))) ?_
  rw [Parts.magnitude, scaled, mul_assoc, hsplit, hvalue]

/-- **The doubles of powers of ten** are the nearest ones. -/
theorem nearest_powerOfTen {k : Nat} (hk : k ≤ 308) :
    Nearest false (10 ^ k) (powerOfTen k) := by
  rcases Nat.lt_or_ge k 23 with hsmall | hlarge
  · obtain ⟨p, hp, hpositive, hvalue⟩ := parts_powerOfTen hsmall
    have := nearest_self hp
    rwa [hpositive, hvalue] at this
  · have hslow : powerOfTen k = Float.ofModel (Float.Model.ofScientific 1 (Int.ofNat k)) :=
      dif_neg (by omega)
    have hproduct : UnpackedFloat.ofScientific Format.binary64 1 (Int.ofNat k) =
        roundWithAccuracy Format.binary64 .positive ((1 <<< 53) * 10 ^ k) (-53 + 0) .exact := by
      rw [UnpackedFloat.ofScientific, dif_neg (by decide), if_neg (by
        show ¬ (k : Int) > 2 ^ 11
        omega), if_neg (by
        show ¬ (k : Int) < -(2 ^ 11 + (Nat.log2 1 : Int))
        omega), if_pos (show 0 ≤ Int.ofNat k from Int.natCast_nonneg k)]
      rfl
    show Rounds _ _ (powerOfTen k).toModel.unpack
    rw [hslow]
    refine Rounds.packed ?_
    rw [hproduct]
    have hvalue : scaled ((1 <<< 53) * 10 ^ k) (-53 + 0) = 10 ^ k := by
      rw [scaled]
      push_cast
      norm_num
      ring
    rw [← hvalue]
    refine rounds_exact _ (.inl ?_)
    have := Nat.pow_pos (n := k) (by decide : 0 < 10)
    calc 2 ^ 52 ≤ (1 <<< 53) * 1 := by decide
      _ ≤ (1 <<< 53) * 10 ^ k := Nat.mul_le_mul_left _ this

/-- Differences of powers of two are whole numbers. -/
theorem two_zpow_sub {a b : Nat} (h : b ≤ a) :
    (2 : ℚ) ^ (a : Int) - 2 ^ (b : Int) = ((2 ^ a - 2 ^ b : Nat) : ℚ) := by
  rw [Nat.cast_sub (Nat.pow_le_pow_right Nat.two_pos h), Nat.cast_pow, Nat.cast_pow, zpow_natCast,
    zpow_natCast, Nat.cast_ofNat]

theorem natCast_lt_overflow {n k : Nat} (hk : k ≤ 308) (h : n ≤ 10 ^ k) : (n : ℚ) < overflow := by
  have hoverflow := two_zpow_sub (show 970 ≤ 1024 by decide)
  change overflow = _ at hoverflow
  rw [hoverflow, Nat.cast_lt]
  exact (h.trans (Nat.pow_le_pow_right (by decide) hk)).trans_lt (by decide +kernel)

/-- A positive double that differs from an exact number by at most the part `a` of it. -/
def Approximates (a : ℚ) (x : Float) (r : ℚ) : Prop :=
  ∃ p, parts x = some p ∧ p.negative = false ∧ Close a p.magnitude r

theorem approximates_of_nearest {r : ℚ} {x : Float} (h : Nearest false r x)
    (hlow : 2 ^ (-1022 : Int) ≤ r) (hhigh : r < overflow) : Approximates roundoff x r := by
  obtain ⟨p, hp, hpositive, -⟩ := h.finite hhigh
  exact ⟨p, hp, hpositive, h.close hp hlow⟩

/-- A power of two with a negative exponent is at most one. -/
theorem two_zpow_le_one {e : Int} (he : e ≤ 0) : (2 : ℚ) ^ e ≤ 1 := by
  simpa using zpow_le_zpow_right₀ (by norm_num : (1 : ℚ) ≤ 2) he

theorem approximates_powerOfTen {k : Nat} (hk : k ≤ 308) :
    Approximates roundoff (powerOfTen k) (10 ^ k) := by
  refine approximates_of_nearest (nearest_powerOfTen hk) ?_ ?_
  · exact (two_zpow_le_one (by norm_num)).trans (one_le_pow₀ (by norm_num))
  · have hbelow := natCast_lt_overflow hk (le_refl _)
    rwa [Nat.cast_pow, Nat.cast_ofNat] at hbelow

theorem approximates_toFloat {n : Nat} (hpos : 0 < n) (hlt : n < 2 ^ 64) :
    Approximates roundoff n.toUInt64.toFloat n := by
  have hnat : n.toUInt64.toNat = n := UInt64.toNat_ofNat_of_lt' hlt
  have hnearest := nearest_toFloat n.toUInt64
  rw [hnat] at hnearest
  refine approximates_of_nearest hnearest ?_ ?_
  · exact (two_zpow_le_one (by norm_num)).trans (by exact_mod_cast hpos)
  · exact natCast_lt_overflow (by decide : 20 ≤ 308) (hlt.le.trans (by decide))

/-! ## §2 The last rounding -/

/-- Half of the least double. -/
def half : ℚ := 2 ^ (-1075 : Int)

theorem roundoff_eq : roundoff = 1 / 9007199254740992 := by
  norm_num [roundoff]

theorem roundoff_lt_one : roundoff < 1 := by
  rw [roundoff_eq]
  norm_num

/-- **What comes together** when four roundings have taken place before the last one, and a last
place of the least doubles was lost in between. -/
theorem abs_sub_le_of_last {r z : ℚ} {x : Float} {p : Parts} (h : Nearest false z x)
    (hp : parts x = some p) (hz0 : 0 ≤ z) (hz : |z - r| ≤ 81 / 20 * (r * roundoff) + half / 8) :
    |p.magnitude - r| ≤ max (26 / 5 * (r * roundoff)) (6 * half) := by
  have hlast := h.error hz0 hp
  have hhalf : 0 < half := two_zpow_pos _
  change _ ≤ max (z * roundoff) half at hlast
  have hsum : |p.magnitude - r| ≤ |p.magnitude - z| + |z - r| := abs_sub_le _ _ _
  obtain ⟨hzLow, hzHigh⟩ := abs_le.mp hz
  rw [roundoff_eq] at *
  rcases le_total half (z * (1 / 9007199254740992)) with hnormal | hfinest
  · rw [max_eq_left hnormal] at hlast
    exact le_max_of_le_left (by linarith)
  · rw [max_eq_right hfinest] at hlast
    exact le_max_of_le_right (by linarith)

/-! ## §3 What the reader computes -/

/-- A finite double is not infinite, and it is compared with zero by its mantissa. -/
theorem isInf_of_parts {x : Float} {p : Parts} (h : parts x = some p) : x.isInf = false := by
  show x.toModel.unpack.isInf = false
  rw [unpack_of_parts h, Parts.unpacked]
  split <;> rfl

theorem beq_zero_of_parts {x : Float} {p : Parts} (h : parts x = some p) (hp : p.magnitude ≠ 0) :
    (x == 0.0) = false := by
  have hzero : parts 0.0 = some ⟨false, 0, -1074⟩ := rfl
  show (x.toModel.unpack.compare (0.0 : Float).toModel.unpack == some .eq) = false
  rw [compare_of_parts h hzero, Parts.value_of_zero (p := ⟨false, 0, -1074⟩) rfl]
  have hvalue : p.value ≠ 0 := by
    rw [Parts.value]
    split
    · exact neg_ne_zero.mpr hp
    · exact hp
  have hne : compare p.value 0 ≠ .eq := fun heq => hvalue (compare_eq_iff_eq.mp heq)
  simpa using hne

section Branches

variable {significand : Nat} {e : Int} {p : Parts}

/-- Exponents in reach are left alone. -/
theorem scale_eq_of_reach (hp : parts significand.toUInt64.toFloat = some p)
    (hne : p.magnitude ≠ 0) (hlow : -308 ≤ e) :
    scale significand e =
      if 308 < e then .error .numberOutOfRange
      else if 0 ≤ e then
        if (significand.toUInt64.toFloat * powerOfTen e.toNat).isInf then
          .error .numberOutOfRange
        else .ok (significand.toUInt64.toFloat * powerOfTen e.toNat)
      else .ok (significand.toUInt64.toFloat / powerOfTen (-e).toNat) := by
  have hlift : lift 4 significand.toUInt64.toFloat e = (significand.toUInt64.toFloat, e) := by
    rw [lift, if_neg (by omega)]
  rw [scale, hlift]
  dsimp only
  rw [beq_zero_of_parts hp hne]
  rfl

/-- Smaller exponents are brought into reach by one division. -/
theorem scale_eq_of_low (hp : parts significand.toUInt64.toFloat = some p)
    (hne : p.magnitude ≠ 0) {g : Parts}
    (hg : parts (significand.toUInt64.toFloat / powerOfTen 308) = some g) (hne' : g.magnitude ≠ 0)
    (hlow : -616 ≤ e) (hhigh : e < -308) :
    scale significand e = .ok (significand.toUInt64.toFloat / powerOfTen 308 /
      powerOfTen (-(e + 308)).toNat) := by
  have hlift : lift 4 significand.toUInt64.toFloat e =
      (significand.toUInt64.toFloat / powerOfTen 308, e + 308) := by
    rw [lift, if_pos ⟨hhigh, by rw [beq_zero_of_parts hp hne]; rfl⟩, lift, if_neg (by omega)]
  rw [scale, hlift]
  dsimp only
  rw [beq_zero_of_parts hg hne', if_neg (by simp), if_neg (by omega), if_neg (by omega)]

end Branches

/-! ## §4 Errors -/

/-- A double made of a number by a reader that rounds a few times. -/
def ReadsNear (r : ℚ) (x : Float) : Prop :=
  ∃ p, parts x = some p ∧ p.negative = false ∧
    |p.magnitude - r| ≤ max (26 / 5 * (r * roundoff)) (6 * half)

theorem readsNear_of_last {r z : ℚ} {x : Float} (h : Nearest false z x) (hz0 : 0 ≤ z)
    (hz : |z - r| ≤ 81 / 20 * (r * roundoff) + half / 8) (hfinite : z < overflow) :
    ReadsNear r x := by
  obtain ⟨p, hp, hpositive, -⟩ := h.finite hfinite
  exact ⟨p, hp, hpositive, abs_sub_le_of_last h hp hz0 hz⟩

theorem half_pos : 0 < half := two_zpow_pos _

section Errors

variable {significand : Nat} {e : Int}

/-- A significand times a power of ten, as long as the product is in range. -/
theorem readsNear_mul (hpos : 0 < significand) (hdigits : significand ≤ 10 ^ 17) {k : Nat}
    (hk : k ≤ 308)
    (hfinite : ∀ p q, parts significand.toUInt64.toFloat = some p → parts (powerOfTen k) = some q →
      p.magnitude * q.magnitude < overflow) :
    ReadsNear (significand * 10 ^ k) (significand.toUInt64.toFloat * powerOfTen k) := by
  obtain ⟨p, hp, hp0, hpclose⟩ := approximates_toFloat hpos (hdigits.trans_lt (by decide))
  obtain ⟨q, hq, hq0, hqclose⟩ := approximates_powerOfTen hk
  have hr : (0 : ℚ) ≤ significand * 10 ^ k := by positivity
  have hproduct := hpclose.mul hqclose (by positivity) (by positivity)
  have hnearest := nearest_mul hp hq
  rw [hp0, hq0] at hnearest
  refine readsNear_of_last hnearest (mul_nonneg p.magnitude_nonneg q.magnitude_nonneg) ?_
    (hfinite p q hp hq)
  refine hproduct.trans ?_
  have hhalf := half_pos
  rw [roundoff_eq]
  linarith

/-- The exact quotient of the doubles of a significand and of a power of ten. -/
theorem exists_quotient (hpos : 0 < significand) (hdigits : significand ≤ 10 ^ 17) {k : Nat}
    (hk : k ≤ 308) :
    ∃ z, Nearest false z (significand.toUInt64.toFloat / powerOfTen k) ∧
      Close (2001 / 1000 * roundoff) z (significand / 10 ^ k) ∧ 0 ≤ z ∧ z < overflow := by
  obtain ⟨p, hp, hp0, hpclose⟩ := approximates_toFloat hpos (hdigits.trans_lt (by decide))
  obtain ⟨q, hq, hq0, hqclose⟩ := approximates_powerOfTen hk
  have hpower : (0 : ℚ) < 10 ^ k := by positivity
  have hqpos : 0 < q.magnitude := hqclose.pos roundoff_lt_one hpower
  have hr : (0 : ℚ) ≤ significand / 10 ^ k := by positivity
  have hnearest := nearest_div hp hq fun hzero => hqpos.ne' (magnitude_of_zero hzero)
  rw [hp0, hq0] at hnearest
  have hquotient := (hpclose.div hqclose (by positivity) hpower roundoff_lt_one).mono
    (b := 2001 / 1000 * roundoff) hr (by
      rw [roundoff_eq]
      norm_num)
  refine ⟨_, hnearest, hquotient, div_nonneg p.magnitude_nonneg hqpos.le, ?_⟩
  have hsmall : (significand : ℚ) / 10 ^ k ≤ 10 ^ 17 := by
    rw [div_le_iff₀ hpower]
    calc (significand : ℚ) ≤ 10 ^ 17 := by exact_mod_cast hdigits
      _ ≤ 10 ^ 17 * 10 ^ k := le_mul_of_one_le_right (by norm_num) (one_le_pow₀ (by norm_num))
  have hle := hquotient.le
  have hroom := natCast_lt_overflow (by decide : 18 ≤ 308) (le_refl _)
  rw [roundoff_eq] at hle
  norm_num at hle hroom hsmall
  linarith

/-- A significand divided by a power of ten. -/
theorem readsNear_div (hpos : 0 < significand) (hdigits : significand ≤ 10 ^ 17) {k : Nat}
    (hk : k ≤ 308) :
    ReadsNear (significand / 10 ^ k) (significand.toUInt64.toFloat / powerOfTen k) := by
  obtain ⟨z, hnearest, hclose, hz0, hfinite⟩ := exists_quotient hpos hdigits hk
  refine readsNear_of_last hnearest hz0 (hclose.trans ?_) hfinite
  have hhalf := half_pos
  have hr : (0 : ℚ) ≤ significand / 10 ^ k := by positivity
  have := mul_nonneg hr roundoff_pos.le
  linarith

/-- Far more than the least double is left of a significand that is divided by `10 ^ 308`. -/
theorem half_le_quotient (hpos : 0 < significand) : 8 * half ≤ significand / 10 ^ 308 := by
  have hpowers : (2 : ℚ) ^ (-1072 : Int) ≤ 10 ^ (-308 : Int) := by
    exact_mod_cast (Decimal.zpow_le_zpow_iff (x := 2) (y := 10) (by decide) (by decide)).mpr
      (by decide +kernel)
  have hone : (1 : ℚ) ≤ significand := by exact_mod_cast hpos
  calc 8 * half = 2 ^ (-1072 : Int) := by
        rw [half, show (-1072 : Int) = 3 + -1075 by norm_num, two_zpow_add]
        norm_num
    _ ≤ 10 ^ (-308 : Int) := hpowers
    _ ≤ significand * 10 ^ (-308 : Int) := le_mul_of_one_le_left (Decimal.ten_zpow_pos _).le hone
    _ = significand / 10 ^ 308 := by
      rw [zpow_neg, div_eq_mul_inv]
      norm_cast

/-- The first of two divisions. -/
theorem exists_lifted (hpos : 0 < significand) (hdigits : significand ≤ 10 ^ 17) :
    ∃ g, parts (significand.toUInt64.toFloat / powerOfTen 308) = some g ∧ g.negative = false ∧
      0 < g.magnitude ∧ |g.magnitude - significand / 10 ^ 308| ≤
        3002 / 1000 * (significand / 10 ^ 308 * roundoff) + half := by
  obtain ⟨z, hnearest, hclose, hz0, hfinite⟩ := exists_quotient hpos hdigits (le_refl 308)
  obtain ⟨g, hg, hg0, -⟩ := hnearest.finite hfinite
  have hleast := half_le_quotient hpos
  have hhalf := half_pos
  generalize (significand : ℚ) / 10 ^ 308 = r at *
  have hfirst : |g.magnitude - r| ≤ 3002 / 1000 * (r * roundoff) + half := by
    have herror : |g.magnitude - z| ≤ z * roundoff + half :=
      (hnearest.error hz0 hg).trans (max_le_add_of_nonneg
        (mul_nonneg hz0 roundoff_pos.le) hhalf.le)
    have hsum : |g.magnitude - r| ≤ |g.magnitude - z| + |z - r| := abs_sub_le _ _ _
    have hle := hclose.le
    rw [Close] at hclose
    rw [roundoff_eq] at *
    linarith
  refine ⟨g, hg, hg0, ?_, hfirst⟩
  have hlow := (abs_le.mp hfirst).1
  rw [roundoff_eq] at hlow
  linarith

/-- The second division divides what the first one has lost. -/
theorem abs_quotient_sub_le {g q r t : ℚ} (ht : 10 ≤ t) (hr : 0 ≤ r) (hq : Close roundoff q t)
    (hg : |g - r| ≤ 3002 / 1000 * (r * roundoff) + half) :
    |g / q - r / t| ≤ 81 / 20 * (r / t * roundoff) + half / 8 := by
  have ht0 : 0 < t := by linarith
  have hqpos : 0 < q := hq.pos roundoff_lt_one ht0
  have hhalf := half_pos
  have hpart : 0 ≤ r / t * roundoff := mul_nonneg (div_nonneg hr ht0.le) roundoff_pos.le
  have hlow := hq.ge
  have hexact := ((Close.refl r).div hq hr ht0 roundoff_lt_one).mono
    (b := 1001 / 1000 * roundoff) (div_nonneg hr ht0.le) (by
      rw [roundoff_eq]
      norm_num)
  have hlost : half ≤ half / 9 * q := by
    rw [roundoff_eq] at hlow
    have : 9 ≤ q := by linarith
    nlinarith
  have hrelative : 3002 / 1000 * (r * roundoff) ≤ 3004 / 1000 * (r / t * roundoff) * q := by
    calc 3002 / 1000 * (r * roundoff) ≤ 3004 / 1000 * (1 - roundoff) * (r * roundoff) := by
          refine mul_le_mul_of_nonneg_right ?_ (mul_nonneg hr roundoff_pos.le)
          rw [roundoff_eq]
          norm_num
      _ = 3004 / 1000 * (r / t * roundoff) * ((1 - roundoff) * t) := by field_simp
      _ ≤ 3004 / 1000 * (r / t * roundoff) * q :=
        mul_le_mul_of_nonneg_left hlow (mul_nonneg (by norm_num) hpart)
  have hrest : |(g - r) / q| ≤ 3004 / 1000 * (r / t * roundoff) + half / 9 := by
    rw [abs_div, abs_of_pos hqpos, div_le_iff₀ hqpos]
    linarith
  have hsplit : g / q - r / t = (g - r) / q + (r / q - r / t) := by ring
  rw [hsplit]
  refine (abs_add_le _ _).trans ?_
  rw [Close] at hexact
  linarith

/-- A significand divided by `10 ^ 308` and then by another power of ten. -/
theorem readsNear_div_div (hpos : 0 < significand) (hdigits : significand ≤ 10 ^ 17) {k : Nat}
    (hk : k ≤ 308) (hk0 : 0 < k) :
    ReadsNear (significand / 10 ^ 308 / 10 ^ k)
      (significand.toUInt64.toFloat / powerOfTen 308 / powerOfTen k) := by
  obtain ⟨g, hg, hg0, hgpos, hfirst⟩ := exists_lifted hpos hdigits
  obtain ⟨q, hq, hq0, hqclose⟩ := approximates_powerOfTen hk
  have ht : (10 : ℚ) ≤ 10 ^ k := le_self_pow₀ (by norm_num) hk0.ne'
  have hqpos : 0 < q.magnitude := hqclose.pos roundoff_lt_one (by linarith)
  have hr0 : (0 : ℚ) ≤ significand / 10 ^ 308 :=
    div_nonneg (Nat.cast_nonneg _) (pow_nonneg (by norm_num) _)
  have hsecond := nearest_div hg hq fun hzero => hqpos.ne' (magnitude_of_zero hzero)
  rw [hg0, hq0] at hsecond
  refine readsNear_of_last hsecond (div_nonneg hgpos.le hqpos.le)
    (abs_quotient_sub_le ht hr0 hqclose hfirst) ?_
  have hsmall : (significand : ℚ) / 10 ^ 308 ≤ 10 ^ 17 := by
    refine (div_le_self (Nat.cast_nonneg _) (one_le_pow₀ (by norm_num))).trans ?_
    exact_mod_cast hdigits
  have hleast := half_le_quotient hpos
  have hroom := natCast_lt_overflow (by decide : 17 ≤ 308) (le_refl _)
  rw [Nat.cast_pow, Nat.cast_ofNat] at hroom
  generalize (significand : ℚ) / 10 ^ 308 = r at *
  have hgle := (abs_le.mp hfirst).2
  have hqge := hqclose.ge
  have hhalf := half_pos
  refine lt_of_le_of_lt ?_ (hsmall.trans_lt hroom)
  rw [div_le_iff₀ hqpos]
  rw [roundoff_eq] at hgle hqge
  have : 2 ≤ q.magnitude := by linarith
  nlinarith

/-- The upper end of the interval of the second largest double. -/
def nextToLast : Nat := (4 * 2 ^ 53 - 6) * 2 ^ 969

/-- The largest significands for the large powers of ten: their products are finite. -/
theorem finite_table : ∀ j < 18,
    ((min (10 ^ 17) (nextToLast / 10 ^ (291 + j))).toUInt64.toFloat *
      powerOfTen (291 + j)).isFinite = true := by
  decide +kernel

/-- A product that is not above the second largest double's interval does not overflow. -/
theorem product_lt_overflow (hpos : 0 < significand) (hdigits : significand ≤ 10 ^ 17) {k : Nat}
    (hk : k ≤ 308) (htop : significand * 10 ^ k ≤ nextToLast) {p q : Parts}
    (hp : parts significand.toUInt64.toFloat = some p) (hq : parts (powerOfTen k) = some q) :
    p.magnitude * q.magnitude < overflow := by
  have hword {n : Nat} (h : n ≤ 10 ^ 17) : Nearest false n n.toUInt64.toFloat := by
    have hnearest := nearest_toFloat n.toUInt64
    rwa [UInt64.toNat_ofNat_of_lt' (h.trans_lt (by decide))] at hnearest
  rcases Nat.lt_or_ge k 291 with hsmall | hlarge
  · obtain ⟨p', hp', -, hpclose⟩ := approximates_toFloat hpos (hdigits.trans_lt (by decide))
    obtain ⟨q', hq', -, hqclose⟩ := approximates_powerOfTen hk
    obtain rfl := Option.some.inj (hp.symm.trans hp')
    obtain rfl := Option.some.inj (hq.symm.trans hq')
    have hpower : (0 : ℚ) < 10 ^ k := pow_pos (by norm_num) k
    have hp2 : p.magnitude ≤ 2 * 10 ^ 17 := by
      have hword : (significand : ℚ) ≤ 10 ^ 17 := by exact_mod_cast hdigits
      have := hpclose.le
      rw [roundoff_eq] at this
      linarith
    have hq2 : q.magnitude ≤ 2 * 10 ^ k := by
      have := hqclose.le
      rw [roundoff_eq] at this
      linarith
    have hroom := natCast_lt_overflow (show 18 + k ≤ 308 by omega) (le_refl _)
    rw [Nat.cast_pow, Nat.cast_ofNat, pow_add] at hroom
    refine lt_of_le_of_lt ?_ hroom
    calc p.magnitude * q.magnitude ≤ 2 * 10 ^ 17 * (2 * 10 ^ k) :=
          mul_le_mul hp2 hq2 q.magnitude_nonneg (by norm_num)
      _ ≤ 10 ^ 18 * 10 ^ k := by linarith
  · -- the largest significand with this power is checked, and rounding keeps the order
    obtain ⟨j, rfl⟩ : ∃ j, k = 291 + j := ⟨k - 291, by omega⟩
    have hfinite := finite_table j (by omega)
    have hmost : significand ≤ min (10 ^ 17) (nextToLast / 10 ^ (291 + j)) :=
      le_min hdigits ((Nat.le_div_iff_mul_le (Nat.pow_pos (by decide))).mpr htop)
    generalize hlargest : min (10 ^ 17) (nextToLast / 10 ^ (291 + j)) = largest at hfinite hmost
    have hlargest' : largest ≤ 10 ^ 17 := hlargest ▸ min_le_left _ _
    obtain ⟨p', hp', -, -⟩ := approximates_toFloat (hpos.trans_le hmost)
      (hlargest'.trans_lt (by decide))
    rw [← isSome_parts, Option.isSome_iff_exists] at hfinite
    obtain ⟨product, hproduct⟩ := hfinite
    have hle := (hword hdigits).magnitude_mono (hword hlargest') (by exact_mod_cast hmost) hp hp'
    exact (mul_le_mul_of_nonneg_right hle q.magnitude_nonneg).trans_lt
      ((nearest_mul hp' hq).lt_overflow hproduct)

/-- The exponent of a number below `10 ^ 309`. -/
theorem le_of_mul_zpow_le {bound : Nat} (hbound : bound < 10 ^ 309) (hpos : 0 < significand)
    (htop : (significand : ℚ) * 10 ^ e ≤ bound) : e ≤ 308 := by
  have hlarge : (bound : ℚ) < 10 ^ (309 : Int) := by
    have hcast : (bound : ℚ) < ((10 ^ 309 : Nat) : ℚ) := Nat.cast_lt.mpr hbound
    rwa [Nat.cast_pow, Nat.cast_ofNat, ← zpow_natCast] at hcast
  have hone : (1 : ℚ) ≤ significand := by exact_mod_cast hpos
  have hpower : (10 : ℚ) ^ e < 10 ^ (309 : Int) :=
    ((le_mul_of_one_le_left (Decimal.ten_zpow_pos e).le hone).trans htop).trans_lt hlarge
  have := (zpow_lt_zpow_iff_right₀ (by norm_num : (1 : ℚ) < 10)).mp hpower
  omega

/-- **What the reader makes of a significand of at most seventeen digits and a power of ten**: a
finite double near to their product, unless that is next to the overflow. -/
theorem scale_spec (hpos : 0 < significand) (hdigits : significand ≤ 10 ^ 17) (hlow : -616 ≤ e)
    (htop : (significand : ℚ) * 10 ^ e ≤ nextToLast) :
    ∃ x, scale significand e = .ok x ∧ ReadsNear (significand * 10 ^ e) x := by
  obtain ⟨p, hp, -, hpclose⟩ := approximates_toFloat hpos (hdigits.trans_lt (by decide))
  have hppos : 0 < p.magnitude := hpclose.pos roundoff_lt_one (by exact_mod_cast hpos)
  rcases lt_or_ge e (-308) with hsmall | hreach
  · obtain ⟨g, hg, -, hgpos, -⟩ := exists_lifted hpos hdigits
    refine ⟨_, scale_eq_of_low hp hppos.ne' hg hgpos.ne' hlow hsmall, ?_⟩
    obtain ⟨k, rfl⟩ : ∃ k : Nat, e = -((308 + k : Nat) : Int) := ⟨(-(e + 308)).toNat, by omega⟩
    have hsteps : (-(-((308 + k : Nat) : Int) + 308)).toNat = k := by omega
    have hvalue : (significand : ℚ) * 10 ^ (-((308 + k : Nat) : Int)) =
        significand / 10 ^ 308 / 10 ^ k := by
      rw [div_div, ← pow_add, zpow_neg, zpow_natCast, div_eq_mul_inv]
    rw [hvalue, hsteps]
    exact readsNear_div_div hpos hdigits (by omega) (by omega)
  · have hhigh : e ≤ 308 := le_of_mul_zpow_le (by decide +kernel) hpos htop
    rw [scale_eq_of_reach hp hppos.ne' hreach, if_neg (by omega)]
    rcases lt_or_ge e 0 with hnegative | hpositive
    · obtain ⟨k, rfl⟩ : ∃ k : Nat, e = -(k : Int) := ⟨(-e).toNat, by omega⟩
      rw [if_neg (by omega)]
      refine ⟨_, rfl, ?_⟩
      rw [zpow_neg, zpow_natCast, ← div_eq_mul_inv, neg_neg, Int.toNat_natCast]
      exact readsNear_div hpos hdigits (by omega)
    · obtain ⟨k, rfl⟩ : ∃ k : Nat, e = k := ⟨e.toNat, by omega⟩
      rw [if_pos hpositive, Int.toNat_natCast, zpow_natCast]
      rw [zpow_natCast] at htop
      have hnear := readsNear_mul hpos hdigits (k := k) (by omega) fun p q hp hq =>
        product_lt_overflow hpos hdigits (by omega) (by exact_mod_cast htop) hp hq
      obtain ⟨y, hy, -⟩ := id hnear
      rw [isInf_of_parts hy, if_neg (by simp)]
      exact ⟨_, rfl, hnear⟩

end Errors

/-- **A significand below `2 ^ 53` and a power of ten up to the twenty-second** are both doubles,
and the one operation gives the double nearest to what is written. -/
theorem scale_exact {significand : Nat} {e : Int} (hpos : 0 < significand)
    (hlt : significand < 2 ^ 53) (he : e.natAbs ≤ 22) :
    ∃ x, scale significand e = .ok x ∧ Nearest false (significand * 10 ^ e) x := by
  have hnearest := nearest_toFloat significand.toUInt64
  rw [UInt64.toNat_ofNat_of_lt' (hlt.trans (by decide))] at hnearest
  obtain ⟨p, hp, hp0, hpvalue⟩ := hnearest.whole hlt
  obtain ⟨q, hq, hq0, hqvalue⟩ := parts_powerOfTen (k := e.natAbs) (by omega)
  have hppos : p.magnitude ≠ 0 := by
    rw [hpvalue]
    exact_mod_cast hpos.ne'
  rw [scale_eq_of_reach hp hppos (by omega), if_neg (by omega)]
  rcases lt_or_ge e 0 with hnegative | hpositive
  · rw [if_neg (by omega)]
    have hsame : (-e).toNat = e.natAbs := by omega
    have hqne : q.mantissa ≠ 0 := by
      intro hzero
      have := hqvalue.symm.trans (magnitude_of_zero hzero)
      exact absurd this (pow_ne_zero _ (by norm_num))
    have hquotient := nearest_div hp hq hqne
    rw [hp0, hq0, hpvalue, hqvalue] at hquotient
    refine ⟨_, rfl, ?_⟩
    rw [hsame]
    have hvalue : (significand : ℚ) * 10 ^ e = significand / 10 ^ e.natAbs := by
      rw [div_eq_mul_inv, ← zpow_natCast, ← zpow_neg]
      congr 2
      omega
    rwa [hvalue]
  · have hsame : e.toNat = e.natAbs := by omega
    have hproduct := nearest_mul hp hq
    rw [hp0, hq0, hpvalue, hqvalue] at hproduct
    have hroom : (significand : ℚ) * 10 ^ e.natAbs < overflow := by
      have hle : significand * 10 ^ e.natAbs ≤ 10 ^ 16 * 10 ^ 22 :=
        Nat.mul_le_mul (hlt.le.trans (by decide)) (Nat.pow_le_pow_right (by decide) he)
      have := natCast_lt_overflow (by decide : 38 ≤ 308) (hle.trans (by decide))
      exact_mod_cast this
    obtain ⟨y, hy, -⟩ := hproduct.finite hroom
    rw [if_pos hpositive, hsame, isInf_of_parts hy, if_neg (by simp)]
    refine ⟨_, rfl, ?_⟩
    have hvalue : (significand : ℚ) * 10 ^ e = significand * 10 ^ e.natAbs := by
      rw [← zpow_natCast]
      congr 2
      omega
    rwa [hvalue]

end HueCycle.Json
