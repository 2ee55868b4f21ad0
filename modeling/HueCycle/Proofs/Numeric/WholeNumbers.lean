/-
HueCycle.Proofs.Numeric.WholeNumbers — doubles of whole numbers, and the
whole numbers next to a double.

A number on the grid is rounded to itself, so whole numbers below `2 ^ 53`
are doubles, and comparing doubles is comparing the numbers they stand for.
From these follow what the integer operations of the model and of the
language give: `parts_round` and `toNat_toUInt64`.
-/
import Mathlib
import HueCycle.Proofs.Numeric.Values

namespace HueCycle.Binary64

open Float.Model Float.Model.UnpackedFloat
open Decimal (Span)

/-! ## §1 Exact results -/

/-- A number on the grid lies in its own interval. -/
theorem contains_self {m : Nat} {e : Int} (h : OnGrid m e) :
    (Span.around m e).Contains (scaled m e) := by
  have hvalue : scaled m e = scaled (4 * m) (e - 2) := by
    rw [show e = e - 2 + (2 : Nat) by push_cast; ring, scaled_add_nat]
    congr 1
    · ring
    · push_cast
      ring
  have hlow : (Span.around m e).low < 4 * m := by
    have := Span.low_around_le m e
    have := h.pos
    omega
  rw [hvalue, Span.Contains]
  split
  · exact ⟨scaled_le_scaled.mpr hlow.le, scaled_le_scaled.mpr (Nat.le_add_right _ 2)⟩
  · exact ⟨scaled_lt_scaled.mpr hlow, scaled_lt_scaled.mpr (by show 4 * m < 4 * m + 2; omega)⟩

/-- Numbers on the grid are ordered by exponent, then by mantissa. -/
theorem scaled_lt_iff {m n : Nat} {e f : Int} (hm : OnGrid m e) (hn : OnGrid n f) :
    scaled m e < scaled n f ↔ e < f ∨ e = f ∧ m < n := by
  constructor
  · intro hlt
    by_contra hnot
    rcases (show f < e ∨ f = e ∧ n < m ∨ m = n ∧ e = f by omega) with hgt | hgt | ⟨rfl, rfl⟩
    · exact lt_asymm hlt (lt_of_contains hn hm (contains_self hn) (contains_self hm) (.inl hgt))
    · exact lt_asymm hlt (lt_of_contains hn hm (contains_self hn) (contains_self hm) (.inr hgt))
    · exact lt_irrefl _ hlt
  · exact lt_of_contains hm hn (contains_self hm) (contains_self hn)

/-- Everything on the grid of doubles is below the overflow. -/
theorem scaled_lt_overflow {m : Nat} {e : Int} (hm : m < 2 ^ 53) (he : e ≤ 971) :
    scaled m e < overflow := by
  have hpower : (2 : ℚ) ^ e ≤ 2 ^ (971 : Int) := zpow_le_zpow_right₀ (by norm_num) he
  have hmantissa : (m : ℚ) ≤ 2 ^ 53 - 1 := by
    have : (m : ℚ) + 1 ≤ 2 ^ 53 := by exact_mod_cast hm
    linarith
  have hoverflow : overflow = (2 ^ 53 - 1 / 2) * 2 ^ (971 : Int) := by
    rw [overflow, show (1024 : Int) = 54 + 970 by norm_num, show (971 : Int) = 1 + 970 by norm_num,
      two_zpow_add, two_zpow_add]
    generalize (2 : ℚ) ^ (970 : Int) = unit
    norm_num
    ring
  calc scaled m e ≤ (2 ^ 53 - 1) * 2 ^ (971 : Int) :=
        mul_le_mul hmantissa hpower (two_zpow_pos e).le (by norm_num)
    _ < overflow := by
        rw [hoverflow]
        exact mul_lt_mul_of_pos_right (by norm_num) (two_zpow_pos _)

theorem Parts.magnitude_nonneg (p : Parts) : 0 ≤ p.magnitude :=
  mul_nonneg (Nat.cast_nonneg _) (two_zpow_pos _).le

theorem Parts.magnitude_pos {p : Parts} (h : p.mantissa ≠ 0) : 0 < p.magnitude :=
  scaled_pos (Nat.pos_of_ne_zero h) _

/-- A double is the one nearest to what it stands for. -/
theorem nearest_self {x : Float} {p : Parts} (h : parts x = some p) :
    Nearest p.negative p.magnitude x := by
  by_cases hzero : p.mantissa = 0
  · refine Nearest.of_zero h hzero ?_
    rw [magnitude_of_zero hzero]
    exact zero_le_half
  · exact Nearest.of_contains h hzero (contains_self (Parts.onGrid h hzero))

/-- **A number on the grid is rounded to itself.** -/
theorem Nearest.parts_eq {negative : Bool} {m : Nat} {e : Int} {x : Float}
    (h : Nearest negative (scaled m e) x) (hgrid : OnGrid m e) (he : e ≤ 971) :
    parts x = some ⟨negative, m, e⟩ := by
  obtain ⟨⟨s, n, f⟩, hp, rfl, hcases⟩ := h.finite (scaled_lt_overflow hgrid.lt he)
  rcases hcases with ⟨-, hsmall⟩ | ⟨hn, hcontains⟩
  · exact absurd (lt_of_contains_onGrid hgrid (contains_self hgrid)) (not_lt.mpr hsmall)
  · obtain ⟨rfl, rfl⟩ := eq_of_contains (Parts.onGrid hp hn) hgrid hcontains (contains_self hgrid)
    exact hp

/-- **Rounding does not pass a number on the grid.** -/
theorem Nearest.le_onGrid {negative : Bool} {r : ℚ} {x : Float} (h : Nearest negative r x)
    {m : Nat} {e : Int} (hgrid : OnGrid m e) (he : e ≤ 971) (hr : r ≤ scaled m e) :
    ∃ p, parts x = some p ∧ p.negative = negative ∧ p.magnitude ≤ scaled m e := by
  obtain ⟨p, hp, hnegative, hcases⟩ := h.finite (hr.trans_lt (scaled_lt_overflow hgrid.lt he))
  refine ⟨p, hp, hnegative, ?_⟩
  rcases hcases with ⟨hzero, -⟩ | ⟨hne, hcontains⟩
  · rw [magnitude_of_zero hzero]
    exact (scaled_pos hgrid.pos e).le
  · by_contra hgt
    have hless := (scaled_lt_iff hgrid (Parts.onGrid hp hne)).mp (not_le.mp hgt)
    exact absurd (lt_of_contains hgrid (Parts.onGrid hp hne) (contains_self hgrid) hcontains hless)
      (not_lt.mpr hr)

/-- The powers of two that are doubles. -/
theorem exists_onGrid_two_pow {k : Int} (hlow : -1074 ≤ k) (hhigh : k ≤ 1023) :
    ∃ m e, OnGrid m e ∧ e ≤ 971 ∧ scaled m e = 2 ^ k := by
  rcases le_or_gt (-1022) k with hnormal | hsubnormal
  · refine ⟨2 ^ 52, k - 52, ⟨by decide, by decide, by omega, .inl (le_refl _)⟩, by omega, ?_⟩
    rw [scaled, show k = 52 + (k - 52) by ring, two_zpow_add, add_sub_cancel_left]
    norm_num
  · obtain ⟨j, hj⟩ : ∃ j : Nat, k = j + -1074 := ⟨(k + 1074).toNat, by omega⟩
    have hlt : 2 ^ j < 2 ^ 53 := Nat.pow_lt_pow_right (by decide) (by omega)
    refine ⟨2 ^ j, -1074, ⟨Nat.two_pow_pos j, hlt, le_refl _, .inr rfl⟩, by decide, ?_⟩
    rw [scaled, hj, two_zpow_add, zpow_natCast, Nat.cast_pow, Nat.cast_ofNat]

theorem Nearest.le_two_pow {negative : Bool} {r : ℚ} {x : Float} (h : Nearest negative r x)
    {k : Int} (hlow : -1074 ≤ k) (hhigh : k ≤ 1023) (hr : r ≤ 2 ^ k) :
    ∃ p, parts x = some p ∧ p.negative = negative ∧ p.magnitude ≤ 2 ^ k := by
  obtain ⟨m, e, hgrid, he, hvalue⟩ := exists_onGrid_two_pow hlow hhigh
  rw [← hvalue] at hr ⊢
  exact h.le_onGrid hgrid he hr

/-- A whole number of at most 53 bits lies on the grid. -/
theorem exists_onGrid {n : Nat} (hpos : 0 < n) (hlt : n < 2 ^ 53) :
    ∃ m e, OnGrid m e ∧ e ≤ 0 ∧ scaled m e = n := by
  have hlog : n.log2 ≤ 52 := by
    have := (Nat.log2_lt hpos.ne').mpr hlt
    omega
  have hlow : 2 ^ 52 ≤ n * 2 ^ (52 - n.log2) := by
    calc 2 ^ 52 = 2 ^ n.log2 * 2 ^ (52 - n.log2) := by rw [← Nat.pow_add]; congr 1; omega
      _ ≤ n * 2 ^ (52 - n.log2) := Nat.mul_le_mul_right _ (Nat.log2_self_le hpos.ne')
  have hhigh : n * 2 ^ (52 - n.log2) < 2 ^ 53 := by
    calc n * 2 ^ (52 - n.log2) < 2 ^ (n.log2 + 1) * 2 ^ (52 - n.log2) :=
          Nat.mul_lt_mul_of_pos_right Nat.lt_log2_self (Nat.two_pow_pos _)
      _ = 2 ^ 53 := by rw [← Nat.pow_add]; congr 1; omega
  refine ⟨n * 2 ^ (52 - n.log2), -((52 - n.log2 : Nat) : Int),
    ⟨by omega, hhigh, by omega, .inl hlow⟩, by omega, ?_⟩
  rw [← scaled_add_nat, neg_add_cancel, scaled, zpow_zero, mul_one]

/-- **Whole numbers below `2 ^ 53` are doubles.** -/
theorem Nearest.whole {negative : Bool} {n : Nat} {x : Float} (h : Nearest negative n x)
    (hlt : n < 2 ^ 53) :
    ∃ p, parts x = some p ∧ p.negative = negative ∧ p.magnitude = n := by
  rcases Nat.eq_zero_or_pos n with rfl | hpos
  · have hbelow : ((0 : Nat) : ℚ) < overflow := by
      rw [Nat.cast_zero, overflow, sub_pos]
      exact zpow_lt_zpow_right₀ (by norm_num) (by norm_num)
    obtain ⟨p, hp, hnegative, ⟨hzero, -⟩ | ⟨hne, hcontains⟩⟩ := h.finite hbelow
    · exact ⟨p, hp, hnegative, by rw [magnitude_of_zero hzero, Nat.cast_zero]⟩
    · have hless := lt_of_contains_onGrid (Parts.onGrid hp hne) hcontains
      rw [Nat.cast_zero] at hless
      exact absurd hless (not_lt.mpr zero_le_half)
  · obtain ⟨m, e, hgrid, he, hvalue⟩ := exists_onGrid hpos hlt
    rw [← hvalue] at h
    exact ⟨_, h.parts_eq hgrid (by omega), rfl, hvalue⟩

/-! ## §2 Comparisons -/

/-- The number that parts state. -/
def Parts.value (p : Parts) : ℚ := if p.negative then -p.magnitude else p.magnitude

theorem Parts.value_of_zero {p : Parts} (h : p.mantissa = 0) : p.value = 0 := by
  rw [value, magnitude_of_zero h, neg_zero, ite_self]

theorem compare_magnitude {m n : Nat} {e f : Int} (hm : OnGrid m e) (hn : OnGrid n f) :
    (compare e f).then (compare m n) = compare (scaled m e) (scaled n f) := by
  rcases lt_trichotomy e f with hlt | rfl | hgt
  · rw [compare_lt_iff_lt.mpr hlt, compare_lt_iff_lt.mpr ((scaled_lt_iff hm hn).mpr (.inl hlt))]
    rfl
  · rw [compare_eq_iff_eq.mpr rfl]
    rcases lt_trichotomy m n with hlt | rfl | hgt
    · rw [compare_lt_iff_lt.mpr hlt,
        compare_lt_iff_lt.mpr ((scaled_lt_iff hm hn).mpr (.inr ⟨rfl, hlt⟩))]
      rfl
    · rw [compare_eq_iff_eq.mpr rfl, compare_eq_iff_eq.mpr rfl]
      rfl
    · rw [compare_gt_iff_gt.mpr hgt,
        compare_gt_iff_gt.mpr ((scaled_lt_iff hn hm).mpr (.inr ⟨rfl, hgt⟩))]
      rfl
  · rw [compare_gt_iff_gt.mpr hgt, compare_gt_iff_gt.mpr ((scaled_lt_iff hn hm).mpr (.inl hgt))]
    rfl

theorem compare_neg_neg (a b : ℚ) : compare (-a) (-b) = (compare a b).swap := by
  rcases lt_trichotomy a b with h | rfl | h
  · rw [compare_lt_iff_lt.mpr h, compare_gt_iff_gt.mpr (neg_lt_neg h)]
    rfl
  · rw [compare_eq_iff_eq.mpr rfl, compare_eq_iff_eq.mpr rfl]
    rfl
  · rw [compare_gt_iff_gt.mpr h, compare_lt_iff_lt.mpr (neg_lt_neg h)]
    rfl

/-- **Comparing doubles is comparing the numbers they stand for.** -/
theorem compare_of_parts {x y : Float} {p q : Parts} (hx : parts x = some p)
    (hy : parts y = some q) :
    x.toModel.unpack.compare y.toModel.unpack = some (compare p.value q.value) := by
  have hpos {p : Parts} (h : p.mantissa ≠ 0) : 0 < p.magnitude := Parts.magnitude_pos h
  rw [unpack_of_parts hx, unpack_of_parts hy, Parts.unpacked, Parts.unpacked]
  obtain ⟨s, m, e⟩ := p
  obtain ⟨t, n, f⟩ := q
  split
  · rename_i hm
    rw [Parts.value_of_zero hm]
    split
    · rename_i hn
      rw [Parts.value_of_zero hn, compare_eq_iff_eq.mpr rfl]
      rfl
    · rename_i hn
      cases t with
      | true =>
        rw [compare_gt_iff_gt.mpr (show Parts.value ⟨true, n, f⟩ < 0 from neg_lt_zero.mpr (hpos hn))]
        rfl
      | false =>
        rw [compare_lt_iff_lt.mpr (show 0 < Parts.value ⟨false, n, f⟩ from hpos hn)]
        rfl
  · rename_i hm
    split
    · rename_i hn
      rw [Parts.value_of_zero hn]
      cases s with
      | true =>
        rw [compare_lt_iff_lt.mpr (show Parts.value ⟨true, m, e⟩ < 0 from neg_lt_zero.mpr (hpos hm))]
        rfl
      | false =>
        rw [compare_gt_iff_gt.mpr (show 0 < Parts.value ⟨false, m, e⟩ from hpos hm)]
        rfl
    · rename_i hn
      have hsizes := compare_magnitude (Parts.onGrid hx hm) (Parts.onGrid hy hn)
      have hopposite : -Parts.magnitude ⟨true, m, e⟩ < Parts.magnitude ⟨false, n, f⟩ :=
        (neg_lt_zero.mpr (hpos hm)).trans (hpos hn)
      have hopposite' : -Parts.magnitude ⟨true, n, f⟩ < Parts.magnitude ⟨false, m, e⟩ :=
        (neg_lt_zero.mpr (hpos hn)).trans (hpos hm)
      cases s with
      | true =>
        cases t with
        | true => exact congrArg some ((congrArg Ordering.swap hsizes).trans (compare_neg_neg _ _).symm)
        | false => exact congrArg some (compare_lt_iff_lt.mpr hopposite).symm
      | false =>
        cases t with
        | true => exact congrArg some (compare_gt_iff_gt.mpr hopposite').symm
        | false => exact congrArg some hsizes

theorem lt_iff_value {x y : Float} {p q : Parts} (hx : parts x = some p) (hy : parts y = some q) :
    x < y ↔ p.value < q.value := by
  rw [lt_iff, compare_of_parts hx hy, Option.some.injEq, compare_lt_iff_lt]

theorem le_iff_value {x y : Float} {p q : Parts} (hx : parts x = some p) (hy : parts y = some q) :
    x ≤ y ↔ p.value ≤ q.value := by
  rw [le_iff, compare_of_parts hx hy, Option.any_some, Ordering.isLE_iff_ne_gt]
  exact compare_le_iff_le

/-! ## §3 Whole numbers as doubles -/

/-- Negation changes the sign only. -/
theorem parts_neg {x : Float} {p : Parts} (h : parts x = some p) :
    parts (-x) = some { p with negative := !p.negative } := by
  have hcanonical := canonical_of_parts h
  refine parts_of_unpack ⟨hcanonical.lt, hcanonical.low, hcanonical.high, hcanonical.full⟩ ?_
  show (Float.Model.pack x.toModel.unpack.neg).unpack = _
  rw [unpack_of_parts h, Parts.unpacked, Parts.unpacked]
  have hsign : -signOf p.negative = signOf !p.negative := by cases p.negative <;> rfl
  split
  · rw [← hsign]
    exact unpack_pack_zero _
  · rename_i hne
    rw [← hsign]
    exact unpack_pack_onGrid _ (hcanonical.onGrid hne) hcanonical.high

/-- A whole number below `2 ^ 53` with a sign. -/
theorem parts_signed (negative : Bool) {n : Nat} (h : n < 2 ^ 53) :
    ∃ p, parts (signed negative n) = some p ∧ p.negative = negative ∧ p.magnitude = n := by
  have hnat : n.toUInt64.toNat = n := UInt64.toNat_ofNat_of_lt' (by
    have : UInt64.size = 2 ^ 64 := rfl
    omega)
  have hnearest := nearest_toFloat n.toUInt64
  rw [hnat] at hnearest
  obtain ⟨p, hp, hnegative, hmagnitude⟩ := hnearest.whole h
  cases negative with
  | false => exact ⟨p, hp, hnegative, hmagnitude⟩
  | true => exact ⟨_, parts_neg hp, by rw [hnegative]; rfl, hmagnitude⟩

/-- The double of a natural number below `2 ^ 53`. -/
theorem parts_ofNat {n : Nat} (h : n < 2 ^ 53) :
    ∃ p, parts (Float.ofNat n) = some p ∧ p.negative = false ∧ p.magnitude = n := by
  obtain ⟨p, hp, hnegative, hmagnitude⟩ := parts_signed false h
  have hone : parts (Float.ofBits 0x3FF0000000000000) = some ⟨false, 2 ^ 52, -52⟩ := rfl
  have hfast : Float.ofNat n = signed false n * Float.ofBits 0x3FF0000000000000 :=
    dif_pos ⟨h, Nat.zero_le 22⟩
  have hunit : Parts.magnitude ⟨false, 2 ^ 52, -52⟩ = 1 := by
    norm_num [Parts.magnitude, scaled]
  have hproduct := nearest_mul hp hone
  rw [hunit, mul_one, hmagnitude, hnegative] at hproduct
  rw [hfast]
  exact hproduct.whole h

/-! ## §4 Whole numbers next to a double -/

/-- What a double's magnitude is, rounded to a whole number, halves up. -/
theorem floor_magnitude_add_half {m : Nat} {e : Int} (he : e < 0) :
    ⌊scaled m e + 1 / 2⌋₊ = (m + 2 ^ ((-e).toNat - 1)) >>> (-e).toNat := by
  obtain ⟨k, rfl⟩ : ∃ k : Nat, e = -((k + 1 : Nat) : Int) := ⟨(-e).toNat - 1, by omega⟩
  have hshift : (-(-((k + 1 : Nat) : Int))).toNat = k + 1 := by omega
  have hvalue : scaled m (-((k + 1 : Nat) : Int)) + 1 / 2 = ((m + 2 ^ k : Nat) : ℚ) / (2 ^ (k + 1) : Nat) := by
    rw [scaled, zpow_neg, zpow_natCast]
    push_cast
    rw [pow_succ]
    field_simp
  rw [hshift, hvalue, Nat.floor_div_natCast, Nat.floor_natCast, Nat.shiftRight_eq_div_pow]
  rfl

/-- A double without binary places is a whole number. -/
theorem exists_nat_magnitude {p : Parts} (he : 0 ≤ p.exponent) : ∃ n : Nat, p.magnitude = n := by
  obtain ⟨k, hk⟩ : ∃ k : Nat, p.exponent = k := ⟨p.exponent.toNat, by omega⟩
  refine ⟨p.mantissa * 2 ^ k, ?_⟩
  rw [Parts.magnitude, scaled, hk, zpow_natCast]
  push_cast
  rfl

/-- **Rounding to a whole number**: the nearest one to the magnitude, halves up, with the sign. -/
theorem parts_round {x : Float} {p : Parts} (h : parts x = some p) :
    ∃ q, parts (round x) = some q ∧ q.negative = p.negative ∧
      q.magnitude = (⌊p.magnitude + 1 / 2⌋₊ : ℚ) := by
  rw [round, h]
  dsimp only
  by_cases he : 0 ≤ p.exponent
  · obtain ⟨n, hn⟩ := exists_nat_magnitude he
    have hfloor : ⌊(n : ℚ) + 1 / 2⌋₊ = n := by
      rw [add_comm, Nat.floor_add_natCast (by norm_num), Nat.floor_eq_zero.mpr (by norm_num),
        Nat.zero_add]
    rw [if_pos he]
    exact ⟨p, h, rfl, by rw [hn, hfloor]⟩
  · have hcanonical := canonical_of_parts h
    rw [if_neg he, Parts.magnitude, floor_magnitude_add_half (by omega)]
    refine parts_signed p.negative ?_
    rw [Nat.shiftRight_eq_div_pow, Nat.div_lt_iff_lt_mul (Nat.two_pow_pos _)]
    obtain ⟨k, hk⟩ : ∃ k : Nat, (-p.exponent).toNat = k + 1 := ⟨(-p.exponent).toNat - 1, by omega⟩
    have hlt := hcanonical.lt
    have hroom : 2 ^ 53 ≤ 2 ^ 53 * 2 ^ k := Nat.le_mul_of_pos_right _ (Nat.two_pow_pos k)
    have hone : 2 ^ k ≤ 2 ^ 53 * 2 ^ k := Nat.le_mul_of_pos_left _ (by decide)
    rw [hk, Nat.add_sub_cancel]
    show p.mantissa + 2 ^ k < 2 ^ 53 * (2 ^ k * 2)
    omega

/-- The mantissa shifted to units is the integer part. -/
theorem floor_scaled (m : Nat) (e : Int) : ⌊scaled m e⌋₊ = m <<< e.toNat / 2 ^ (-e).toNat := by
  rw [Nat.shiftLeft_eq]
  rcases le_total 0 e with he | he
  · obtain ⟨k, rfl⟩ : ∃ k : Nat, e = k := ⟨e.toNat, by omega⟩
    have hvalue : scaled m k = ((m * 2 ^ k : Nat) : ℚ) := by
      rw [scaled, zpow_natCast]
      push_cast
      rfl
    rw [hvalue, Nat.floor_natCast, Int.toNat_natCast, show (-(k : Int)).toNat = 0 by omega,
      Nat.pow_zero, Nat.div_one]
  · obtain ⟨k, rfl⟩ : ∃ k : Nat, e = -(k : Int) := ⟨(-e).toNat, by omega⟩
    have hvalue : scaled m (-(k : Int)) = (m : ℚ) / (2 ^ k : Nat) := by
      rw [scaled, zpow_neg, zpow_natCast]
      push_cast
      rw [div_eq_mul_inv]
    rw [hvalue, Nat.floor_div_natCast, Nat.floor_natCast, neg_neg, Int.toNat_natCast,
      show (-(k : Int)).toNat = 0 by omega, Nat.pow_zero, Nat.mul_one]

/-- **The integer part of a double that is not negative**, as a 64-bit number. -/
theorem toNat_toUInt64 {x : Float} {p : Parts} (h : parts x = some p)
    (hpositive : p.negative = false) (hlt : p.magnitude < 2 ^ 64) :
    x.toUInt64.toNat = ⌊p.magnitude⌋₊ := by
  have hinteger : x.toModel.unpack.toInt 0 (UInt64.size - 1) = ⌊p.magnitude⌋₊ := by
    rw [unpack_of_parts h, Parts.unpacked, hpositive]
    split
    · rename_i hzero
      rw [magnitude_of_zero hzero, Nat.floor_zero]
      rfl
    · have hshifted : (-(p.exponent - ((p.exponent - 0).toNat : Int)) : Int).toNat =
          (-p.exponent).toNat := by omega
      show (((ExtendedMantissa.ofMantissaAndAccuracy (p.mantissa <<< (p.exponent - 0).toNat) .exact
        >>> (0 - (p.exponent - ((p.exponent - 0).toNat : Int))).toNat).mantissa : Nat) : Int) = _
      rw [mantissa_shiftRight, zero_sub, hshifted, Parts.magnitude, floor_scaled, sub_zero]
      rfl
  have hfloor : ⌊p.magnitude⌋₊ < UInt64.size := by
    rw [Nat.floor_lt p.magnitude_nonneg]
    exact_mod_cast hlt
  show (UInt64.ofNatClamp (x.toModel.unpack.toInt 0 (UInt64.size - 1)).toNat).toNat = _
  rw [hinteger, Int.toNat_natCast, UInt64.toNat_ofNatClamp_of_lt hfloor]

/-! ## §5 Bounds -/

/-- A finite double of at most the magnitude `2 ^ k`. -/
def Bounded (k : Int) (x : Float) : Prop := ∃ p, parts x = some p ∧ p.magnitude ≤ 2 ^ k

theorem Bounded.isFinite {k : Int} {x : Float} (h : Bounded k x) : x.isFinite = true := by
  obtain ⟨p, hp, -⟩ := h
  rw [← isSome_parts, hp]
  rfl

theorem Bounded.mul {j k : Int} {x y : Float} (hx : Bounded j x) (hy : Bounded k y)
    (hlow : -1074 ≤ j + k) (hhigh : j + k ≤ 1023) : Bounded (j + k) (x * y) := by
  obtain ⟨p, hp, hp'⟩ := hx
  obtain ⟨q, hq, hq'⟩ := hy
  have hproduct : p.magnitude * q.magnitude ≤ 2 ^ (j + k) := by
    rw [two_zpow_add]
    exact mul_le_mul hp' hq' q.magnitude_nonneg (two_zpow_pos j).le
  obtain ⟨r, hr, -, hr'⟩ := (nearest_mul hp hq).le_two_pow hlow hhigh hproduct
  exact ⟨r, hr, hr'⟩

/-- The quotient by a double that is not too small. -/
theorem Bounded.div {j k : Int} {x y : Float} {q : Parts} (hx : Bounded j x)
    (hy : parts y = some q) (hq : 2 ^ (-k) ≤ q.magnitude) (hlow : -1074 ≤ j + k)
    (hhigh : j + k ≤ 1023) : Bounded (j + k) (x / y) := by
  obtain ⟨p, hp, hp'⟩ := hx
  have hpos : 0 < q.magnitude := (two_zpow_pos _).trans_le hq
  have hne : q.mantissa ≠ 0 := fun hzero => hpos.ne' (magnitude_of_zero hzero)
  have hquotient : p.magnitude / q.magnitude ≤ 2 ^ (j + k) := by
    rw [div_le_iff₀ hpos]
    calc p.magnitude ≤ 2 ^ (j + k) * 2 ^ (-k) := by rwa [← two_zpow_add, add_neg_cancel_right]
      _ ≤ 2 ^ (j + k) * q.magnitude := mul_le_mul_of_nonneg_left hq (two_zpow_pos _).le
  obtain ⟨r, hr, -, hr'⟩ := (nearest_div hp hy hne).le_two_pow hlow hhigh hquotient
  exact ⟨r, hr, hr'⟩

end HueCycle.Binary64
