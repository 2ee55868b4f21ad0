/-
HueCycle.Proofs.Numeric.Rounding — an operation on doubles gives the double nearest to the
exact result.

Every operation computes a mantissa, an exponent and how far the exact result lies above them,
shifts the mantissa to the grid of doubles and rounds it there. The exact results are rationals
here. The numbers that round to a double form an interval, the one that the shortest numerals
are taken from: `rounds_roundWithAccuracy` says that the rounded result is a double whose
interval holds the exact one, and `eq_of_contains` that there is no other such double. From
these come `rounds_mul`, `rounds_div` and `rounds_round`.
-/
import Mathlib
import HueCycle.Decimal.Shortest
import HueCycle.Proofs.Numeric.Doubles

namespace HueCycle

open Float.Model Float.Model.UnpackedFloat

/-! ## §1 Numbers and intervals -/

namespace Binary64

/-- The number `m · 2 ^ e`. -/
def scaled (m : Nat) (e : Int) : ℚ := m * 2 ^ e

theorem two_zpow_pos (e : Int) : (0 : ℚ) < 2 ^ e := zpow_pos (by norm_num) e

theorem two_zpow_add (e f : Int) : (2 : ℚ) ^ (e + f) = 2 ^ e * 2 ^ f :=
  zpow_add₀ (by norm_num) e f

/-- Going to a finer grid. -/
theorem scaled_add_nat (m : Nat) (e : Int) (n : Nat) : scaled m (e + n) = scaled (m * 2 ^ n) e := by
  simp only [scaled, two_zpow_add, zpow_natCast, Nat.cast_mul, Nat.cast_pow, Nat.cast_ofNat]
  ring

theorem scaled_pos {m : Nat} (hm : 0 < m) (e : Int) : 0 < scaled m e :=
  mul_pos (by exact_mod_cast hm) (two_zpow_pos e)

theorem scaled_le_scaled {m n : Nat} {e : Int} : scaled m e ≤ scaled n e ↔ m ≤ n := by
  rw [scaled, scaled, mul_le_mul_iff_left₀ (two_zpow_pos e), Nat.cast_le]

theorem scaled_lt_scaled {m n : Nat} {e : Int} : scaled m e < scaled n e ↔ m < n := by
  rw [scaled, scaled, mul_lt_mul_iff_left₀ (two_zpow_pos e), Nat.cast_lt]

/-- Mantissa and exponent as a finite double other than zero has them. -/
structure OnGrid (m : Nat) (e : Int) : Prop where
  pos : 0 < m
  lt : m < 2 ^ 53
  low : -1074 ≤ e
  full : 2 ^ 52 ≤ m ∨ e = -1074

end Binary64

namespace Decimal.Span

open Binary64

/-- Whether a number lies in an interval. -/
def Contains (s : Span) (r : ℚ) : Prop :=
  if s.closed then scaled s.low s.unit ≤ r ∧ r ≤ scaled s.high s.unit
  else scaled s.low s.unit < r ∧ r < scaled s.high s.unit

theorem Contains.bounds {s : Span} {r : ℚ} (h : s.Contains r) :
    scaled s.low s.unit ≤ r ∧ r ≤ scaled s.high s.unit := by
  unfold Contains at h
  split at h
  · exact h
  · exact ⟨h.1.le, h.2.le⟩

/-- The ends of the interval of an odd mantissa do not belong to it. -/
theorem Contains.strict {m : Nat} {e : Int} {r : ℚ} (h : (around m e).Contains r)
    (hodd : m % 2 = 1) :
    scaled (around m e).low (e - 2) < r ∧ r < scaled (around m e).high (e - 2) := by
  have hopen : (around m e).closed = false := by simp [around, hodd]
  unfold Contains at h
  rw [hopen] at h
  exact h

theorem low_around_le (m : Nat) (e : Int) : (around m e).low ≤ 4 * m - 1 := by
  unfold around
  dsimp only
  split <;> omega

theorem le_low_around (m : Nat) (e : Int) : 4 * m - 2 ≤ (around m e).low := by
  unfold around
  dsimp only
  split <;> omega

/-- The gap below the least mantissa of an exponent is half as wide. -/
theorem low_around_of_full {e : Int} (he : e ≠ -1074) :
    (around (2 ^ 52) e).low = 4 * 2 ^ 52 - 1 := by
  unfold around
  rw [if_pos ⟨by decide, he⟩]

end Decimal.Span

namespace Binary64

open Decimal (Span)

/-- **The intervals of two doubles lie as the doubles do**, and have no number in common. -/
theorem lt_of_contains {r r' : ℚ} {m n : Nat} {e f : Int} (hm : OnGrid m e) (hn : OnGrid n f)
    (h : (Span.around m e).Contains r) (h' : (Span.around n f).Contains r')
    (hlt : e < f ∨ e = f ∧ m < n) : r < r' := by
  by_contra hle
  have hhigh : r' ≤ scaled (4 * m + 2) (e - 2) := (not_lt.mp hle).trans h.bounds.2
  have hlow : scaled (Span.around n f).low (f - 2) ≤ r' := h'.bounds.1
  rcases hlt with hlt | ⟨rfl, hlt⟩
  · obtain ⟨k, hk⟩ : ∃ k : Nat, f - 2 = (e - 2) + (k + 1 : Nat) :=
      ⟨(f - e - 1).toNat, by omega⟩
    have hfull : 2 ^ 52 ≤ n := hn.full.resolve_right fun hlast => by
      have := hm.low
      omega
    have hleast : 4 * 2 ^ 52 - 1 ≤ (Span.around n f).low := by
      rcases hfull.eq_or_lt with heq | hgt
      · rw [← heq, Span.low_around_of_full (by have := hm.low; omega)]
      · have := Span.le_low_around n f
        omega
    rw [hk, scaled_add_nat] at hlow
    have hends := scaled_le_scaled.mp (hlow.trans hhigh)
    have hdouble : (Span.around n f).low * 2 ≤ (Span.around n f).low * 2 ^ (k + 1) :=
      Nat.mul_le_mul_left _ (by rw [Nat.pow_succ]; have := Nat.two_pow_pos k; omega)
    have hlast := hm.lt
    -- only the largest mantissa reaches the next exponent, and it is odd
    have hodd : m % 2 = 1 := by omega
    have hstrict : r' < scaled (4 * m + 2) (e - 2) := (not_lt.mp hle).trans_lt (h.strict hodd).2
    have := scaled_lt_scaled.mp (hlow.trans_lt hstrict)
    omega
  · have hends := scaled_le_scaled.mp (hlow.trans hhigh)
    have hleast := Span.le_low_around n e
    have hnext : n = m + 1 := by omega
    rcases Nat.mod_two_eq_zero_or_one m with heven | hodd
    · have hstrict := (h'.strict (by omega)).1
      have := scaled_lt_scaled.mp (hstrict.trans_le hhigh)
      omega
    · have hstrict : r' < scaled (4 * m + 2) (e - 2) := (not_lt.mp hle).trans_lt (h.strict hodd).2
      have := scaled_lt_scaled.mp (hlow.trans_lt hstrict)
      omega

theorem eq_of_contains {r : ℚ} {m n : Nat} {e f : Int} (hm : OnGrid m e) (hn : OnGrid n f)
    (h : (Span.around m e).Contains r) (h' : (Span.around n f).Contains r) : m = n ∧ e = f := by
  have hleft := mt (lt_of_contains hm hn h h') (lt_irrefl r)
  have hright := mt (lt_of_contains hn hm h' h) (lt_irrefl r)
  omega

/-! ## §2 Mantissas with residual bits -/

/-- What an extended mantissa says of a number: its whole part, whether the rest reaches a half,
and whether something is left then. -/
def Tracks (em : ExtendedMantissa) (y : ℚ) : Prop :=
  ∃ rest : ℚ, 0 ≤ rest ∧ rest < 1 / 2 ∧ (em.stickyBit = true ↔ 0 < rest) ∧
    y = em.mantissa + (if em.roundBit then 1 / 2 else 0) + rest

theorem tracks_exact (m : Nat) :
    Tracks (ExtendedMantissa.ofMantissaAndAccuracy m .exact) m :=
  ⟨0, le_refl 0, by norm_num, by simp [ExtendedMantissa.ofMantissaAndAccuracy], by
    simp [ExtendedMantissa.ofMantissaAndAccuracy]⟩

/-- A whole number with a proper fraction. -/
theorem tracks_fraction (m : Nat) {num den : Nat} (h : num < den) :
    Tracks (ExtendedMantissa.ofMantissaAndAccuracy m (accuracyOfFraction num den))
      (m + (num / den : ℚ)) := by
  have hden : (0 : ℚ) < den := by exact_mod_cast (Nat.zero_le num).trans_lt h
  unfold accuracyOfFraction
  split
  · rename_i hzero
    simpa [hzero] using tracks_exact m
  · rename_i hne
    have hnum : (0 : ℚ) < num := by exact_mod_cast Nat.pos_of_ne_zero hne
    cases hcompare : compare (2 * num) den with
    | lt =>
      have hless : (2 * num : ℚ) < den := by exact_mod_cast Nat.compare_eq_lt.mp hcompare
      refine ⟨num / den, by positivity, ?_, ?_, by simp [ExtendedMantissa.ofMantissaAndAccuracy]⟩
      · rw [div_lt_div_iff₀ hden (by norm_num)]
        linarith
      · simp only [ExtendedMantissa.ofMantissaAndAccuracy, true_iff]
        positivity
    | eq =>
      have hsame : (2 * num : ℚ) = den := by exact_mod_cast Nat.compare_eq_eq.mp hcompare
      refine ⟨0, le_refl 0, by norm_num, by simp [ExtendedMantissa.ofMantissaAndAccuracy], ?_⟩
      have hhalf : (num / den : ℚ) = 1 / 2 := by
        rw [div_eq_div_iff hden.ne' (by norm_num)]
        linarith
      simp [ExtendedMantissa.ofMantissaAndAccuracy, hhalf]
    | gt =>
      have hmore : (den : ℚ) < 2 * num := by exact_mod_cast Nat.compare_eq_gt.mp hcompare
      have hproper : (num : ℚ) < den := by exact_mod_cast h
      have hhalf : (1 / 2 : ℚ) < num / den := by
        rw [div_lt_div_iff₀ (by norm_num) hden]
        linarith
      have hone : (num / den : ℚ) < 1 := by rwa [div_lt_one hden]
      refine ⟨num / den - 1 / 2, by linarith, by linarith, ?_, ?_⟩
      · simp only [ExtendedMantissa.ofMantissaAndAccuracy, true_iff]
        linarith
      · simp only [ExtendedMantissa.ofMantissaAndAccuracy, if_true]
        ring

/-- One shift halves the number. -/
theorem Tracks.shiftRightOne {em : ExtendedMantissa} {y : ℚ} (h : Tracks em y) :
    Tracks em.shiftRightOne (y / 2) := by
  obtain ⟨q, r, s⟩ := em
  obtain ⟨rest, hlow, hhigh, hsticky, rfl⟩ := h
  have hquotient : (q : ℚ) = 2 * (q / 2 : Nat) + (q % 2 : Nat) := by
    exact_mod_cast (Nat.div_add_mod q 2).symm
  dsimp only at hsticky ⊢
  refine ⟨((if r then 1 / 2 else 0) + rest) / 2, ?_, ?_, ?_, ?_⟩
  · split <;> linarith
  · split <;> linarith
  · cases r with
    | true =>
      simp only [ExtendedMantissa.shiftRightOne, Bool.true_or, if_true, true_iff]
      linarith
    | false =>
      simp only [ExtendedMantissa.shiftRightOne, Bool.false_or, hsticky, Bool.false_eq_true,
        if_false]
      constructor <;> intro hpos <;> linarith
  · simp only [ExtendedMantissa.shiftRightOne]
    rw [hquotient]
    rcases Nat.mod_two_eq_zero_or_one q with heven | hodd
    · simp only [heven, bne_self_eq_false, Bool.false_eq_true, if_false, Nat.cast_zero]
      ring
    · simp only [hodd, show ((1 : Nat) != 0) = true from rfl, if_true, Nat.cast_one]
      ring

theorem Tracks.shiftRight {em : ExtendedMantissa} {y : ℚ} (h : Tracks em y) (n : Nat) :
    Tracks (em >>> n) (y / 2 ^ n) := by
  induction n with
  | zero => simpa [HShiftRight.hShiftRight, Nat.repeat] using h
  | succ n ih =>
    have hstep : em >>> (n + 1) = (em >>> n).shiftRightOne := rfl
    rw [hstep, pow_succ, ← div_div]
    exact ih.shiftRightOne

theorem mantissa_shiftRight (em : ExtendedMantissa) (n : Nat) :
    (em >>> n).mantissa = em.mantissa / 2 ^ n := by
  induction n with
  | zero => simp [HShiftRight.hShiftRight, Nat.repeat]
  | succ n ih =>
    have hstep : em >>> (n + 1) = (em >>> n).shiftRightOne := rfl
    rw [hstep, ExtendedMantissa.shiftRightOne, ih, Nat.div_div_eq_div_mul, Nat.pow_succ]

/-- The rounded mantissa is the nearest whole number, an even one if two are as near. -/
theorem Tracks.rounded {em : ExtendedMantissa} {y : ℚ} (h : Tracks em y) :
    em.mantissa ≤ em.roundedMantissa ∧ em.roundedMantissa ≤ em.mantissa + 1 ∧
      (em.mantissa : ℚ) ≤ y ∧ (em.roundedMantissa : ℚ) - 1 / 2 ≤ y ∧
      y ≤ em.roundedMantissa + 1 / 2 ∧
      (em.roundedMantissa % 2 = 1 →
        (em.roundedMantissa : ℚ) - 1 / 2 < y ∧ y < em.roundedMantissa + 1 / 2) := by
  obtain ⟨q, r, s⟩ := em
  obtain ⟨rest, hlow, hhigh, hsticky, rfl⟩ := h
  dsimp only at hsticky ⊢
  cases r with
  | false =>
    -- below the half the whole part stays
    have hround : (ExtendedMantissa.mk q false s).roundedMantissa = q := by cases s <;> rfl
    simp only [hround, Bool.false_eq_true, if_false, add_zero]
    exact ⟨le_refl q, Nat.le_succ q, by linarith, by linarith, by linarith,
      fun _ => ⟨by linarith, by linarith⟩⟩
  | true =>
    cases s with
    | false =>
      -- a half exactly
      obtain rfl : rest = 0 := by
        refine le_antisymm (not_lt.mp fun hpos => ?_) hlow
        exact absurd (hsticky.mpr hpos) (by simp)
      have hround : (ExtendedMantissa.mk q true false).roundedMantissa = q + q % 2 := rfl
      simp only [hround, if_true, add_zero]
      rcases Nat.mod_two_eq_zero_or_one q with heven | hodd
      · rw [heven, Nat.add_zero]
        exact ⟨le_refl q, Nat.le_succ q, by linarith, by linarith, by linarith,
          fun h => absurd h (by omega)⟩
      · rw [hodd]
        push_cast
        exact ⟨Nat.le_succ q, le_refl _, by linarith, by linarith, by linarith,
          fun h => absurd h (by omega)⟩
    | true =>
      have hpos : 0 < rest := hsticky.mp rfl
      have hround : (ExtendedMantissa.mk q true true).roundedMantissa = q + 1 := rfl
      simp only [hround, if_true]
      push_cast
      exact ⟨Nat.le_succ q, le_refl _, by linarith, by linarith, by linarith,
        fun _ => ⟨by linarith, by linarith⟩⟩

/-! ## §3 Rounding -/

/-- What a number that is not negative may round to, with a sign. -/
def Rounds (s : Sign) (r : ℚ) : UnpackedFloat → Prop
  | .zero t => t = s ∧ r ≤ 2 ^ (-1075 : Int)
  | .finite t m e _ => t = s ∧ OnGrid m e ∧ (Span.around m e).Contains r
  | .infinity t => t = s ∧ 2 ^ (1024 : Int) - 2 ^ (970 : Int) ≤ r
  | .notANumber => False

theorem targetExponent_eq (m : Nat) (e : Int) :
    Format.binary64.targetExponent (totalExponent m e) = max ((m.log2 : Int) + 1 + e - 53) (-1074) :=
  rfl

/-- A mantissa of at most 53 bits stays on its grid. -/
theorem shiftToTargetExponent_small {m : Nat} {e : Int} (hm : m < 2 ^ 53) (he : -1074 ≤ e) :
    shiftToTargetExponent Format.binary64 m e .exact = (⟨m, false, false⟩, e) := by
  have hlog : m.log2 ≤ 52 := by
    rcases Nat.eq_zero_or_pos m with rfl | hpos
    · simp
    · have := (Nat.log2_lt hpos.ne').mpr hm
      omega
  have hstay : (Format.binary64.targetExponent (totalExponent m e) - e).toNat = 0 := by
    rw [targetExponent_eq]
    omega
  rw [shiftToTargetExponent, shiftToExponent]
  simp only [hstay]
  rw [Nat.cast_zero, add_zero]
  rfl

/-- A mantissa that was rounded up to 53 bits more is halved. -/
theorem shiftToTargetExponent_carry {e : Int} (he : -1074 ≤ e) :
    shiftToTargetExponent Format.binary64 (2 ^ 53) e .exact = (⟨2 ^ 52, false, false⟩, e + 1) := by
  have hone : (Format.binary64.targetExponent (totalExponent (2 ^ 53) e) - e).toNat = 1 := by
    rw [targetExponent_eq, Nat.log2_two_pow]
    omega
  rw [shiftToTargetExponent, shiftToExponent]
  simp only [hone]
  rfl

/-- The grid of a number whose whole part in units of `2 ^ e` is `m`: shifted there, `m` has at
most 53 bits, and all of them unless the grid is the finest one. -/
theorem mantissa_on_target {m : Nat} {e : Int}
    (he : e ≤ Format.binary64.targetExponent (totalExponent m e)) :
    ∃ n : Nat, Format.binary64.targetExponent (totalExponent m e) = e + n ∧ -1074 ≤ e + n ∧
      m / 2 ^ n < 2 ^ 53 ∧ (2 ^ 52 ≤ m / 2 ^ n ∨ e + n = -1074) := by
  rw [targetExponent_eq] at he ⊢
  refine ⟨(max ((m.log2 : Int) + 1 + e - 53) (-1074) - e).toNat, by omega, by omega, ?_, ?_⟩
  · rw [Nat.div_lt_iff_lt_mul (Nat.two_pow_pos _), ← Nat.pow_add]
    exact Nat.lt_log2_self.trans_le (Nat.pow_le_pow_right (by decide) (by omega))
  · by_cases hfinest : (m.log2 : Int) + 1 + e - 53 ≤ -1074
    · right
      omega
    · left
      have hm : m ≠ 0 := by
        rintro rfl
        have : (Nat.log2 0 : Int) = 0 := rfl
        omega
      rw [Nat.le_div_iff_mul_le (Nat.two_pow_pos _), ← Nat.pow_add]
      exact (Nat.pow_le_pow_right (by decide) (by omega)).trans (Nat.log2_self_le hm)

/-- The interval of a rounded mantissa holds the number, if the gap below is a whole one or the
number does not lie below. -/
theorem contains_of_rounded {m : Nat} {e : Int} {y : ℚ} (hm : 0 < m) (hlow : (m : ℚ) - 1 / 2 ≤ y)
    (hhigh : y ≤ m + 1 / 2) (hodd : m % 2 = 1 → (m : ℚ) - 1 / 2 < y ∧ y < m + 1 / 2)
    (hleast : m = 2 ^ 52 → e ≠ -1074 → (m : ℚ) ≤ y) :
    (Span.around m e).Contains (y * 2 ^ e) := by
  have hscale : (2 : ℚ) ^ e = 4 * 2 ^ (e - 2) := by
    rw [show e = 2 + (e - 2) by ring, two_zpow_add]
    norm_num
  have hunit := two_zpow_pos (e - 2)
  have hhigh' : scaled (4 * m + 2) (e - 2) = (m + 1 / 2) * 2 ^ e := by
    rw [hscale, scaled]
    push_cast
    ring
  have hlow' : scaled (4 * m - 2) (e - 2) = (m - 1 / 2) * 2 ^ e := by
    rw [hscale, scaled, Nat.cast_sub (by omega)]
    push_cast
    ring
  have he := two_zpow_pos e
  by_cases hhalf : m = 2 ^ 52 ∧ e ≠ -1074
  · -- the least mantissa: nothing below it rounds up to it here
    have heven : (Span.around m e).closed = true := by rw [hhalf.1]; rfl
    have hends : (Span.around m e).low = 4 * m - 1 := by
      rw [hhalf.1, Span.low_around_of_full hhalf.2]
    rw [Span.Contains, if_pos heven, hends]
    refine ⟨?_, ?_⟩
    · refine (scaled_le_scaled.mpr (show 4 * m - 1 ≤ 4 * m by omega)).trans ?_
      show scaled (4 * m) (e - 2) ≤ y * 2 ^ e
      have hy := hleast hhalf.1 hhalf.2
      rw [hscale, scaled]
      push_cast
      nlinarith
    · show y * 2 ^ e ≤ scaled (4 * m + 2) (e - 2)
      rw [hhigh']
      exact mul_le_mul_of_nonneg_right hhigh he.le
  · have hends : (Span.around m e).low = 4 * m - 2 := if_neg hhalf
    rcases Nat.mod_two_eq_zero_or_one m with heven | hodd'
    · have hclosed : (Span.around m e).closed = true := by simp [Span.around, heven]
      rw [Span.Contains, if_pos hclosed, hends]
      refine ⟨?_, ?_⟩
      · show scaled (4 * m - 2) (e - 2) ≤ _
        rw [hlow']
        exact mul_le_mul_of_nonneg_right hlow he.le
      · show _ ≤ scaled (4 * m + 2) (e - 2)
        rw [hhigh']
        exact mul_le_mul_of_nonneg_right hhigh he.le
    · have hopen : (Span.around m e).closed = false := by simp [Span.around, hodd']
      obtain ⟨hlt, hgt⟩ := hodd hodd'
      rw [Span.Contains, hopen, hends]
      refine ⟨?_, ?_⟩
      · show scaled (4 * m - 2) (e - 2) < _
        rw [hlow']
        exact mul_lt_mul_of_pos_right hlt he
      · show _ < scaled (4 * m + 2) (e - 2)
        rw [hhigh']
        exact mul_lt_mul_of_pos_right hgt he

/-- **Rounding gives the nearest double.** The mantissa and the accuracy describe the exact
number in units of `2 ^ e`; no bit may be missing. -/
theorem rounds_roundWithAccuracy (s : Sign) {m : Nat} {e : Int} {a : Accuracy} {y : ℚ}
    (hy : Tracks (ExtendedMantissa.ofMantissaAndAccuracy m a) y)
    (he : e ≤ Format.binary64.targetExponent (totalExponent m e)) :
    Rounds s (y * 2 ^ e) (roundWithAccuracy Format.binary64 s m e a) := by
  obtain ⟨n, htarget, hlow, hbits, hfull⟩ := mantissa_on_target he
  have hmantissa : (ExtendedMantissa.ofMantissaAndAccuracy m a >>> n).mantissa = m / 2 ^ n := by
    rw [mantissa_shiftRight]
    cases a with
    | exact => rfl
    | inexact o => cases o <;> rfl
  have hfirst : shiftToTargetExponent Format.binary64 m e a =
      (ExtendedMantissa.ofMantissaAndAccuracy m a >>> n, e + n) := by
    have hshift : (e + n - e : Int).toNat = n := by omega
    rw [shiftToTargetExponent, htarget, shiftToExponent]
    simp only [hshift]
  have hexact : y * 2 ^ e = y / 2 ^ n * 2 ^ (e + n) := by
    rw [two_zpow_add, zpow_natCast]
    field_simp
  obtain ⟨hle, hsucc, hfloor, hdown, hup, hodd⟩ := (hy.shiftRight n).rounded
  rw [hmantissa] at hle hsucc hfloor
  rw [hexact]
  generalize y / 2 ^ n = z at hfloor hdown hup hodd
  generalize hR : (ExtendedMantissa.ofMantissaAndAccuracy m a >>> n).roundedMantissa = R at *
  simp only [roundWithAccuracy, hfirst, hR]
  rcases (show R ≤ 2 ^ 53 by omega).lt_or_eq with hsmall | rfl
  · simp only [shiftToTargetExponent_small hsmall hlow]
    by_cases hzero : R = 0
    · -- only on the finest grid nothing is left
      subst hzero
      simp only [dif_pos]
      refine ⟨rfl, ?_⟩
      have hfinest : e + (n : Int) = -1074 := by omega
      have hhalf : (2 : ℚ) ^ (-1075 : Int) = 1 / 2 * 2 ^ (-1074 : Int) := by
        rw [show (-1075 : Int) = -1 + -1074 by norm_num, two_zpow_add]
        norm_num
      rw [hfinest, hhalf]
      rw [Nat.cast_zero, zero_add] at hup
      exact mul_le_mul_of_nonneg_right hup (two_zpow_pos _).le
    · simp only [dif_neg hzero]
      refine ⟨rfl, ⟨Nat.pos_of_ne_zero hzero, hsmall, hlow, by omega⟩, ?_⟩
      refine contains_of_rounded (Nat.pos_of_ne_zero hzero) hdown hup hodd fun hleast hne => ?_
      have hwhole : R ≤ m / 2 ^ n := by omega
      exact (Nat.cast_le.mpr hwhole).trans hfloor
  · -- rounding up has given one bit more, so the number lies next below a power of two
    simp only [shiftToTargetExponent_carry hlow, dif_neg (show (2 ^ 52 : Nat) ≠ 0 by decide)]
    refine ⟨rfl, ⟨by decide, by decide, by omega, .inl (le_refl _)⟩, ?_⟩
    have hends : (Span.around (2 ^ 52) (e + n + 1)).low = 4 * 2 ^ 52 - 1 :=
      Span.low_around_of_full (by omega)
    have hscale : (2 : ℚ) ^ (e + n) = 2 * 2 ^ (e + n + 1 - 2) := by
      have hsum : e + (n : Int) = 1 + (e + n + 1 - 2) := by omega
      calc (2 : ℚ) ^ (e + n) = 2 ^ (1 + (e + n + 1 - 2)) := by rw [← hsum]
        _ = 2 * 2 ^ (e + n + 1 - 2) := by rw [two_zpow_add, zpow_one]
    have hunit := (two_zpow_pos (e + n + 1 - 2)).le
    have hvalue : z * 2 ^ (e + n : Int) = z * 2 * 2 ^ (e + n + 1 - 2) := by rw [hscale]; ring
    have hlow' : ((4 * 2 ^ 52 - 1 : Nat) : ℚ) ≤ z * 2 := by
      norm_num at hdown ⊢
      linarith
    have hhigh' : z * 2 ≤ ((4 * 2 ^ 52 + 2 : Nat) : ℚ) := by
      norm_num at hup ⊢
      linarith
    rw [Span.Contains, if_pos (by rfl), hends, hvalue]
    exact ⟨mul_le_mul_of_nonneg_right hlow' hunit, mul_le_mul_of_nonneg_right hhigh' hunit⟩

/-! ## §4 Operations -/

theorem log2_eq_of_full {m : Nat} (h : 2 ^ 52 ≤ m) : 52 ≤ m.log2 :=
  (Nat.le_log2 (by omega)).mpr h

/-- An exact mantissa with all bits, or on the finest grid, has no bit missing. -/
theorem rounds_exact (s : Sign) {m : Nat} {e : Int} (h : 2 ^ 52 ≤ m ∨ e ≤ -1074) :
    Rounds s (scaled m e) (roundWithAccuracy Format.binary64 s m e .exact) := by
  refine rounds_roundWithAccuracy s (tracks_exact m) ?_
  rw [targetExponent_eq]
  rcases h with hfull | hfinest
  · have := log2_eq_of_full hfull
    omega
  · omega

/-- **Products.** -/
theorem rounds_mul (s t : Sign) {m n : Nat} {e f : Int} (hm : OnGrid m e) (hn : OnGrid n f) :
    Rounds (s * t) (scaled m e * scaled n f)
      (mul Format.binary64 (.finite s m e hm.pos) (.finite t n f hn.pos)) := by
  have hproduct : scaled m e * scaled n f = scaled (m * n) (e + f) := by
    rw [scaled, scaled, scaled, two_zpow_add]
    push_cast
    ring
  have hwide {m n : Nat} (hm : 2 ^ 52 ≤ m) (hn : 0 < n) : 2 ^ 52 ≤ m * n :=
    hm.trans (Nat.le_mul_of_pos_right m hn)
  rw [hproduct]
  refine rounds_exact _ ?_
  rcases hm.full with hfull | he
  · exact .inl (hwide hfull hn.pos)
  · rcases hn.full with hfull | hf
    · exact .inl (Nat.mul_comm n m ▸ hwide hfull hm.pos)
    · exact .inr (by omega)

/-- The quotient of mantissas has all bits, or lies on the finest grid. -/
theorem full_of_divCore {m n : Nat} (hm : 0 < m) (hn : 0 < n) {e f g : Int}
    (hg : g = min (e - f) (Format.binary64.targetExponent (totalExponent m e - totalExponent n f))) :
    2 ^ 52 ≤ (m <<< (e - f - g).toNat) / n ∨ g ≤ -1074 := by
  have htarget : Format.binary64.targetExponent (totalExponent m e - totalExponent n f) =
      max ((m.log2 : Int) + 1 + e - (n.log2 + 1 + f) - 53) (-1074) := rfl
  rw [htarget] at hg
  by_cases hfinest : g ≤ -1074
  · exact .inr hfinest
  · left
    have hlow : 2 ^ (m.log2 + (e - f - g).toNat) ≤ m <<< (e - f - g).toNat := by
      rw [Nat.shiftLeft_eq, Nat.pow_add]
      exact Nat.mul_le_mul_right _ (Nat.log2_self_le hm.ne')
    rw [Nat.le_div_iff_mul_le hn]
    calc 2 ^ 52 * n ≤ 2 ^ 52 * 2 ^ (n.log2 + 1) := Nat.mul_le_mul_left _ Nat.lt_log2_self.le
      _ = 2 ^ (52 + (n.log2 + 1)) := (Nat.pow_add 2 _ _).symm
      _ ≤ 2 ^ (m.log2 + (e - f - g).toNat) := Nat.pow_le_pow_right (by decide) (by omega)
      _ ≤ m <<< (e - f - g).toNat := hlow

/-- **Quotients.** -/
theorem rounds_div (s t : Sign) {m n : Nat} (e f : Int) (hm : 0 < m) (hn : 0 < n) :
    Rounds (s / t) (scaled m e / scaled n f)
      (div Format.binary64 (.finite s m e hm) (.finite t n f hn)) := by
  obtain ⟨g, hg⟩ : ∃ g, g = min (e - f)
      (Format.binary64.targetExponent (totalExponent m e - totalExponent n f)) := ⟨_, rfl⟩
  obtain ⟨w, hw⟩ : ∃ w, w = m <<< (e - f - g).toNat := ⟨_, rfl⟩
  have hfull : 2 ^ 52 ≤ w / n ∨ g ≤ -1074 := hw ▸ full_of_divCore hm hn hg
  have hle : g ≤ Format.binary64.targetExponent (totalExponent (w / n) g) := by
    rw [targetExponent_eq]
    rcases hfull with hfull | hfinest
    · have := log2_eq_of_full hfull
      omega
    · omega
  have hquotient : scaled m e / scaled n f = (((w / n : Nat) : ℚ) + (w % n : Nat) / n) * 2 ^ g := by
    have hn' : (n : ℚ) ≠ 0 := by exact_mod_cast hn.ne'
    have hdivision : (w : ℚ) = n * (w / n : Nat) + (w % n : Nat) := by
      exact_mod_cast (Nat.div_add_mod w n).symm
    have hwhole : (w : ℚ) = m * 2 ^ (e - f - g) := by
      rw [hw, Nat.shiftLeft_eq]
      push_cast
      rw [← zpow_natCast, show ((e - f - g).toNat : Int) = e - f - g by omega]
    have hshift : (2 : ℚ) ^ e = 2 ^ (e - f - g) * 2 ^ g * 2 ^ f := by
      rw [← two_zpow_add, ← two_zpow_add]
      congr 1
      omega
    have hf := (two_zpow_pos f).ne'
    rw [scaled, scaled, hshift, div_eq_iff (mul_ne_zero hn' hf)]
    field_simp
    rw [← hwhole, hdivision, mul_comm]
  have hcore : div Format.binary64 (.finite s m e hm) (.finite t n f hn) =
      roundWithAccuracy Format.binary64 (s / t) (w / n) g (accuracyOfFraction (w % n) n) := by
    rw [hw, hg]
    rfl
  rw [hquotient, hcore]
  exact rounds_roundWithAccuracy _ (tracks_fraction _ (Nat.mod_lt w hn)) hle

/-- **Whole numbers** and other numbers with an exact mantissa. -/
theorem rounds_round (s : Sign) {m : Nat} (e : Int) (hm : 0 < m) :
    Rounds s (scaled m e) (UnpackedFloat.round Format.binary64 s m e) := by
  obtain ⟨k, hk⟩ : ∃ k : Nat, k = (e - Format.binary64.targetExponent (totalExponent m e)).toNat :=
    ⟨_, rfl⟩
  have hvalue : scaled m e = scaled (m <<< k) (e - k) := by
    rw [Nat.shiftLeft_eq, ← scaled_add_nat, sub_add_cancel]
  have hround : UnpackedFloat.round Format.binary64 s m e =
      roundWithAccuracy Format.binary64 s (m <<< k) (e - k) .exact := by
    rw [hk]
    rfl
  rw [hvalue, hround]
  refine rounds_roundWithAccuracy s (tracks_exact _) ?_
  have hlog : (m <<< k).log2 = m.log2 + k := by
    rw [Nat.shiftLeft_eq, Nat.log2_eq_iff (by positivity), Nat.pow_add, Nat.add_right_comm,
      Nat.pow_add]
    exact ⟨Nat.mul_le_mul_right _ (Nat.log2_self_le hm.ne'),
      Nat.mul_lt_mul_of_pos_right Nat.lt_log2_self (Nat.two_pow_pos k)⟩
  rw [targetExponent_eq] at hk ⊢
  omega

end Binary64

end HueCycle
