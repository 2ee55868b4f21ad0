/-
HueCycle.Proofs.Numeric.Operations — the four operations on doubles, as
operations on the signed numbers they stand for.

`HasValue x v` says that a double stands for the number `v`, `NearestTo r x`
that it is the one that `r` is rounded to. Every operation gives the double
nearest to the exact result. Rounding keeps the order, so the double lies
between any two doubles that the exact result lies between
(`NearestTo.between`), and is exact if a double stands for the exact result
(`NearestTo.exact`). A formula that only promises bounds needs no more than
that.

  §1 Values
  §2 Rounding with a sign
  §3 Sums and differences
  §4 The operations
  §5 Order
-/
import Mathlib
import HueCycle.Proofs.Numeric.Errors

namespace HueCycle.Binary64

open Float.Model Float.Model.UnpackedFloat

/-! ## §1 Values -/

/-- A double that stands for a number. -/
def HasValue (x : Float) (v : ℚ) : Prop := ∃ p, parts x = some p ∧ p.value = v

theorem Parts.abs_value (p : Parts) : |p.value| = p.magnitude := by
  rw [value]
  split
  · rw [abs_neg, abs_of_nonneg p.magnitude_nonneg]
  · exact abs_of_nonneg p.magnitude_nonneg

/-- The same parts with the other sign. -/
def Parts.flip (p : Parts) : Parts := { p with negative := !p.negative }

@[simp] theorem Parts.value_flip (p : Parts) : p.flip.value = -p.value := by
  obtain ⟨negative, m, e⟩ := p
  cases negative with
  | false => rfl
  | true => exact (neg_neg _).symm

theorem Parts.Canonical.flip {p : Parts} (h : p.Canonical) : p.flip.Canonical :=
  ⟨h.lt, h.low, h.high, h.full⟩

namespace HasValue

variable {x y : Float} {v w : ℚ}

theorem unique (hv : HasValue x v) (hw : HasValue x w) : v = w := by
  obtain ⟨p, hp, rfl⟩ := hv
  obtain ⟨q, hq, rfl⟩ := hw
  rw [Option.some.inj (hp.symm.trans hq)]

theorem isNaN (h : HasValue x v) : x.isNaN = false := by
  obtain ⟨p, hp, -⟩ := h
  exact isNaN_of_parts hp

theorem isFinite (h : HasValue x v) : x.isFinite = true := by
  obtain ⟨p, hp, -⟩ := h
  rw [← isSome_parts, hp]
  rfl

theorem lt_iff (hx : HasValue x v) (hy : HasValue y w) : x < y ↔ v < w := by
  obtain ⟨p, hp, rfl⟩ := hx
  obtain ⟨q, hq, rfl⟩ := hy
  exact lt_iff_value hp hq

theorem le_iff (hx : HasValue x v) (hy : HasValue y w) : x ≤ y ↔ v ≤ w := by
  obtain ⟨p, hp, rfl⟩ := hx
  obtain ⟨q, hq, rfl⟩ := hy
  exact le_iff_value hp hq

theorem beq_iff (hx : HasValue x v) (hy : HasValue y w) : (x == y) = true ↔ v = w := by
  obtain ⟨p, hp, rfl⟩ := hx
  obtain ⟨q, hq, rfl⟩ := hy
  show (x.toModel.unpack.compare y.toModel.unpack == some .eq) = true ↔ _
  rw [compare_of_parts hp hq, beq_iff_eq, Option.some.injEq, compare_eq_iff_eq]

theorem neg (h : HasValue x v) : HasValue (-x) (-v) := by
  obtain ⟨p, hp, rfl⟩ := h
  exact ⟨p.flip, parts_neg hp, p.value_flip⟩

theorem abs_lt_overflow (h : HasValue x v) : |v| < overflow := by
  obtain ⟨p, hp, rfl⟩ := h
  have hcanonical := canonical_of_parts hp
  rw [p.abs_value]
  exact scaled_lt_overflow hcanonical.lt hcanonical.high

end HasValue

/-- A finite double stands for a number. -/
theorem exists_hasValue {x : Float} (h : x.isFinite = true) : ∃ v, HasValue x v := by
  obtain ⟨p, hp⟩ := Option.isSome_iff_exists.mp ((isSome_parts x).trans h)
  exact ⟨_, p, hp, rfl⟩

theorem hasValue_ofNat {n : Nat} (h : n < 2 ^ 53) : HasValue (Float.ofNat n) n := by
  obtain ⟨p, hp, hnegative, hmagnitude⟩ := parts_ofNat h
  refine ⟨p, hp, ?_⟩
  rw [Parts.value, hnegative, hmagnitude]
  rfl

theorem hasValue_ofNat_zero : HasValue (Float.ofNat 0) 0 := hasValue_ofNat (n := 0) (by decide)

theorem hasValue_ofNat_one : HasValue (Float.ofNat 1) 1 := hasValue_ofNat (n := 1) (by decide)

theorem hasValue_ofNat_six : HasValue (Float.ofNat 6) 6 := hasValue_ofNat (n := 6) (by decide)

theorem hasValue_signed_zero (negative : Bool) : HasValue (signed negative 0) 0 := by
  obtain ⟨p, hp, -, hmagnitude⟩ := parts_signed negative (n := 0) (by decide)
  refine ⟨p, hp, ?_⟩
  rw [Parts.value, hmagnitude, Nat.cast_zero, neg_zero, ite_self]

/-- **What lies between two finite doubles is finite.** -/
theorem hasValue_of_le_of_le {a b x : Float} {lo hi : ℚ} (ha : HasValue a lo) (hb : HasValue b hi)
    (hlow : a ≤ x) (hhigh : x ≤ b) : ∃ v, HasValue x v ∧ lo ≤ v ∧ v ≤ hi := by
  have hunpacked {y : Float} {w : ℚ} (hy : HasValue y w) :
      (∃ s, y.toModel.unpack = .zero s) ∨ ∃ s m e hm, y.toModel.unpack = .finite s m e hm := by
    obtain ⟨p, hp, -⟩ := hy
    rw [unpack_of_parts hp, Parts.unpacked]
    split
    · exact .inl ⟨_, rfl⟩
    · rename_i hne
      exact .inr ⟨_, _, _, Nat.pos_of_ne_zero hne, rfl⟩
  have hfinite : x.isFinite = true := by
    cases hparts : parts x with
    | some p => rw [← isSome_parts, hparts]; rfl
    | none =>
      rw [le_iff] at hlow hhigh
      rcases unpack_of_parts_none hparts with ⟨s, hu⟩ | hu
      · rw [hu] at hlow hhigh
        cases s with
        | positive =>
          rcases hunpacked hb with ⟨t, ht⟩ | ⟨t, m, e, hm, ht⟩ <;> rw [ht] at hhigh <;> cases hhigh
        | negative =>
          rcases hunpacked ha with ⟨t, ht⟩ | ⟨t, m, e, hm, ht⟩ <;> rw [ht] at hlow <;> cases hlow
      · rw [hu] at hhigh
        cases hhigh
  obtain ⟨v, hv⟩ := exists_hasValue hfinite
  exact ⟨v, hv, (ha.le_iff hv).mp hlow, (hv.le_iff hb).mp hhigh⟩

/-! ## §2 Rounding with a sign -/

/-- What a number may be rounded to. A zero may have either sign. -/
def RoundsSigned (r : ℚ) (u : UnpackedFloat) : Prop :=
  ∃ negative, Rounds (signOf negative) |r| u ∧ (0 < r → negative = false) ∧
    (r < 0 → negative = true)

/-- A double is the one that a number is rounded to. -/
def NearestTo (r : ℚ) (x : Float) : Prop := RoundsSigned r x.toModel.unpack

theorem RoundsSigned.packed {r : ℚ} {u : UnpackedFloat} (h : RoundsSigned r u) :
    NearestTo r ⟨Float.Model.pack u⟩ := by
  obtain ⟨negative, hrounds, hsigns⟩ := h
  exact ⟨negative, hrounds.packed, hsigns⟩

/-- A rounded magnitude with its sign. -/
theorem roundsSigned_of_rounds (negative : Bool) {m : ℚ} (hm : 0 ≤ m) {u : UnpackedFloat}
    (h : Rounds (signOf negative) m u) : RoundsSigned (if negative then -m else m) u := by
  refine ⟨negative, ?_, fun hpos => ?_, fun hneg => ?_⟩
  · split
    · rwa [abs_neg, abs_of_nonneg hm]
    · rwa [abs_of_nonneg hm]
  · cases negative with
    | false => rfl
    | true => exact absurd hpos (not_lt.mpr (neg_nonpos.mpr hm))
  · cases negative with
    | false => exact absurd hneg (not_lt.mpr hm)
    | true => rfl

theorem roundsSigned_zero (t : Sign) : RoundsSigned 0 (.zero t) := by
  have hrounds : Rounds t |0| (.zero t) := ⟨rfl, by rw [abs_zero]; exact zero_le_half⟩
  cases t with
  | positive => exact ⟨false, hrounds, fun _ => rfl, fun h => absurd h (lt_irrefl _)⟩
  | negative => exact ⟨true, hrounds, fun h => absurd h (lt_irrefl _), fun _ => rfl⟩

/-- Canonical parts are what their own number is rounded to. -/
theorem roundsSigned_unpacked {p : Parts} (h : p.Canonical) : RoundsSigned p.value p.unpacked := by
  rw [Parts.unpacked]
  split
  · rename_i hzero
    rw [Parts.value_of_zero hzero]
    exact roundsSigned_zero _
  · rename_i hne
    exact roundsSigned_of_rounds _ p.magnitude_nonneg
      ⟨rfl, h.onGrid hne, contains_self (h.onGrid hne)⟩

/-- A signed mantissa is rounded to the number it states. -/
theorem roundsSigned_normalize (k e : ℤ) (t : Sign) :
    RoundsSigned (k * 2 ^ e) (UnpackedFloat.normalize Format.binary64 k e t) := by
  unfold UnpackedFloat.normalize
  split
  · rename_i hlt
    rw [Int.compare_eq_lt] at hlt
    have hcast : (k : ℚ) = -((-k).toNat : ℚ) := by
      rw [← Int.cast_natCast, Int.toNat_of_nonneg (by omega), Int.cast_neg, neg_neg]
    rw [hcast, neg_mul]
    exact roundsSigned_of_rounds true (scaled_pos (by omega) e).le
      (rounds_round .negative e (by omega))
  · rename_i heq
    rw [Int.compare_eq_eq] at heq
    rw [heq, Int.cast_zero, zero_mul]
    exact roundsSigned_zero t
  · rename_i hgt
    rw [Int.compare_eq_gt] at hgt
    have hcast : (k : ℚ) = (k.toNat : ℚ) := by
      rw [← Int.cast_natCast, Int.toNat_of_nonneg (by omega)]
    rw [hcast]
    exact roundsSigned_of_rounds false (scaled_pos (by omega) e).le
      (rounds_round .positive e (by omega))

/-! ## §3 Sums and differences -/

/-- A mantissa brought to a finer grid states the same number. -/
theorem apply_decreaseExponent (p : Parts) {g : ℤ} (hg : g ≤ p.exponent) :
    (((signOf p.negative).apply (decreaseExponent p.mantissa p.exponent g).1 : ℤ) : ℚ) * 2 ^ g =
      p.value := by
  obtain ⟨negative, m, e⟩ := p
  obtain ⟨k, rfl⟩ : ∃ k : ℕ, e = g + k := ⟨(e - g).toNat, by have : g ≤ e := hg; omega⟩
  have hmantissa : (decreaseExponent m (g + k) g).1 = m * 2 ^ k := by
    show m <<< (g + (k : ℤ) - g).toNat = m * 2 ^ k
    rw [add_sub_cancel_left, Int.toNat_natCast, Nat.shiftLeft_eq]
  have hscaled : Parts.magnitude ⟨negative, m, g + k⟩ = ((m * 2 ^ k : ℕ) : ℚ) * 2 ^ g :=
    scaled_add_nat m g k
  rw [Parts.value, hmantissa, hscaled]
  cases negative with
  | false => rfl
  | true =>
    show ((-((m * 2 ^ k : ℕ) : ℤ) : ℤ) : ℚ) * 2 ^ g = -(((m * 2 ^ k : ℕ) : ℚ) * 2 ^ g)
    rw [Int.cast_neg, Int.cast_natCast, neg_mul]

/-- The sum on the finer of two grids is exact before it is rounded. -/
theorem roundsSigned_add {p q : Parts} (hp : p.Canonical) (hq : q.Canonical) :
    RoundsSigned (p.value + q.value)
      (UnpackedFloat.add Format.binary64 p.unpacked q.unpacked) := by
  by_cases hpzero : p.mantissa = 0
  · rw [Parts.value_of_zero hpzero, zero_add, Parts.unpacked, dif_pos hpzero]
    by_cases hqzero : q.mantissa = 0
    · rw [Parts.value_of_zero hqzero, Parts.unpacked, dif_pos hqzero]
      simp only [UnpackedFloat.add]
      split <;> exact roundsSigned_zero _
    · have hsum := roundsSigned_unpacked hq
      rw [Parts.unpacked, dif_neg hqzero] at hsum ⊢
      exact hsum
  · by_cases hqzero : q.mantissa = 0
    · rw [Parts.value_of_zero hqzero, add_zero]
      have hsum := roundsSigned_unpacked hp
      rw [Parts.unpacked, dif_neg hpzero] at hsum ⊢
      rw [Parts.unpacked, dif_pos hqzero]
      exact hsum
    · have hleft := apply_decreaseExponent p (min_le_left p.exponent q.exponent)
      have hright := apply_decreaseExponent q (min_le_right p.exponent q.exponent)
      rw [← hleft, ← hright, ← add_mul, ← Int.cast_add, Parts.unpacked, dif_neg hpzero,
        Parts.unpacked, dif_neg hqzero]
      exact roundsSigned_normalize _ _ _

/-- A difference is the sum with the other sign. -/
theorem unpacked_sub_eq_add (u v : UnpackedFloat) :
    UnpackedFloat.sub Format.binary64 u v = UnpackedFloat.add Format.binary64 u v.neg := by
  have hsign (s t : Sign) (m n : ℤ) : s.apply m - t.apply n = s.apply m + (-t).apply n := by
    cases t with
    | positive => exact Int.sub_eq_add_neg
    | negative => exact Int.sub_neg _ _
  cases u with
  | notANumber => rfl
  | infinity s => cases v <;> rfl
  | zero s => cases v <;> rfl
  | finite s m e hm =>
    cases v with
    | notANumber => rfl
    | infinity t => rfl
    | zero t => rfl
    | finite t n f hn =>
      exact congrArg (UnpackedFloat.normalize Format.binary64 · (min e f) .positive)
        (hsign s t _ _)

theorem Parts.unpacked_flip (p : Parts) : p.flip.unpacked = p.unpacked.neg := by
  obtain ⟨negative, m, e⟩ := p
  by_cases hzero : m = 0
  · rw [hzero]
    cases negative <;> rfl
  · rw [unpacked, unpacked, dif_neg (show ¬ (flip ⟨negative, m, e⟩).mantissa = 0 from hzero),
      dif_neg (show ¬ (Parts.mk negative m e).mantissa = 0 from hzero)]
    cases negative <;> rfl

/-! ## §4 The operations -/

section Operations

variable {x y : Float} {v w : ℚ}

theorem nearestTo_self (h : HasValue x v) : NearestTo v x := by
  obtain ⟨p, hp, rfl⟩ := h
  rw [NearestTo, unpack_of_parts hp]
  exact roundsSigned_unpacked (canonical_of_parts hp)

theorem nearestTo_add (hx : HasValue x v) (hy : HasValue y w) : NearestTo (v + w) (x + y) := by
  obtain ⟨p, hp, rfl⟩ := hx
  obtain ⟨q, hq, rfl⟩ := hy
  have hsum := (roundsSigned_add (canonical_of_parts hp) (canonical_of_parts hq)).packed
  rw [← unpack_of_parts hp, ← unpack_of_parts hq] at hsum
  exact hsum

theorem nearestTo_sub (hx : HasValue x v) (hy : HasValue y w) : NearestTo (v - w) (x - y) := by
  obtain ⟨p, hp, rfl⟩ := hx
  obtain ⟨q, hq, rfl⟩ := hy
  have hsum := (roundsSigned_add (canonical_of_parts hp) (canonical_of_parts hq).flip).packed
  rw [q.value_flip, ← sub_eq_add_neg, q.unpacked_flip, ← unpack_of_parts hp,
    ← unpack_of_parts hq, ← unpacked_sub_eq_add] at hsum
  exact hsum

/-- The product of two signed numbers, sign and magnitude apart. -/
theorem Parts.value_mul (p q : Parts) : p.value * q.value =
    if (p.negative ^^ q.negative) = true then -(p.magnitude * q.magnitude)
    else p.magnitude * q.magnitude := by
  rw [value, value]
  cases p.negative <;> cases q.negative <;> simp

theorem Parts.value_div (p q : Parts) : p.value / q.value =
    if (p.negative ^^ q.negative) = true then -(p.magnitude / q.magnitude)
    else p.magnitude / q.magnitude := by
  rw [value, value]
  cases p.negative <;> cases q.negative <;> simp [neg_div, div_neg]

theorem nearestTo_mul (hx : HasValue x v) (hy : HasValue y w) : NearestTo (v * w) (x * y) := by
  obtain ⟨p, hp, rfl⟩ := hx
  obtain ⟨q, hq, rfl⟩ := hy
  rw [p.value_mul]
  exact roundsSigned_of_rounds _ (mul_nonneg p.magnitude_nonneg q.magnitude_nonneg)
    (nearest_mul hp hq)

theorem nearestTo_div (hx : HasValue x v) (hy : HasValue y w) (hw : w ≠ 0) :
    NearestTo (v / w) (x / y) := by
  obtain ⟨p, hp, rfl⟩ := hx
  obtain ⟨q, hq, rfl⟩ := hy
  rw [p.value_div]
  exact roundsSigned_of_rounds _ (div_nonneg p.magnitude_nonneg q.magnitude_nonneg)
    (nearest_div hp hq fun hzero => hw (Parts.value_of_zero hzero))

end Operations

/-! ## §5 Order -/

namespace NearestTo

variable {r r' v v' lo hi : ℚ} {x x' a b : Float}

/-- What does not exceed every double is rounded to a finite one. -/
theorem exists_hasValue (h : NearestTo r x) (hr : |r| < overflow) : ∃ v, HasValue x v := by
  obtain ⟨negative, hnearest, -⟩ := h
  obtain ⟨p, hp, -⟩ := Nearest.finite hnearest hr
  exact ⟨_, p, hp, rfl⟩

/-- Magnitudes keep their order. -/
theorem abs_mono (h : NearestTo r x) (h' : NearestTo r' x') (hle : |r| ≤ |r'|)
    (hx : HasValue x v) (hx' : HasValue x' v') : |v| ≤ |v'| := by
  obtain ⟨negative, hnearest, -⟩ := h
  obtain ⟨negative', hnearest', -⟩ := h'
  obtain ⟨p, hp, rfl⟩ := hx
  obtain ⟨q, hq, rfl⟩ := hx'
  rw [p.abs_value, q.abs_value]
  exact Nearest.magnitude_mono hnearest hnearest' hle hp hq

/-- The result has the sign of the exact number; zero is rounded to a zero. -/
theorem sign (h : NearestTo r x) (hx : HasValue x v) : (0 ≤ r → v = |v|) ∧ (r ≤ 0 → v = -|v|) := by
  rcases eq_or_ne r 0 with rfl | hne
  · have hzero := h.abs_mono (nearestTo_self (hasValue_signed_zero false)) le_rfl hx
      (hasValue_signed_zero false)
    rw [abs_zero, abs_nonpos_iff] at hzero
    rw [hzero, abs_zero, neg_zero]
    exact ⟨fun _ => rfl, fun _ => rfl⟩
  · obtain ⟨negative, hnearest, hpositive, hnegative⟩ := h
    obtain ⟨p, hp, rfl⟩ := hx
    obtain ⟨q, hq, hsign, -⟩ := Nearest.finite hnearest (Nearest.lt_overflow hnearest hp)
    obtain rfl := Option.some.inj (hq.symm.trans hp)
    rw [Parts.abs_value]
    refine ⟨fun hr => ?_, fun hr => ?_⟩
    · rw [Parts.value, hsign, hpositive (hr.lt_of_ne' hne)]
      rfl
    · rw [Parts.value, hsign, hnegative (hr.lt_of_ne hne)]
      rfl

/-- **Rounding keeps the order** of signed numbers. -/
theorem mono (h : NearestTo r x) (h' : NearestTo r' x') (hle : r ≤ r') (hx : HasValue x v)
    (hx' : HasValue x' v') : v ≤ v' := by
  obtain ⟨hpositive, hnegative⟩ := h.sign hx
  obtain ⟨hpositive', -⟩ := h'.sign hx'
  rcases le_total 0 r with hr | hr
  · have hr' := hr.trans hle
    have habs := h.abs_mono h' (by rwa [abs_of_nonneg hr, abs_of_nonneg hr']) hx hx'
    exact (le_abs_self v).trans (habs.trans_eq (hpositive' hr').symm)
  · rw [hnegative hr]
    rcases le_total 0 r' with hr' | hr'
    · rw [hpositive' hr']
      exact (neg_nonpos.mpr (abs_nonneg v)).trans (abs_nonneg v')
    · have habs := h'.abs_mono h (by rw [abs_of_nonpos hr, abs_of_nonpos hr']; exact neg_le_neg hle)
        hx' hx
      exact (neg_le_neg habs).trans (neg_abs_le v')

/-- **A result lies between any two doubles that the exact one lies between**, and is finite. -/
theorem between (h : NearestTo r x) (hlo : HasValue a lo) (hhi : HasValue b hi) (hlow : lo ≤ r)
    (hhigh : r ≤ hi) : ∃ v, HasValue x v ∧ lo ≤ v ∧ v ≤ hi := by
  have hfinite : |r| < overflow :=
    (abs_le_max_abs_abs hlow hhigh).trans_lt (max_lt hlo.abs_lt_overflow hhi.abs_lt_overflow)
  obtain ⟨v, hv⟩ := h.exists_hasValue hfinite
  exact ⟨v, hv, (nearestTo_self hlo).mono h hlow hlo hv, h.mono (nearestTo_self hhi) hhigh hv hhi⟩

theorem between_zero_one (h : NearestTo r x) (hlow : 0 ≤ r) (hhigh : r ≤ 1) :
    ∃ v, HasValue x v ∧ 0 ≤ v ∧ v ≤ 1 :=
  h.between hasValue_ofNat_zero hasValue_ofNat_one hlow hhigh

/-- **A result is exact if a double stands for it.** -/
theorem exact (h : NearestTo r x) (ha : HasValue a r) : HasValue x r := by
  obtain ⟨v, hv, hlow, hhigh⟩ := h.between ha ha le_rfl le_rfl
  rwa [le_antisymm hlow hhigh]

end NearestTo

end HueCycle.Binary64
