/-
HueCycle.Proofs.Numeric.Values — a finite double is the number that its
parts state.

The model takes doubles apart bit by bit, the operations of the language
unpack them. Both give the same mantissa and exponent, which are those of
the grid, and a grid number that does not exceed the largest double is
packed without loss. So what is known of rounding holds of doubles:
`nearest_mul`, `nearest_div`, `nearest_toFloat` say that the double is the
one nearest to the exact result, and `Nearest.unique` that this decides it.
-/
import Mathlib
import HueCycle.Proofs.Numeric.Rounding

namespace HueCycle.Binary64

open Float.Model Float.Model.UnpackedFloat
open Decimal (Span)

/-! ## §1 Parts -/

/-- The sign that a sign bit means. -/
def signOf (negative : Bool) : Sign := if negative then .negative else .positive

theorem signOf_injective {s t : Bool} (h : signOf s = signOf t) : s = t := by
  cases s <;> cases t <;> first | rfl | cases h

theorem signOf_mul (s t : Bool) : signOf s * signOf t = signOf (s ^^ t) := by
  cases s <;> cases t <;> rfl

theorem signOf_div (s t : Bool) : signOf s / signOf t = signOf (s ^^ t) := by
  cases s <;> cases t <;> rfl

namespace Parts

/-- The magnitude that parts state. -/
def magnitude (p : Parts) : ℚ := scaled p.mantissa p.exponent

/-- Parts in the form that the operations work on. -/
def unpacked (p : Parts) : UnpackedFloat :=
  if h : p.mantissa = 0 then .zero (signOf p.negative)
  else .finite (signOf p.negative) p.mantissa p.exponent (Nat.pos_of_ne_zero h)

end Parts

theorem toNat_unpackMantissa (b : BitVec 64) :
    (@unpackMantissa Format.binary64 b).toNat = b.toNat % 0x10000000000000 := by
  rw [unpackMantissa, BitVec.toNat_cast, BitVec.extractLsb_toNat, Nat.shiftRight_eq_div_pow,
    Nat.pow_zero, Nat.div_one]
  rfl

theorem ofBitVec_unpackSign (b : BitVec 64) :
    Sign.ofBitVec (@unpackSign Format.binary64 b) = signOf (decide (0x8000000000000000 ≤ b.toNat)) := by
  have hsign : (@unpackSign Format.binary64 b).toNat = b.toNat / 0x8000000000000000 % 2 := by
    rw [unpackSign, BitVec.toNat_cast, BitVec.extractLsb_toNat, Nat.shiftRight_eq_div_pow]
    rfl
  have hlt := b.isLt
  rw [Sign.ofBitVec, signOf]
  by_cases hhigh : 0x8000000000000000 ≤ b.toNat
  · have hne : @unpackSign Format.binary64 b ≠ 0#1 := by
      intro h
      rw [h] at hsign
      change 0 = _ at hsign
      omega
    rw [if_neg hne, if_pos (decide_eq_true hhigh)]
  · have heq : @unpackSign Format.binary64 b = 0#1 := by
      refine BitVec.eq_of_toNat_eq (hsign.trans ?_)
      change _ = 0
      omega
    rw [if_pos heq, if_neg (by simpa using hhigh)]

/-- Taking a double apart is unpacking it. -/
theorem unpack_of_parts {x : Float} {p : Parts} (h : parts x = some p) :
    x.toModel.unpack = p.unpacked := by
  have hexponent (k : Nat) : @unpackExponent Format.binary64 x.toModel.toBits.toBitVec = BitVec.ofNat 11 k ↔
      x.toBits.toNat / 0x10000000000000 % 0x800 = k % 0x800 := by
    rw [← BitVec.toNat_inj, toNat_unpackExponent, BitVec.toNat_ofNat]
    rfl
  have hmantissa : (@unpackMantissa Format.binary64 x.toModel.toBits.toBitVec).toNat =
      x.toBits.toNat % 0x10000000000000 := toNat_unpackMantissa _
  have hsign : Sign.ofBitVec (@unpackSign Format.binary64 x.toModel.toBits.toBitVec) =
      signOf (decide (0x8000000000000000 ≤ x.toBits.toNat)) := ofBitVec_unpackSign _
  have hfield : (@unpackExponent Format.binary64 x.toModel.toBits.toBitVec).toNat =
      x.toBits.toNat / 0x10000000000000 % 0x800 := toNat_unpackExponent _
  have hbias : (Format.binary64.exponentBias : Int) = 1023 := rfl
  change UnpackedFloat.unpack Format.binary64 x.toModel.toBits.toBitVec = _
  simp only [parts] at h
  unfold UnpackedFloat.unpack
  dsimp only
  split at h
  · cases h
  · rename_i hfinite
    rw [if_neg (show ¬ @unpackExponent Format.binary64 x.toModel.toBits.toBitVec = -1#11 from
      fun hall => hfinite ((hexponent 2047).mp hall)), hsign]
    split at h
    · rename_i hzero
      obtain rfl := Option.some.inj h
      rw [if_pos (show @unpackExponent Format.binary64 x.toModel.toBits.toBitVec = 0#11 from
        (hexponent 0).mpr hzero)]
      by_cases hnone : x.toBits.toNat % 0x10000000000000 = 0
      · have hempty : @unpackMantissa Format.binary64 x.toModel.toBits.toBitVec = 0#52 :=
          BitVec.eq_of_toNat_eq (hmantissa.trans hnone)
        rw [dif_pos hempty, Parts.unpacked, dif_pos hnone]
      · have hsome : @unpackMantissa Format.binary64 x.toModel.toBits.toBitVec ≠ 0#52 := by
          intro hempty
          rw [hempty] at hmantissa
          exact hnone hmantissa.symm
        rw [dif_neg hsome, Parts.unpacked, dif_neg hnone]
        congr 1
        rw [hfield, hzero, hbias]
        rfl
    · rename_i hnonzero
      obtain rfl := Option.some.inj h
      rw [if_neg (show ¬ @unpackExponent Format.binary64 x.toModel.toBits.toBitVec = 0#11 from
        fun hall => hnonzero ((hexponent 0).mp hall)), Parts.unpacked,
        dif_neg (show ¬ x.toBits.toNat % 0x10000000000000 + 0x10000000000000 = 0 by omega)]
      have hwhole : (1#1 ++ @unpackMantissa Format.binary64 x.toModel.toBits.toBitVec).toNat =
          x.toBits.toNat % 0x10000000000000 + 0x10000000000000 := by
        rw [toNat_one_append, hmantissa]
        omega
      congr 1
      rw [hfield, hbias]
      push_cast
      omega

/-- Parts as a finite double has them. -/
structure Parts.Canonical (p : Parts) : Prop where
  lt : p.mantissa < 2 ^ 53
  low : -1074 ≤ p.exponent
  high : p.exponent ≤ 971
  full : 2 ^ 52 ≤ p.mantissa ∨ p.exponent = -1074

theorem canonical_of_parts {x : Float} {p : Parts} (h : parts x = some p) : p.Canonical := by
  have hword : x.toBits.toNat < 2 ^ 64 := x.toBits.toNat_lt
  simp only [parts] at h
  split at h
  · cases h
  · split at h
    · obtain rfl := Option.some.inj h
      constructor <;> dsimp only <;> omega
    · obtain rfl := Option.some.inj h
      constructor <;> dsimp only <;> omega

theorem Parts.Canonical.onGrid {p : Parts} (h : p.Canonical) (hp : p.mantissa ≠ 0) :
    OnGrid p.mantissa p.exponent :=
  ⟨Nat.pos_of_ne_zero hp, h.lt, h.low, h.full⟩

theorem Parts.onGrid {x : Float} {p : Parts} (h : parts x = some p) (hp : p.mantissa ≠ 0) :
    OnGrid p.mantissa p.exponent := (canonical_of_parts h).onGrid hp

/-- Doubles with the same parts are the same. -/
theorem eq_of_parts {x y : Float} {p : Parts} (hx : parts x = some p) (hy : parts y = some p) :
    x = y := by
  have hxword : x.toBits.toNat < 2 ^ 64 := x.toBits.toNat_lt
  have hyword : y.toBits.toNat < 2 ^ 64 := y.toBits.toNat_lt
  refine toBits_injective (UInt64.toNat_inj.mp ?_)
  simp only [parts] at hx hy
  split at hx
  · cases hx
  · split at hy
    · cases hy
    · split at hx <;> split at hy <;> obtain rfl := Option.some.inj hx <;>
        simp only [Option.some.injEq, Parts.mk.injEq, decide_eq_decide] at hy <;> omega

/-! ## §2 Packing -/

/-- What lies on the grid and is not too large is packed without loss. -/
theorem unpack_pack_onGrid (s : Sign) {m : Nat} {e : Int} (h : OnGrid m e) (he : e ≤ 971) :
    (Float.Model.pack (.finite s m e h.pos)).unpack = .finite s m e h.pos := by
  have hbiased := toNat_biased h.low he
  have hroom : ¬ 2 ^ Format.binary64.exponentBits ≤
      (e + Format.binary64.exponentBias + Format.binary64.mantissaBitsWithoutImplicit).toNat + 1 := by
    show ¬ 2048 ≤ (e + (1023 : Nat) + (52 : Nat)).toNat + 1
    omega
  change UnpackedFloat.unpack Format.binary64 (UnpackedFloat.pack Format.binary64 _) = _
  rw [UnpackedFloat.pack]
  dsimp only
  rw [if_neg hroom]
  have hlt := h.lt
  by_cases hfull : 2 ^ 52 ≤ m
  · have hlog : m.log2 + 1 = Format.binary64.mantissaBits := by
      have : m.log2 = 52 := (Nat.log2_eq_iff h.pos.ne').mpr ⟨hfull, hlt⟩
      rw [this]
      rfl
    have hfield (k : Nat) (hk : k < 2048) (hne : (e + 1075).toNat ≠ k) :
        BitVec.ofNat 11 (e + Format.binary64.exponentBias +
          Format.binary64.mantissaBitsWithoutImplicit).toNat ≠ BitVec.ofNat 11 k := by
      intro heq
      have hval := congrArg BitVec.toNat heq
      rw [hbiased, BitVec.toNat_ofNat, Nat.mod_eq_of_lt hk] at hval
      exact hne hval
    have hmantissa : (1#1 ++ BitVec.ofNat 52 m).toNat = m := by
      rw [toNat_one_append, BitVec.toNat_ofNat]
      omega
    rw [if_pos hlog]
    refine (unpack_packComponents s (hfield 2047 (by decide) (by omega)) _).trans
      ((if_neg (hfield 0 (by decide) (by have := h.low; omega))).trans ?_)
    congr 1
    rw [hbiased]
    have := h.low
    omega
  · obtain rfl : e = -1074 := h.full.resolve_left hfull
    have hlog : m.log2 + 1 ≠ Format.binary64.mantissaBits := by
      have := (Nat.log2_lt h.pos.ne').mpr (not_le.mp hfull)
      show m.log2 + 1 ≠ 53
      omega
    have hmantissa : (BitVec.ofNat 52 m).toNat = m := by
      rw [BitVec.toNat_ofNat]
      omega
    have hne : BitVec.ofNat 52 m ≠ 0#52 := by
      intro hzero
      have := h.pos
      rw [hzero] at hmantissa
      change 0 = m at hmantissa
      omega
    rw [if_neg hlog]
    refine (unpack_packComponents s (by decide) _).trans ((if_pos rfl).trans ((dif_neg hne).trans ?_))
    congr 1

/-- What is too large becomes infinite. -/
theorem unpack_pack_large (s : Sign) {m : Nat} {e : Int} (hm : 0 < m) (he : 972 ≤ e) :
    (Float.Model.pack (.finite s m e hm)).unpack = .infinity s := by
  have hroom : 2 ^ Format.binary64.exponentBits ≤
      (e + Format.binary64.exponentBias + Format.binary64.mantissaBitsWithoutImplicit).toNat + 1 := by
    show 2048 ≤ (e + (1023 : Nat) + (52 : Nat)).toNat + 1
    omega
  change UnpackedFloat.unpack Format.binary64 (UnpackedFloat.pack Format.binary64 _) = _
  rw [UnpackedFloat.pack]
  dsimp only
  rw [if_pos hroom]
  cases s <;> rfl

/-! ## §3 The nearest double -/

/-- From here on numbers are rounded to infinity: half a unit above the largest double. -/
def overflow : ℚ := 2 ^ (1024 : Int) - 2 ^ (970 : Int)

/-- A double is the one that a magnitude is rounded to, with a sign. -/
def Nearest (negative : Bool) (r : ℚ) (x : Float) : Prop :=
  Rounds (signOf negative) r x.toModel.unpack

/-- What is rounded stays so when it is packed. -/
theorem Rounds.packed {s : Sign} {r : ℚ} {u : UnpackedFloat} (h : Rounds s r u) :
    Rounds s r (Float.Model.pack u).unpack := by
  cases u with
  | notANumber => exact h.elim
  | zero t =>
    rw [unpack_pack_zero]
    exact h
  | infinity t =>
    rw [unpack_pack_infinity]
    exact h
  | finite t m e hm =>
    obtain ⟨rfl, hgrid, hcontains⟩ := h
    by_cases he : e ≤ 971
    · rw [unpack_pack_onGrid t hgrid he]
      exact ⟨rfl, hgrid, hcontains⟩
    · rw [unpack_pack_large t hm (by omega)]
      refine ⟨rfl, le_trans ?_ hcontains.bounds.1⟩
      obtain ⟨k, hk⟩ : ∃ k : Nat, e - 2 = 970 + k := ⟨(e - 972).toNat, by omega⟩
      have hlow : 4 * 2 ^ 52 - 1 ≤ (Span.around m e).low := by
        rcases (hgrid.full.resolve_right (by omega)).eq_or_lt with heq | hgt
        · rw [← heq, Span.low_around_of_full (by omega)]
        · have := Span.le_low_around m e
          omega
      have hleast : (2 : ℚ) ^ (1024 : Int) - 2 ^ (970 : Int) = scaled (4 * 2 ^ 52 - 1) 970 := by
        rw [show (1024 : Int) = 54 + 970 by norm_num, two_zpow_add, scaled]
        generalize (2 : ℚ) ^ (970 : Int) = unit
        norm_num
        ring
      show (2 : ℚ) ^ (1024 : Int) - 2 ^ (970 : Int) ≤ scaled (Span.around m e).low (e - 2)
      rw [hleast, hk, scaled_add_nat, scaled_le_scaled]
      exact hlow.trans (Nat.le_mul_of_pos_right _ (Nat.two_pow_pos k))

/-- A double without parts is infinite or no number. -/
theorem unpack_of_parts_none {x : Float} (h : parts x = none) :
    (∃ s, x.toModel.unpack = .infinity s) ∨ x.toModel.unpack = .notANumber := by
  have hfinite : x.toModel.unpack.isFinite = false := by
    have := isSome_parts x
    rw [h] at this
    exact this.symm
  cases hu : x.toModel.unpack with
  | infinity s => exact .inl ⟨s, rfl⟩
  | notANumber => exact .inr rfl
  | zero s =>
    rw [hu] at hfinite
    cases hfinite
  | finite s m e hm =>
    rw [hu] at hfinite
    cases hfinite

theorem isNaN_of_parts {x : Float} {p : Parts} (h : parts x = some p) : x.isNaN = false := by
  show x.toModel.unpack.isNaN = false
  rw [unpack_of_parts h, Parts.unpacked]
  split <;> rfl

/-- A double that unpacks to canonical parts has them. -/
theorem parts_of_unpack {x : Float} {p : Parts} (hp : p.Canonical)
    (h : x.toModel.unpack = p.unpacked) : parts x = some p := by
  cases hparts : parts x with
  | none =>
    have hfinite : p.unpacked.isFinite = true := by
      rw [Parts.unpacked]
      split <;> rfl
    rcases unpack_of_parts_none hparts with ⟨s, hu⟩ | hu
    · rw [← h, hu] at hfinite
      cases hfinite
    · rw [← h, hu] at hfinite
      cases hfinite
  | some q =>
    rw [unpack_of_parts hparts] at h
    have hfull := (canonical_of_parts hparts).full
    have hfull' := hp.full
    obtain ⟨s, m, e⟩ := q
    obtain ⟨t, n, f⟩ := p
    simp only [Parts.unpacked] at h hfull hfull'
    split at h
    · rename_i hm
      split at h
      · rename_i hn
        rw [UnpackedFloat.zero.injEq] at h
        obtain rfl := signOf_injective h
        rw [hm, hn, show e = -1074 by omega, show f = -1074 by omega]
      · cases h
    · split at h
      · cases h
      · rw [UnpackedFloat.finite.injEq] at h
        obtain ⟨hs, rfl, rfl⟩ := h
        rw [signOf_injective hs]

namespace Nearest

variable {negative : Bool} {r : ℚ} {x : Float}

/-- What is below the overflow is rounded to a finite double: to zero, or to one whose interval
it lies in. -/
theorem finite (h : Nearest negative r x) (hr : r < overflow) :
    ∃ p, parts x = some p ∧ p.negative = negative ∧
      (p.mantissa = 0 ∧ r ≤ 2 ^ (-1075 : Int) ∨
        p.mantissa ≠ 0 ∧ (Span.around p.mantissa p.exponent).Contains r) := by
  unfold Nearest at h
  cases hparts : parts x with
  | none =>
    rcases unpack_of_parts_none hparts with ⟨s, hu⟩ | hu
    · rw [hu] at h
      exact absurd hr (not_lt.mpr h.2)
    · rw [hu] at h
      exact h.elim
  | some p =>
    rw [unpack_of_parts hparts, Parts.unpacked] at h
    refine ⟨p, rfl, ?_⟩
    split at h
    · rename_i hzero
      exact ⟨signOf_injective h.1, .inl ⟨hzero, h.2⟩⟩
    · rename_i hne
      exact ⟨signOf_injective h.1, .inr ⟨hne, h.2.2⟩⟩

theorem isNaN (h : Nearest negative r x) : x.isNaN = false := by
  unfold Nearest at h
  show x.toModel.unpack.isNaN = false
  cases hu : x.toModel.unpack with
  | notANumber =>
    rw [hu] at h
    exact h.elim
  | infinity s => rfl
  | zero s => rfl
  | finite s m e hm => rfl

theorem of_contains {p : Parts} (hp : parts x = some p) (hne : p.mantissa ≠ 0)
    (h : (Span.around p.mantissa p.exponent).Contains r) : Nearest p.negative r x := by
  rw [Nearest, unpack_of_parts hp, Parts.unpacked, dif_neg hne]
  exact ⟨rfl, Parts.onGrid hp hne, h⟩

theorem of_zero {p : Parts} (hp : parts x = some p) (hzero : p.mantissa = 0)
    (h : r ≤ 2 ^ (-1075 : Int)) : Nearest p.negative r x := by
  rw [Nearest, unpack_of_parts hp, Parts.unpacked, dif_pos hzero]
  exact ⟨rfl, h⟩

end Nearest

/-- The least double is rounded to from above half of it. -/
theorem lt_of_contains_onGrid {r : ℚ} {m : Nat} {e : Int} (hm : OnGrid m e)
    (h : (Span.around m e).Contains r) : 2 ^ (-1075 : Int) < r := by
  have hhalf : (2 : ℚ) ^ (-1075 : Int) = scaled 2 (-1074 - 2) := by
    rw [show (-1075 : Int) = 1 + (-1074 - 2) by norm_num, two_zpow_add, scaled]
    norm_num
  have hleast : (Span.around 1 (-1074)).Contains (scaled 4 (-1074 - 2)) :=
    ⟨scaled_lt_scaled.mpr (by decide), scaled_lt_scaled.mpr (by decide)⟩
  have hone : OnGrid 1 (-1074) := ⟨by decide, by decide, by decide, .inr rfl⟩
  by_cases hsame : m = 1 ∧ e = -1074
  · obtain ⟨rfl, rfl⟩ := hsame
    have := (h.strict rfl).1
    rwa [hhalf]
  · have hpos := hm.pos
    have hlow := hm.low
    have hless := lt_of_contains hone hm hleast h (by omega)
    rw [hhalf]
    exact (scaled_lt_scaled.mpr (by decide)).trans hless

/-- **A number is rounded to one double.** -/
theorem Nearest.unique {negative : Bool} {r : ℚ} {x y : Float} (hx : Nearest negative r x)
    (hy : Nearest negative r y) (hr : r < overflow) : x = y := by
  obtain ⟨p, hp, hnegative, hcases⟩ := hx.finite hr
  obtain ⟨q, hq, hnegative', hcases'⟩ := hy.finite hr
  suffices hsame : p = q by
    subst hsame
    exact eq_of_parts hp hq
  obtain ⟨s, m, e⟩ := p
  obtain ⟨t, n, f⟩ := q
  obtain rfl : s = negative := hnegative
  obtain rfl : t = s := hnegative'
  dsimp only at hcases hcases'
  rcases hcases with ⟨rfl, hsmall⟩ | ⟨hm, hcontains⟩
  · rcases hcases' with ⟨rfl, -⟩ | ⟨hn, hcontains'⟩
    · have he := (canonical_of_parts hp).full
      have hf := (canonical_of_parts hq).full
      dsimp only at he hf
      rw [show e = -1074 by omega, show f = -1074 by omega]
    · exact absurd (lt_of_contains_onGrid (Parts.onGrid hq hn) hcontains') (not_lt.mpr hsmall)
  · rcases hcases' with ⟨rfl, hsmall⟩ | ⟨hn, hcontains'⟩
    · exact absurd (lt_of_contains_onGrid (Parts.onGrid hp hm) hcontains) (not_lt.mpr hsmall)
    · obtain ⟨rfl, rfl⟩ :=
        eq_of_contains (Parts.onGrid hp hm) (Parts.onGrid hq hn) hcontains hcontains'
      rfl

/-! ## §4 Operations -/

section Operations

variable {x y : Float} {p q : Parts}

theorem magnitude_of_zero {p : Parts} (h : p.mantissa = 0) : p.magnitude = 0 := by
  rw [Parts.magnitude, h, scaled, Nat.cast_zero, zero_mul]

theorem zero_le_half : (0 : ℚ) ≤ 2 ^ (-1075 : Int) := (two_zpow_pos _).le

/-- **A product is the double nearest to the exact one.** -/
theorem nearest_mul (hx : parts x = some p) (hy : parts y = some q) :
    Nearest (p.negative ^^ q.negative) (p.magnitude * q.magnitude) (x * y) := by
  show Rounds _ _ (Float.Model.pack (UnpackedFloat.mul _ x.toModel.unpack y.toModel.unpack)).unpack
  refine Rounds.packed ?_
  rw [unpack_of_parts hx, unpack_of_parts hy, ← signOf_mul, Parts.unpacked, Parts.unpacked]
  split
  · rename_i hzero
    rw [magnitude_of_zero hzero, zero_mul]
    split <;> exact ⟨rfl, zero_le_half⟩
  · rename_i hp
    split
    · rename_i hzero
      rw [magnitude_of_zero hzero, mul_zero]
      exact ⟨rfl, zero_le_half⟩
    · rename_i hq
      exact rounds_mul _ _ (Parts.onGrid hx hp) (Parts.onGrid hy hq)

/-- **A quotient is the double nearest to the exact one.** -/
theorem nearest_div (hx : parts x = some p) (hy : parts y = some q) (hq : q.mantissa ≠ 0) :
    Nearest (p.negative ^^ q.negative) (p.magnitude / q.magnitude) (x / y) := by
  show Rounds _ _ (Float.Model.pack (UnpackedFloat.div _ x.toModel.unpack y.toModel.unpack)).unpack
  refine Rounds.packed ?_
  rw [unpack_of_parts hx, unpack_of_parts hy, ← signOf_div, Parts.unpacked, Parts.unpacked,
    dif_neg hq]
  split
  · rename_i hzero
    rw [magnitude_of_zero hzero, zero_div]
    exact ⟨rfl, zero_le_half⟩
  · exact rounds_div _ _ _ _ _ _

/-- **A whole number becomes the double nearest to it.** -/
theorem nearest_toFloat (n : UInt64) : Nearest false n.toNat n.toFloat := by
  show Rounds _ _ (Float.Model.pack (UnpackedFloat.normalize Format.binary64 n.toNat 0 .positive)).unpack
  refine Rounds.packed ?_
  unfold UnpackedFloat.normalize
  split
  · rename_i hlt
    rw [Int.compare_eq_lt] at hlt
    omega
  · rename_i heq
    rw [Int.compare_eq_eq] at heq
    have hzero : n.toNat = 0 := by omega
    rw [hzero, Nat.cast_zero]
    exact ⟨rfl, zero_le_half⟩
  · rename_i hgt
    rw [Int.compare_eq_gt] at hgt
    have hround := rounds_round .positive 0 (show 0 < n.toNat by omega)
    rw [scaled, zpow_zero, mul_one] at hround
    exact hround

end Operations

end HueCycle.Binary64
