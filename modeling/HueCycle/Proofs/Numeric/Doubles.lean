/-
HueCycle.Proofs.Numeric.Doubles — how doubles are packed, and which
operations on them can give a value that is no number.

Sums and differences of finite numbers are numbers, whatever is rounded on
the way: only opposite infinities and operands that are no numbers lead
out of them. Main statements: `unpack_packComponents`, by which components
that were packed come out again, `isNaN_sub`, `isNaN_add`, and
`isSome_parts`, by which a double has parts exactly if it is finite.
-/
import Mathlib
import HueCycle.Numeric.Binary64

namespace HueCycle.Binary64

open Float.Model Float.Model.UnpackedFloat

/-! ## Packing -/

theorem isNaN_unpack_packComponents (s : Sign) (e : BitVec 11) (m : BitVec 52) :
    (UnpackedFloat.unpack Format.binary64 (packComponents Format.binary64 s e m)).isNaN
      = decide (e = -1#11 ∧ m ≠ 0#52) := by
  unfold UnpackedFloat.unpack
  simp only [unpackMantissa_packComponents, unpackExponent_packComponents]
  split
  · split <;> simp_all [UnpackedFloat.isNaN]
  · split
    · split <;> simp_all [UnpackedFloat.isNaN]
    · simp_all [UnpackedFloat.isNaN]

/-- Packing makes a NaN of nothing but a NaN. -/
theorem isNaN_unpack_pack (u : UnpackedFloat) :
    (Float.Model.pack u).unpack.isNaN = u.isNaN := by
  show (UnpackedFloat.unpack Format.binary64 (UnpackedFloat.pack Format.binary64 u)).isNaN = _
  cases u with
  | notANumber =>
    rw [UnpackedFloat.pack, packedNaN, isNaN_unpack_packComponents]; decide
  | infinity s =>
    rw [UnpackedFloat.pack, packedInfinity, isNaN_unpack_packComponents]
    simp [UnpackedFloat.isNaN]
  | zero s =>
    rw [UnpackedFloat.pack, packedZero, isNaN_unpack_packComponents]
    simp [UnpackedFloat.isNaN]
  | finite s m e hm =>
    rw [UnpackedFloat.pack]
    dsimp only
    split
    · rw [packedInfinity, isNaN_unpack_packComponents]
      simp [UnpackedFloat.isNaN]
    · rename_i hlow
      -- a biased exponent that does not overflow is not the one of the infinities
      have hne : BitVec.ofNat 11 (e + Format.binary64.exponentBias + 52).toNat ≠ -1#11 := by
        intro h
        have hval := congrArg BitVec.toNat h
        rw [BitVec.toNat_ofNat, show (-1#11).toNat = 2047 from by decide] at hval
        simp only [Format.binary64] at hlow hval
        omega
      split
      · rw [isNaN_unpack_packComponents, decide_eq_false (fun h => hne h.1)]
        rfl
      · rw [isNaN_unpack_packComponents]
        simp [UnpackedFloat.isNaN]

theorem unpackSign_packComponents (s : Sign) (e : BitVec 11) (m : BitVec 52) :
    Sign.ofBitVec (@unpackSign Format.binary64 (packComponents Format.binary64 s e m)) = s := by
  simp only [unpackSign, packComponents, BitVec.extractLsb]
  rw [BitVec.extractLsb'_append_eq_of_le (by omega), BitVec.extractLsb'_append_eq_of_le (by omega)]
  cases s <;> rfl

theorem toNat_one_append (m : BitVec 52) : (1#1 ++ m).toNat = 2 ^ 52 + m.toNat := by
  rw [BitVec.toNat_append, ← Nat.shiftLeft_add_eq_or_of_lt m.isLt]
  rfl

theorem toNat_pos_of_ne {m : BitVec 52} (h : m ≠ 0#52) : 0 < m.toNat := by
  rw [Nat.pos_iff_ne_zero]
  intro hzero
  exact h (BitVec.eq_of_toNat_eq hzero)

theorem one_append_pos (m : BitVec 52) : 0 < (1#1 ++ m).toNat := by
  rw [toNat_one_append]
  positivity

/-- What components are unpacked to, if the exponent is not the one of infinities. -/
theorem unpack_packComponents (s : Sign) {e : BitVec 11} (he : e ≠ -1#11) (m : BitVec 52) :
    UnpackedFloat.unpack Format.binary64 (packComponents Format.binary64 s e m) =
      if e = 0#11 then
        if h : m = 0#52 then .zero s
        else .finite s m.toNat (-1074) (toNat_pos_of_ne h)
      else .finite s (1#1 ++ m).toNat ((e.toNat : Int) - 1075) (one_append_pos m) := by
  unfold UnpackedFloat.unpack
  simp only [unpackMantissa_packComponents, unpackExponent_packComponents,
    unpackSign_packComponents, if_neg he]
  split
  · rename_i hzero
    subst hzero
    rfl
  · rfl

/-- The exponent field of a number that does not overflow. -/
theorem toNat_biased {e : Int} (hlow : -1074 ≤ e) (hhigh : e ≤ 971) :
    (BitVec.ofNat 11 (e + Format.binary64.exponentBias +
      Format.binary64.mantissaBitsWithoutImplicit).toNat).toNat = (e + 1075).toNat := by
  have hbias : (e + Format.binary64.exponentBias +
      Format.binary64.mantissaBitsWithoutImplicit).toNat = (e + 1075).toNat := by
    show (e + (1023 : Nat) + (52 : Nat)).toNat = (e + 1075).toNat
    omega
  rw [hbias, BitVec.toNat_ofNat]
  omega

theorem unpack_pack_zero (s : Sign) : (Float.Model.pack (.zero s)).unpack = .zero s := by
  cases s <;> rfl

theorem unpack_pack_infinity (s : Sign) : (Float.Model.pack (.infinity s)).unpack = .infinity s := by
  cases s <;> rfl

theorem isNaN_normalize (spec : Format) (m e : Int) (s : Sign) :
    (UnpackedFloat.normalize spec m e s).isNaN = false := by
  have hround (s : Sign) (m : Nat) (e : Int) (a : Accuracy) :
      (UnpackedFloat.roundWithAccuracy spec s m e a).isNaN = false := by
    unfold UnpackedFloat.roundWithAccuracy
    dsimp only
    split <;> rfl
  unfold UnpackedFloat.normalize UnpackedFloat.round
  dsimp only
  split
  · exact hround _ _ _ _
  · rfl
  · exact hround _ _ _ _

/-! ## Sums and differences -/

/-- A finite number and a number have a difference. -/
theorem isNaN_sub {x y : Float} (hx : x.isFinite = true) (hy : y.isNaN = false) :
    (x - y).isNaN = false := by
  change x.toModel.unpack.isFinite = true at hx
  change y.toModel.unpack.isNaN = false at hy
  show (Float.Model.pack (UnpackedFloat.sub _ x.toModel.unpack y.toModel.unpack)).unpack.isNaN = _
  rw [isNaN_unpack_pack]
  generalize x.toModel.unpack = u at hx
  generalize y.toModel.unpack = v at hy
  cases u with
  | notANumber => exact absurd hx (by simp [UnpackedFloat.isFinite])
  | infinity s => exact absurd hx (by simp [UnpackedFloat.isFinite])
  | zero s =>
    cases v with
    | notANumber => exact absurd hy (by simp [UnpackedFloat.isNaN])
    | infinity t => rfl
    | zero t => simp only [UnpackedFloat.sub]; split <;> rfl
    | finite t m e hm => rfl
  | finite s m e hm =>
    cases v with
    | notANumber => exact absurd hy (by simp [UnpackedFloat.isNaN])
    | infinity t => rfl
    | zero t => rfl
    | finite t n f hn => exact isNaN_normalize _ _ _ _

/-- A number and a finite number have a sum. -/
theorem isNaN_add {x y : Float} (hx : x.isNaN = false) (hy : y.isFinite = true) :
    (x + y).isNaN = false := by
  change x.toModel.unpack.isNaN = false at hx
  change y.toModel.unpack.isFinite = true at hy
  show (Float.Model.pack (UnpackedFloat.add _ x.toModel.unpack y.toModel.unpack)).unpack.isNaN = _
  rw [isNaN_unpack_pack]
  generalize x.toModel.unpack = u at hx
  generalize y.toModel.unpack = v at hy
  cases v with
  | notANumber => exact absurd hy (by simp [UnpackedFloat.isFinite])
  | infinity t => exact absurd hy (by simp [UnpackedFloat.isFinite])
  | zero t =>
    cases u with
    | notANumber => exact absurd hx (by simp [UnpackedFloat.isNaN])
    | infinity s => rfl
    | zero s => simp only [UnpackedFloat.add]; split <;> rfl
    | finite s m e hm => rfl
  | finite t n f hn =>
    cases u with
    | notANumber => exact absurd hx (by simp [UnpackedFloat.isNaN])
    | infinity s => rfl
    | zero s => rfl
    | finite s m e hm => exact isNaN_normalize _ _ _ _

theorem isNaN_neg (x : Float) : (-x).isNaN = x.isNaN := by
  show (Float.Model.pack x.toModel.unpack.neg).unpack.isNaN = x.toModel.unpack.isNaN
  rw [isNaN_unpack_pack]
  cases x.toModel.unpack <;> rfl

/-- What is not finite has no difference to itself. -/
theorem isNaN_sub_self {x : Float} (hx : x.isFinite = false) : (x - x).isNaN = true := by
  change x.toModel.unpack.isFinite = false at hx
  show (Float.Model.pack (UnpackedFloat.sub _ x.toModel.unpack x.toModel.unpack)).unpack.isNaN = _
  rw [isNaN_unpack_pack]
  cases hu : x.toModel.unpack with
  | notANumber => rfl
  | infinity s => cases s <;> rfl
  | zero s => rw [hu] at hx; exact absurd hx (by simp [UnpackedFloat.isFinite])
  | finite s m e hm => rw [hu] at hx; exact absurd hx (by simp [UnpackedFloat.isFinite])

/-! ## Comparisons -/

theorem unpack_eq_of_isNaN {x : Float} (hx : x.isNaN = true) :
    x.toModel.unpack = .notANumber := by
  change x.toModel.unpack.isNaN = true at hx
  cases hu : x.toModel.unpack with
  | notANumber => rfl
  | infinity s => rw [hu] at hx; exact absurd hx (by simp [UnpackedFloat.isNaN])
  | zero s => rw [hu] at hx; exact absurd hx (by simp [UnpackedFloat.isNaN])
  | finite s m e hm => rw [hu] at hx; exact absurd hx (by simp [UnpackedFloat.isNaN])

theorem lt_iff (x y : Float) :
    x < y ↔ x.toModel.unpack.compare y.toModel.unpack = some .lt := by
  show decide ((x.toModel.unpack.compare y.toModel.unpack == some .lt) = true) = true ↔ _
  simp

theorem le_iff (x y : Float) :
    x ≤ y ↔ (x.toModel.unpack.compare y.toModel.unpack).any (·.isLE) = true := by
  show decide ((x.toModel.unpack.compare y.toModel.unpack).any (·.isLE) = true) = true ↔ _
  simp

/-- What is no number is below nothing, equal to nothing and above nothing. -/
theorem compare_of_isNaN {x : Float} (hx : x.isNaN = true) (y : Float) :
    (x == y) = false ∧ ¬ x < y ∧ ¬ y ≤ x := by
  have hu := unpack_eq_of_isNaN hx
  have hflip : y.toModel.unpack.compare .notANumber = none := by
    cases y.toModel.unpack with
    | infinity s => cases s <;> rfl
    | notANumber => rfl
    | zero s => rfl
    | finite s m e hm => cases s <;> rfl
  refine ⟨?_, ?_, ?_⟩
  · show (x.toModel.unpack.compare y.toModel.unpack == some .eq) = false
    rw [hu]
    rfl
  · rw [lt_iff, hu, UnpackedFloat.compare.eq_1]
    simp
  · rw [le_iff, hu, hflip]
    simp

/-! ## Parts -/

theorem toNat_unpackExponent (b : BitVec 64) :
    (@unpackExponent Format.binary64 b).toNat
      = b.toNat / 0x10000000000000 % 0x800 := by
  rw [unpackExponent, BitVec.toNat_cast, BitVec.extractLsb_toNat, Nat.shiftRight_eq_div_pow]
  rfl

/-- A double has parts exactly if it is finite. -/
theorem isSome_parts (x : Float) : (parts x).isSome = x.isFinite := by
  have hexp : (@unpackExponent Format.binary64 x.toModel.toBits.toBitVec = -1#11)
      ↔ x.toBits.toNat / 0x10000000000000 % 0x800 = 2047 := by
    rw [← BitVec.toNat_inj, toNat_unpackExponent, show (-1#11).toNat = 2047 from by decide]
    rfl
  have hfin : x.isFinite = decide (x.toBits.toNat / 0x10000000000000 % 0x800 ≠ 2047) := by
    show (UnpackedFloat.unpack Format.binary64 x.toModel.toBits.toBitVec).isFinite = _
    unfold UnpackedFloat.unpack
    simp only [hexp]
    split
    · split <;> simp_all [UnpackedFloat.isFinite]
    · split
      · split <;> simp_all [UnpackedFloat.isFinite]
      · simp_all [UnpackedFloat.isFinite]
  rw [hfin]
  simp only [parts]
  split
  · simp_all
  · split <;> simp_all

/-- Doubles with the same bits are the same. -/
theorem toBits_injective {x y : Float} (h : x.toBits = y.toBits) : x = y := by
  obtain ⟨⟨xb, xv⟩⟩ := x
  obtain ⟨⟨yb, yv⟩⟩ := y
  change xb = yb at h
  subst h
  rfl

end HueCycle.Binary64
