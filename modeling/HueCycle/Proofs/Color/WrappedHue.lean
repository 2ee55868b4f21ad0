/-
HueCycle.Proofs.Color.WrappedHue — a hue within a turn, whichever way sums
are rounded.

Bringing a hue into a turn adds one to what is left below zero, and this is
the only sum in it. Nothing more is used of that sum than that rounding keeps
the order of numbers and leaves doubles as they are (`RoundsBy`): then it
lies between zero and one, and a sum that reaches one is replaced by zero.
What lies between zero and below one is left alone bit by bit, a zero with
its sign (`fract_of_lt_one`), so a hue within its turn is wrapped to itself,
and pixels and looks take the same hue from it.

  §1 Rounding — the ways to round sums, the nearest double among them
  §2 Parts    — what the integer part leaves of a number below one
  §3 Hues     — `Hsv.wraps_however_rounded`
-/
import Mathlib
import HueCycle.Proofs.Color.Channels
import HueCycle.Proofs.Color.HueInTurn
import HueCycle.Proofs.Schedule
import HueCycle.Render.Renderer

namespace HueCycle

open Binary64

namespace Binary64

open Float.Model Float.Model.UnpackedFloat

/-! ## §1 Rounding -/

/-- Sums of doubles are rounded sums of numbers, where these do not exceed all doubles. Rounding
keeps the order and fixes the numbers that doubles stand for. -/
structure RoundsBy (round : ℚ → ℚ) (plus : Float → Float → Float) : Prop where
  mono : Monotone round
  fixes {x : Float} {v : ℚ} : HasValue x v → round v = v
  sums {x y a b : Float} {v w lo hi : ℚ} : HasValue x v → HasValue y w → HasValue a lo →
    HasValue b hi → lo ≤ v + w → v + w ≤ hi → HasValue (plus x y) (round (v + w))

/-- A sum lies between any two doubles that the exact sum lies between. -/
theorem RoundsBy.between {round : ℚ → ℚ} {plus : Float → Float → Float} (h : RoundsBy round plus)
    {x y a b : Float} {v w lo hi : ℚ} (hx : HasValue x v) (hy : HasValue y w)
    (ha : HasValue a lo) (hb : HasValue b hi) (hlow : lo ≤ v + w) (hhigh : v + w ≤ hi) :
    ∃ s, HasValue (plus x y) s ∧ lo ≤ s ∧ s ≤ hi := by
  refine ⟨round (v + w), h.sums hx hy ha hb hlow hhigh, ?_, ?_⟩
  · exact (h.fixes ha).symm.trans_le (h.mono hlow)
  · exact (h.mono hhigh).trans_eq (h.fixes hb)

/-- Every number is rounded to a double. -/
theorem exists_nearestTo (r : ℚ) : ∃ x, NearestTo r x := by
  rcases eq_or_ne r 0 with rfl | hne
  · exact ⟨_, nearestTo_self hasValue_ofNat_zero⟩
  · have hrounds := rounds_div (signOf (decide (r < 0))) (signOf false) 0 0
      (Int.natAbs_pos.mpr (Rat.num_ne_zero.mpr hne)) r.den_pos
    have hmagnitude : scaled r.num.natAbs 0 / scaled r.den 0 = |r| := by
      rw [scaled, scaled, zpow_zero, mul_one, mul_one, Nat.cast_natAbs, Int.cast_abs]
      conv_rhs => rw [← Rat.num_div_den r, abs_div, Nat.abs_cast]
    rw [signOf_div, Bool.xor_false, hmagnitude] at hrounds
    have hsigned := roundsSigned_of_rounds _ (abs_nonneg r) hrounds
    have hvalue : (if decide (r < 0) = true then -|r| else |r|) = r := by
      split
      · rename_i hneg
        rw [abs_of_neg (of_decide_eq_true hneg), neg_neg]
      · rename_i hnonneg
        exact abs_of_nonneg (not_lt.mp (mt decide_eq_true hnonneg))
    rw [hvalue] at hsigned
    exact ⟨_, hsigned.packed⟩

/-- A number is rounded to a finite double exactly if it is below the overflow. -/
theorem NearestTo.exists_hasValue_iff {r : ℚ} {x : Float} (h : NearestTo r x) :
    (∃ v, HasValue x v) ↔ |r| < overflow := by
  refine ⟨fun ⟨v, p, hp, _⟩ => ?_, h.exists_hasValue⟩
  obtain ⟨negative, hnearest, -⟩ := h
  exact Nearest.lt_overflow hnearest hp

open Classical in
/-- The number that the nearest double stands for; beyond all doubles, the number itself. -/
noncomputable def nearestNumber (r : ℚ) : ℚ :=
  if h : ∃ v, HasValue (exists_nearestTo r).choose v then h.choose else r

theorem nearestNumber_eq {r v : ℚ} {x : Float} (h : NearestTo r x) (hx : HasValue x v) :
    nearestNumber r = v := by
  have hchosen := (exists_nearestTo r).choose_spec
  have hvalue := hchosen.exists_hasValue_iff.mpr (h.exists_hasValue_iff.mp ⟨v, hx⟩)
  rw [nearestNumber, dif_pos hvalue]
  exact le_antisymm (hchosen.mono h le_rfl hvalue.choose_spec hx)
    (h.mono hchosen le_rfl hx hvalue.choose_spec)

theorem nearestNumber_of_overflow {r : ℚ} (h : overflow ≤ |r|) : nearestNumber r = r := by
  rw [nearestNumber, dif_neg]
  rw [(exists_nearestTo r).choose_spec.exists_hasValue_iff]
  exact not_lt.mpr h

/-- Below the overflow the nearest number is below the overflow. -/
theorem exists_nearestNumber {r : ℚ} (h : |r| < overflow) :
    ∃ x, NearestTo r x ∧ HasValue x (nearestNumber r) := by
  obtain ⟨x, hx⟩ := exists_nearestTo r
  obtain ⟨v, hv⟩ := hx.exists_hasValue h
  rw [nearestNumber_eq hx hv]
  exact ⟨x, hx, hv⟩

theorem monotone_nearestNumber : Monotone nearestNumber := by
  intro r r' hle
  rcases lt_or_ge |r| overflow with hr | hr <;> rcases lt_or_ge |r'| overflow with hr' | hr'
  · obtain ⟨x, hx, hv⟩ := exists_nearestNumber hr
    obtain ⟨x', hx', hv'⟩ := exists_nearestNumber hr'
    exact hx.mono hx' hle hv hv'
  · -- the larger one lies beyond all doubles
    obtain ⟨x, hx, hv⟩ := exists_nearestNumber hr
    have hbeyond : overflow ≤ r' := by
      rcases le_abs.mp hr' with hpos | hneg
      · exact hpos
      · have := (abs_lt.mp hr).1
        linarith
    rw [nearestNumber_of_overflow hr']
    exact ((le_abs_self _).trans hv.abs_lt_overflow.le).trans hbeyond
  · obtain ⟨x', hx', hv'⟩ := exists_nearestNumber hr'
    have hbeyond : r ≤ -overflow := by
      rcases le_abs.mp hr with hpos | hneg
      · have := (abs_lt.mp hr').2
        linarith
      · linarith
    rw [nearestNumber_of_overflow hr]
    exact hbeyond.trans (abs_lt.mp hv'.abs_lt_overflow).1.le
  · rwa [nearestNumber_of_overflow hr, nearestNumber_of_overflow hr']

/-- **Sums of doubles are rounded in such a way.** -/
theorem roundsBy_add : RoundsBy nearestNumber (· + ·) where
  mono := monotone_nearestNumber
  fixes hx := nearestNumber_eq (nearestTo_self hx) hx
  sums hx hy ha hb hlow hhigh := by
    have hsum := nearestTo_add hx hy
    obtain ⟨s, hs, -⟩ := hsum.between ha hb hlow hhigh
    rwa [nearestNumber_eq hsum hs]

/-! ## §2 Parts -/

/-- A double that stands for a number above zero is the only one. -/
theorem HasValue.eq_of_pos {x y : Float} {v : ℚ} (hx : HasValue x v) (hy : HasValue y v)
    (hv : 0 < v) : x = y := by
  have hmost := hx.abs_lt_overflow
  obtain ⟨negative, hnearest, hsign, -⟩ := nearestTo_self hx
  obtain ⟨negative', hnearest', hsign', -⟩ := nearestTo_self hy
  obtain rfl := hsign hv
  obtain rfl := hsign' hv
  exact Nearest.unique hnearest hnearest' hmost

/-- A double that stands for zero is the zero of its sign. -/
theorem HasValue.eq_signed_zero {x : Float} (h : HasValue x 0) : x = signed (isNegative x) 0 := by
  obtain ⟨p, hp, hvalue⟩ := h
  have hmantissa : p.mantissa = 0 := by
    by_contra hne
    have hpos := Parts.magnitude_pos hne
    rw [← p.abs_value, hvalue, abs_zero] at hpos
    exact lt_irrefl 0 hpos
  have hsign : p.negative = isNegative x := by
    unfold parts at hp
    dsimp only at hp
    split at hp
    · cases hp
    · split at hp <;> obtain rfl := Option.some.inj hp <;> rfl
  have hfull := (canonical_of_parts hp).full
  have hzero : parts (signed (isNegative x) 0) = some ⟨isNegative x, 0, -1074⟩ := by
    cases isNegative x <;> rfl
  refine eq_of_parts (hp.trans ?_) hzero
  obtain ⟨s, m, e⟩ := p
  dsimp only at hmantissa hsign hfull
  rw [hmantissa, hsign, show e = -1074 by omega]

/-- **A number from zero to below one has no integer part**: all of it is left. -/
theorem fract_of_lt_one {x : Float} {v : ℚ} (hx : HasValue x v) (hlow : 0 ≤ v) (hhigh : v < 1) :
    fract x = x := by
  have htrunc : HasValue (trunc x) 0 := by
    obtain ⟨p, hp, rfl⟩ := hx
    obtain ⟨q, hq, -, hmagnitude⟩ := parts_trunc hp
    refine ⟨q, hq, ?_⟩
    rw [← p.abs_value, abs_of_nonneg hlow, Nat.floor_eq_zero.mpr hhigh, Nat.cast_zero] at hmagnitude
    rw [Parts.value, hmagnitude, neg_zero, ite_self]
  have hrest : HasValue (x - trunc x) v := by
    have hdifference := nearestTo_sub hx htrunc
    rw [sub_zero] at hdifference
    exact hdifference.exact hx
  have hzero := hrest.beq_iff hasValue_ofNat_zero
  unfold fract
  dsimp only
  split
  · rename_i hnone
    obtain rfl := hzero.mp hnone
    exact hx.eq_signed_zero.symm
  · rename_i hsome
    exact hrest.eq_of_pos hx (hlow.lt_of_ne fun h => hsome (hzero.mpr h.symm))

end Binary64

/-! ## §3 Hues -/

/-- Doubles with sums of another kind. -/
abbrev Scalar.withSum (plus : Float → Float → Float) : Scalar Float :=
  { instScalarFloat with add := plus }

namespace Hsv

/-- What is promised of finite hues within a turn, and of those that are not finite. -/
structure WrapsHues [Scalar Float] : Prop where
  within (hue : Float) : hue.isFinite = true → 0.0 ≤ hueInTurn hue ∧ hueInTurn hue < 1.0
  again (hue : Float) : hue.isFinite = true →
    (hueInTurn (hueInTurn hue)).toBits = (hueInTurn hue).toBits
  recolor (hue : Float) : hue.isFinite = true → ∀ (p : Pixel) (factor : Float),
    p.recolor hue factor = p.recolor (hueInTurn hue) factor
  number (hue : Float) : (hueInTurn hue).isNaN = true ↔ hue.isFinite = false
  apart (hue other : Float) : hue.isFinite = true → other.isFinite = false →
    (hueInTurn hue).toBits ≠ (hueInTurn other).toBits

section Rounded

variable {round : ℚ → ℚ} {plus : Float → Float → Float} {x : Float} {v : ℚ}

/-- What is added to what is left of a negative number keeps it between zero and one. -/
theorem hasValue_fractUp_withSum (h : RoundsBy round plus) (hx : HasValue x v) :
    ∃ w, HasValue (@Scalar.fractUp _ (.withSum plus) x) w ∧ 0 ≤ w ∧ w ≤ 1 := by
  obtain ⟨w, hw, hlow, hhigh⟩ := hasValue_fract hx
  show ∃ w, HasValue (if decide (fract x < Float.ofNat 0) then plus (fract x) (Float.ofNat 1)
    else fract x) w ∧ 0 ≤ w ∧ w ≤ 1
  split
  · rename_i hneg
    have hw0 : w < 0 := (hw.lt_iff hasValue_ofNat_zero).mp (of_decide_eq_true hneg)
    exact h.between hw hasValue_ofNat_one hasValue_ofNat_zero hasValue_ofNat_one (by linarith)
      (by linarith)
  · rename_i hnonneg
    have hw0 : ¬ w < 0 := fun h => hnonneg (decide_eq_true ((hw.lt_iff hasValue_ofNat_zero).mpr h))
    exact ⟨w, hw, not_lt.mp hw0, hhigh⟩

/-- **A finite hue within a turn** lies between zero and below one. -/
theorem hasValue_hueInTurn_withSum (h : RoundsBy round plus) (hx : HasValue x v) :
    ∃ w, HasValue (@hueInTurn _ (.withSum plus) x) w ∧ 0 ≤ w ∧ w < 1 := by
  obtain ⟨w, hw, hlow, hhigh⟩ := hasValue_fractUp_withSum h hx
  show ∃ w, HasValue (if decide (Float.ofNat 1 ≤ @Scalar.fractUp _ (.withSum plus) x) then
    Float.ofNat 0 else @Scalar.fractUp _ (.withSum plus) x) w ∧ 0 ≤ w ∧ w < 1
  split
  · exact ⟨0, hasValue_ofNat_zero, le_rfl, zero_lt_one⟩
  · rename_i hbelow
    exact ⟨w, hw, hlow, not_le.mp fun hone =>
      hbelow (decide_eq_true ((hasValue_ofNat_one.le_iff hw).mpr hone))⟩

/-- **A hue that lies within its turn stays as it is.** -/
theorem hueInTurn_withSum_of_lt_one (hx : HasValue x v) (hlow : 0 ≤ v) (hhigh : v < 1) :
    @hueInTurn _ (.withSum plus) x = x := by
  have hturned : @Scalar.fractUp _ (.withSum plus) x = x := by
    show (if decide (fract x < Float.ofNat 0) then plus (fract x) (Float.ofNat 1)
      else fract x) = x
    rw [fract_of_lt_one hx hlow hhigh, if_neg]
    exact mt of_decide_eq_true (mt (hx.lt_iff hasValue_ofNat_zero).mp (not_lt.mpr hlow))
  show (if decide (Float.ofNat 1 ≤ @Scalar.fractUp _ (.withSum plus) x) then Float.ofNat 0
    else @Scalar.fractUp _ (.withSum plus) x) = x
  rw [hturned, if_neg]
  exact mt of_decide_eq_true (mt (hasValue_ofNat_one.le_iff hx).mp (not_le.mpr hhigh))

/-- A hue that is not finite stays no number. -/
theorem isNaN_hueInTurn_withSum (hx : x.isFinite = false) :
    (@hueInTurn _ (.withSum plus) x).isNaN = true := by
  have hrest : (fract x).isNaN = true := by rw [isNaN_fract, hx]; rfl
  obtain ⟨-, hless, -⟩ := compare_of_isNaN hrest (Float.ofNat 0)
  obtain ⟨-, -, hmore⟩ := compare_of_isNaN hrest (Float.ofNat 1)
  have hturned : @Scalar.fractUp _ (.withSum plus) x = fract x :=
    if_neg (mt of_decide_eq_true hless)
  show (if decide (Float.ofNat 1 ≤ @Scalar.fractUp _ (.withSum plus) x) then Float.ofNat 0
    else @Scalar.fractUp _ (.withSum plus) x).isNaN = true
  rw [hturned, if_neg (mt of_decide_eq_true hmore)]
  exact hrest

/-- Hues are wrapped as promised, however sums are rounded. -/
theorem wrapsHues_withSum (h : RoundsBy round plus) : @WrapsHues (.withSum plus) := by
  let _ : Scalar Float := .withSum plus
  have hvalue (hue : Float) (hfinite : hue.isFinite = true) :
      ∃ w, HasValue (hueInTurn hue) w ∧ 0 ≤ w ∧ w < 1 := by
    obtain ⟨v, hv⟩ := exists_hasValue hfinite
    exact hasValue_hueInTurn_withSum h hv
  have hagain (hue : Float) (hfinite : hue.isFinite = true) :
      hueInTurn (hueInTurn hue) = hueInTurn hue := by
    obtain ⟨w, hw, hlow, hhigh⟩ := hvalue hue hfinite
    exact hueInTurn_withSum_of_lt_one hw hlow hhigh
  have hnumber (hue : Float) : (hueInTurn hue).isNaN = true ↔ hue.isFinite = false := by
    cases hfinite : hue.isFinite with
    | false => exact iff_of_true (isNaN_hueInTurn_withSum hfinite) rfl
    | true =>
      obtain ⟨w, hw, -⟩ := hvalue hue hfinite
      rw [hw.isNaN]
      exact iff_of_false Bool.false_ne_true (by decide)
  refine ⟨fun hue hfinite => ?_, fun hue hfinite => congrArg _ (hagain hue hfinite),
    fun hue hfinite p factor => ?_, hnumber, fun hue other hfinite hother hsame => ?_⟩
  · obtain ⟨w, hw, hlow, hhigh⟩ := hvalue hue hfinite
    exact ⟨(hasValue_zero.le_iff hw).mpr hlow, (hw.lt_iff hasValue_one).mpr hhigh⟩
  · simp only [Pixel.recolor, hagain hue hfinite]
  · have hnan := (hnumber other).mpr hother
    rw [← toBits_injective hsame, hnumber hue, hfinite] at hnan
    cases hnan

end Rounded

/-- **Hues within a turn.** Take sums of doubles to be exact sums that are rounded in any way that
keeps the order and leaves doubles as they are; sums of doubles are one of these. Then every finite
hue is brought to a double from zero to below one, and that double to itself, bit by bit, so that
any pixel is recoloured with it, by any factor, as with the hue. A hue becomes no number exactly if
it is not finite, so that a finite hue never has the bits of one that is not, and no cue with a
finite hue has the look of a cue without one. -/
theorem wraps_however_rounded :
    WrapsHues ∧ (∃ round, RoundsBy round (· + ·)) ∧
    (∀ c d : Cue, c.hue.isFinite = true → d.hue.isFinite = false →
      Render.lookOf c ≠ Render.lookOf d) ∧
    ∀ round plus, RoundsBy round plus → @WrapsHues (.withSum plus) := by
  have hdoubles : WrapsHues := wrapsHues_withSum roundsBy_add
  refine ⟨hdoubles, ⟨_, roundsBy_add⟩, fun c d hc hd hsame => ?_,
    fun round plus h => wrapsHues_withSum h⟩
  exact hdoubles.apart c.hue d.hue hc hd (Prod.mk.inj hsame).1

/-- Just below zero the sum is rounded to a whole turn, which is hue zero. -/
theorem wraps_however_rounded_below_zero :
    Scalar.fractUp (-1e-20 : Float) = 1.0 ∧ hueInTurn (-1e-20 : Float) = 0.0 ∧
      (hueInTurn (hueInTurn (-1e-20 : Float))).toBits = (hueInTurn (-1e-20 : Float)).toBits ∧
      (-1e-20 : Float).isFinite = true :=
  ⟨by decide +kernel, by decide +kernel,
    wraps_however_rounded.1.again _ (by decide +kernel), by decide +kernel⟩

end Hsv

end HueCycle
