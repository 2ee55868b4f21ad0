/-
HueCycle.Proofs.Color.Channels — the channels of a pixel before and after its
colour went through hue, saturation and value, over doubles.

A colour whose smallest channel is zero has saturation one, or zero if it is
black. A hue, such a saturation and a value `v` become three channels: `v`
itself, zero, and one between them, and the hue only decides which is which.
So recolouring a pixel with a zero among its channels leaves a zero among
them and cuts the scaled value to the largest one
(`Pixel.recolor_extremes`), and keeping the red part makes such a pixel
(`Pixel.keepRed_extremes`).

  §1 Numbers     — order, samples, hues within a turn
  §2 From a hue  — `Hsv.spans_toRgb`
  §3 From a pixel — `Hsv.ofRgb`
  §4 Pixels
-/
import Mathlib
import HueCycle.Color.Recolor
import HueCycle.Proofs.Numeric.IntegerParts

namespace HueCycle

open Binary64

/-! ## §1 Numbers -/

section Numbers

variable {x y : Float} {v w : ℚ}

theorem hasValue_larger (hx : HasValue x v) (hy : HasValue y w) :
    HasValue (Scalar.larger x y) (max v w) := by
  show HasValue (if x.isNaN then y else if decide (x < y) then y else x) (max v w)
  rw [hx.isNaN]
  by_cases hlt : v < w
  · rw [if_neg (by decide), if_pos (decide_eq_true ((hx.lt_iff hy).mpr hlt)), max_eq_right hlt.le]
    exact hy
  · rw [if_neg (by decide), if_neg (mt of_decide_eq_true (mt (hx.lt_iff hy).mp hlt)),
      max_eq_left (not_lt.mp hlt)]
    exact hx

theorem hasValue_smaller (hx : HasValue x v) (hy : HasValue y w) :
    HasValue (Scalar.smaller x y) (min v w) := by
  show HasValue (if x.isNaN then y else if decide (y < x) then y else x) (min v w)
  rw [hx.isNaN]
  by_cases hlt : w < v
  · rw [if_neg (by decide), if_pos (decide_eq_true ((hy.lt_iff hx).mpr hlt)), min_eq_right hlt.le]
    exact hy
  · rw [if_neg (by decide), if_neg (mt of_decide_eq_true (mt (hy.lt_iff hx).mp hlt)),
      min_eq_left (not_lt.mp hlt)]
    exact hx

/-- A channel in the range of samples is cut to a whole number. -/
theorem toNat_sampleOf (hx : HasValue x v) (hlow : 0 ≤ v) (hhigh : v ≤ 255) :
    (sampleOf x).toNat = ⌊v⌋₊ := by
  have hmost : HasValue (Float.ofNat 255) 255 := hasValue_ofNat (n := 255) (by decide)
  have hbelow : ¬ x < Float.ofNat 0 := mt (hx.lt_iff hasValue_ofNat_zero).mp (not_lt.mpr hlow)
  have habove : ¬ Float.ofNat 255 < x := mt (hmost.lt_iff hx).mp (not_lt.mpr hhigh)
  have hfloor : ⌊v⌋₊ < 256 := by
    rw [Nat.floor_lt hlow]
    exact hhigh.trans_lt (by norm_num)
  show (UInt8.ofNat (toInt (if decide (x < Float.ofNat 0) then Float.ofNat 0
    else if decide (Float.ofNat 255 < x) then Float.ofNat 255 else x)).toNat).toNat = _
  rw [if_neg (mt of_decide_eq_true hbelow), if_neg (mt of_decide_eq_true habove),
    toInt_of_nonneg hx hlow (hhigh.trans_lt (by norm_num)), Int.toNat_natCast, UInt8.toNat_ofNat',
    Nat.mod_eq_of_lt hfloor]

/-- **The hue within a turn** of a finite hue lies between zero and one. -/
theorem Hsv.hasValue_hueInTurn (hx : HasValue x v) :
    ∃ w, HasValue (hueInTurn x) w ∧ 0 ≤ w ∧ w ≤ 1 := by
  obtain ⟨w, hw, hlow, hhigh⟩ := hasValue_fractUp hx
  show ∃ w, HasValue (if decide (Float.ofNat 1 ≤ Scalar.fractUp x) then Float.ofNat 0
    else Scalar.fractUp x) w ∧ 0 ≤ w ∧ w ≤ 1
  split
  · exact ⟨0, hasValue_ofNat_zero, le_rfl, zero_le_one⟩
  · exact ⟨w, hw, hlow, hhigh⟩

end Numbers

/-! ## §2 From a hue -/

/-- The channels of a colour. -/
def Rgb.toList {α : Type} (c : Rgb α) : List α := [c.red, c.green, c.blue]

/-- Channels from zero to `v`, where both ends occur. -/
structure Rgb.Spans (c : Rgb Float) (v : ℚ) : Prop where
  between : ∀ x ∈ c.toList, ∃ w, HasValue x w ∧ 0 ≤ w ∧ w ≤ v
  bottom : ∃ x ∈ c.toList, HasValue x 0
  top : ∃ x ∈ c.toList, HasValue x v

/-- Channels that are the value, zero and something between, in any order. -/
theorem Rgb.spans_of_perm {c : Rgb Float} {x y z : Float} {v : ℚ} (hv : 0 ≤ v)
    (hx : HasValue x v) (hy : HasValue y 0) (hz : ∃ w, HasValue z w ∧ 0 ≤ w ∧ w ≤ v)
    (hperm : c.toList.Perm [x, y, z]) : c.Spans v where
  between a ha := by
    rcases List.mem_cons.mp (hperm.mem_iff.mp ha) with rfl | ha
    · exact ⟨v, hx, hv, le_rfl⟩
    · rcases List.mem_cons.mp ha with rfl | ha
      · exact ⟨0, hy, le_rfl, hv⟩
      · rwa [List.mem_singleton.mp ha]
  bottom := ⟨y, hperm.mem_iff.mpr (List.mem_cons_of_mem _ List.mem_cons_self), hy⟩
  top := ⟨x, hperm.mem_iff.mpr List.mem_cons_self, hx⟩

namespace Hsv

section Levels

variable {value saturation part : Float} {v w : ℚ}

/-- One minus a number between zero and one is such a number. -/
theorem hasValue_one_sub (hpart : HasValue part w) (hlow : 0 ≤ w) (hhigh : w ≤ 1) :
    ∃ u, HasValue (Float.ofNat 1 - part) u ∧ 0 ≤ u ∧ u ≤ 1 := by
  exact (nearestTo_sub hasValue_ofNat_one hpart).between_zero_one (by linarith) (by linarith)

/-- A product with a number between zero and one does not exceed the other factor. -/
theorem hasValue_mul_part (hvalue : HasValue value v) (hv : 0 ≤ v) (hpart : HasValue part w)
    (hlow : 0 ≤ w) (hhigh : w ≤ 1) : ∃ u, HasValue (value * part) u ∧ 0 ≤ u ∧ u ≤ v := by
  exact (nearestTo_mul hvalue hpart).between hasValue_ofNat_zero hvalue (mul_nonneg hv hlow)
    (mul_le_of_le_one_right hv hhigh)

/-- A mixing level at full saturation lies between zero and the value. -/
theorem hasValue_level (hvalue : HasValue value v) (hv : 0 ≤ v) (hsaturation : HasValue saturation 1)
    (hpart : HasValue part w) (hlow : 0 ≤ w) (hhigh : w ≤ 1) :
    ∃ u, HasValue (value * (Float.ofNat 1 - saturation * part)) u ∧ 0 ≤ u ∧ u ≤ v := by
  obtain ⟨s, hs, hslow, hshigh⟩ := hasValue_mul_part hsaturation zero_le_one hpart hlow hhigh
  obtain ⟨t, ht, htlow, hthigh⟩ := hasValue_one_sub hs hslow hshigh
  exact hasValue_mul_part hvalue hv ht htlow hthigh

/-- The lowest level at full saturation is zero. -/
theorem hasValue_low (hvalue : HasValue value v) (hsaturation : HasValue saturation 1) :
    HasValue (value * (Float.ofNat 1 - saturation)) 0 := by
  have hrest := nearestTo_sub hasValue_ofNat_one hsaturation
  rw [sub_self] at hrest
  have hproduct := nearestTo_mul hvalue (hrest.exact hasValue_ofNat_zero)
  rw [mul_zero] at hproduct
  exact hproduct.exact hasValue_ofNat_zero

end Levels

/-- **What becomes of a hue**: at saturation one the channels span from zero to the value, in
whichever sixth of the circle the hue lies; black stays black. -/
theorem spans_toRgb {c : Hsv Float} {v : ℚ} (hvalue : HasValue c.value v) (hv : 0 ≤ v)
    (h : HasValue c.saturation 0 ∧ v = 0 ∨
      HasValue c.saturation 1 ∧ ∃ w, HasValue c.hue w ∧ 0 ≤ w ∧ w ≤ 1) :
    c.toRgb.Spans v := by
  rcases h with ⟨hsaturation, rfl⟩ | ⟨hsaturation, w, hhue, hlow, hhigh⟩
  · have hgrey : c.toRgb = ⟨c.value, c.value, c.value⟩ :=
      if_pos ((hsaturation.beq_iff hasValue_ofNat_zero).mpr rfl)
    rw [hgrey]
    exact Rgb.spans_of_perm le_rfl hvalue hvalue ⟨0, hvalue, le_rfl, le_rfl⟩ (List.Perm.refl _)
  · have hcolour : ¬ Scalar.eq c.saturation (Scalar.whole 0) = true :=
      mt (hsaturation.beq_iff hasValue_ofNat_zero).mp one_ne_zero
    obtain ⟨s, hscaled, hslow, -⟩ := (nearestTo_mul hhue hasValue_ofNat_six).between
      hasValue_ofNat_zero hasValue_ofNat_six (by positivity) (by linarith)
    obtain ⟨t, ht, hpositive, -⟩ := hasValue_trunc hscaled
    obtain ⟨hwithin, hwithin'⟩ := hpositive hslow
    obtain ⟨u, hu, hulow, huhigh⟩ := (nearestTo_sub hscaled ht).between_zero_one hwithin hwithin'
    obtain ⟨u', hu', hulow', huhigh'⟩ := hasValue_one_sub hu hulow huhigh
    have hlowest := hasValue_low hvalue hsaturation
    have hfalling := hasValue_level hvalue hv hsaturation hu hulow huhigh
    have hrising := hasValue_level hvalue hv hsaturation hu' hulow' huhigh'
    rw [toRgb, if_neg hcolour]
    dsimp only
    -- each sixth deals out the value, the lowest level and one of the other two in its own order
    split
    · exact Rgb.spans_of_perm hv hvalue hlowest hrising (.cons _ (.swap _ _ []))
    · exact Rgb.spans_of_perm hv hvalue hlowest hfalling (List.perm_append_singleton _ [_, _]).symm
    · exact Rgb.spans_of_perm hv hvalue hlowest hrising (.swap _ _ [_])
    · exact Rgb.spans_of_perm hv hvalue hlowest hfalling (List.perm_append_singleton _ [_, _])
    · exact Rgb.spans_of_perm hv hvalue hlowest hrising (List.reverse_perm [_, _, _])
    · exact Rgb.spans_of_perm hv hvalue hlowest hfalling (List.Perm.refl _)

end Hsv

/-! ## §3 From a pixel -/

namespace Pixel

/-- The largest of the three colour channels. -/
def largest (p : Pixel) : Nat := max (max p.red.toNat p.green.toNat) p.blue.toNat

/-- The smallest of the three colour channels. -/
def smallest (p : Pixel) : Nat := min (min p.red.toNat p.green.toNat) p.blue.toNat

/-- The largest channel as a double. -/
def top (p : Pixel) : Float :=
  Scalar.larger (Scalar.larger (Float.ofNat p.red.toNat) (Float.ofNat p.green.toNat))
    (Float.ofNat p.blue.toNat)

/-- The smallest channel as a double. -/
def bottom (p : Pixel) : Float :=
  Scalar.smaller (Scalar.smaller (Float.ofNat p.red.toNat) (Float.ofNat p.green.toNat))
    (Float.ofNat p.blue.toNat)

theorem hasValue_sample (n : UInt8) : HasValue (Float.ofNat n.toNat) n.toNat :=
  hasValue_ofNat (n.toNat_lt.trans (by decide))

theorem largest_le (p : Pixel) : p.largest ≤ 255 := by
  have hr := p.red.toNat_lt
  have hg := p.green.toNat_lt
  have hb := p.blue.toNat_lt
  rw [largest]
  omega

theorem hasValue_top (p : Pixel) : HasValue p.top p.largest := by
  rw [largest, Nat.cast_max, Nat.cast_max]
  exact hasValue_larger (hasValue_larger (hasValue_sample _) (hasValue_sample _)) (hasValue_sample _)

theorem hasValue_bottom (p : Pixel) : HasValue p.bottom p.smallest := by
  rw [smallest, Nat.cast_min, Nat.cast_min]
  exact hasValue_smaller (hasValue_smaller (hasValue_sample _) (hasValue_sample _))
    (hasValue_sample _)

/-- How far a channel is below the largest one is exact. -/
theorem hasValue_top_sub (p : Pixel) {x : Float} {n : Nat} (hx : HasValue x n)
    (hn : n ≤ p.largest) : HasValue (p.top - x) (p.largest - n : Nat) := by
  have hdifference := nearestTo_sub p.hasValue_top hx
  rw [← Nat.cast_sub hn] at hdifference
  have := p.largest_le
  exact hdifference.exact (hasValue_ofNat (by omega))

end Pixel

namespace Hsv

variable (p : Pixel)

theorem ofRgb_of_grey (h : p.smallest = p.largest) :
    ofRgb (p.channels (α := Float)) = ⟨Float.ofNat 0, Float.ofNat 0, p.top⟩ := by
  have hgrey : Scalar.eq p.bottom p.top = true :=
    (p.hasValue_bottom.beq_iff p.hasValue_top).mpr (congrArg _ h)
  exact if_pos hgrey

theorem ofRgb_of_colour (h : p.smallest < p.largest) :
    ofRgb (p.channels (α := Float)) =
      ⟨Scalar.fractUp (sixths p.channels p.top (p.top - p.bottom) / Float.ofNat 6),
        (p.top - p.bottom) / p.top, p.top⟩ := by
  have hcolour : ¬ Scalar.eq p.bottom p.top = true := by
    rw [show Scalar.eq p.bottom p.top = (p.bottom == p.top) from rfl,
      p.hasValue_bottom.beq_iff p.hasValue_top]
    exact_mod_cast h.ne
  exact if_neg hcolour

/-- The distance of a channel from the largest one is a part of the distance of the smallest. -/
theorem hasValue_distance (h : p.smallest < p.largest) (n : UInt8)
    (hlow : p.smallest ≤ n.toNat) (hhigh : n.toNat ≤ p.largest) :
    ∃ w, HasValue ((p.top - Float.ofNat n.toNat) / (p.top - p.bottom)) w ∧ 0 ≤ w ∧ w ≤ 1 := by
  have hpart := p.hasValue_top_sub (Pixel.hasValue_sample n) hhigh
  have hrange := p.hasValue_top_sub p.hasValue_bottom h.le
  have hpos : (0 : ℚ) < (p.largest - p.smallest : Nat) := by exact_mod_cast Nat.sub_pos_of_lt h
  refine (nearestTo_div hpart hrange hpos.ne').between_zero_one
    (div_nonneg (Nat.cast_nonneg _) hpos.le) ?_
  rw [div_le_one hpos]
  exact_mod_cast Nat.sub_le_sub_left hlow _

/-- The hue in sixths of a turn is finite. -/
theorem hasValue_sixths (h : p.smallest < p.largest) :
    ∃ w, HasValue (sixths p.channels p.top (p.top - p.bottom)) w ∧ -6 ≤ w ∧ w ≤ 6 := by
  have hordered (n : UInt8) (hn : n = p.red ∨ n = p.green ∨ n = p.blue) :
      p.smallest ≤ n.toNat ∧ n.toNat ≤ p.largest := by
    rw [Pixel.smallest, Pixel.largest]
    rcases hn with rfl | rfl | rfl <;> omega
  have hdistance (n : UInt8) (hn : n = p.red ∨ n = p.green ∨ n = p.blue) :=
    hasValue_distance p h n (hordered n hn).1 (hordered n hn).2
  obtain ⟨r, hr, hrlow, hrhigh⟩ := hdistance p.red (.inl rfl)
  obtain ⟨g, hg, hglow, hghigh⟩ := hdistance p.green (.inr (.inl rfl))
  obtain ⟨b, hb, hblow, hbhigh⟩ := hdistance p.blue (.inr (.inr rfl))
  have hconstant (n : Nat) (hn : n ≤ 6) : HasValue (Float.ofNat n) n :=
    hasValue_ofNat (hn.trans_lt (by decide))
  have hsix := hconstant 6 (by decide)
  have hbounded {x : Float} {t : ℚ} (hx : NearestTo t x) (hlow : -6 ≤ t) (hhigh : t ≤ 6) :
      ∃ w, HasValue x w ∧ -6 ≤ w ∧ w ≤ 6 := hx.between hsix.neg hsix hlow hhigh
  have hshifted {x : Float} {t : ℚ} (n : Nat) (hn : n ≤ 5) (hx : HasValue x t) (hlow : 0 ≤ t)
      (hhigh : t ≤ 1) : ∃ w, HasValue (Float.ofNat n + x) w ∧ (n : ℚ) ≤ w ∧ w ≤ (n + 1 : Nat) := by
    refine (nearestTo_add (hconstant n (by omega)) hx).between (hconstant n (by omega))
      (hconstant (n + 1) (by omega)) (by linarith) ?_
    push_cast
    linarith
  obtain ⟨s, hs, hslow, hshigh⟩ := hshifted 2 (by decide) hr hrlow hrhigh
  obtain ⟨t, ht, htlow, hthigh⟩ := hshifted 4 (by decide) hg hglow hghigh
  norm_num at hslow hshigh htlow hthigh
  unfold sixths
  dsimp only
  split
  · exact hbounded (nearestTo_sub hb hg) (by linarith) (by linarith)
  · split
    · exact hbounded (nearestTo_sub hs hb) (by linarith) (by linarith)
    · exact hbounded (nearestTo_sub ht hr) (by linarith) (by linarith)

/-- **What a pixel with a zero among its channels has as hue, saturation and value**: the value is
its largest channel, and it is black or its saturation is one. -/
theorem ofRgb_of_smallest (h : p.smallest = 0) :
    HasValue (ofRgb (p.channels (α := Float))).value p.largest ∧
      (HasValue (ofRgb (p.channels (α := Float))).saturation 0 ∧ p.largest = 0 ∨
        HasValue (ofRgb (p.channels (α := Float))).saturation 1 ∧
          ∃ w, HasValue (ofRgb (p.channels (α := Float))).hue w ∧ 0 ≤ w ∧ w ≤ 1) := by
  rcases Nat.eq_zero_or_pos p.largest with hblack | hpos
  · rw [ofRgb_of_grey p (h.trans hblack.symm)]
    exact ⟨p.hasValue_top, .inl ⟨hasValue_ofNat_zero, hblack⟩⟩
  · have hlt : p.smallest < p.largest := h ▸ hpos
    have hpos' : (p.largest : ℚ) ≠ 0 := by exact_mod_cast hpos.ne'
    have hrange := p.hasValue_top_sub p.hasValue_bottom hlt.le
    rw [h, Nat.sub_zero] at hrange
    have hsaturation := nearestTo_div hrange p.hasValue_top hpos'
    rw [div_self hpos'] at hsaturation
    obtain ⟨s, hs, hslow, hshigh⟩ := hasValue_sixths p hlt
    obtain ⟨w, hw, -⟩ := (nearestTo_div hs hasValue_ofNat_six (by norm_num)).between
      hasValue_ofNat_one.neg hasValue_ofNat_one (by linarith) (by linarith)
    rw [ofRgb_of_colour p hlt]
    exact ⟨p.hasValue_top, .inr ⟨hsaturation.exact hasValue_ofNat_one, hasValue_fractUp hw⟩⟩

end Hsv

/-! ## §4 Pixels -/

namespace Pixel

/-- Channels that span from zero to `v` become samples from zero to the integer part of `v`. -/
theorem withChannels_extremes (p : Pixel) {c : Rgb Float} {v : ℚ} (h : c.Spans v)
    (hv : v ≤ 255) :
    (p.withChannels c).smallest = 0 ∧ (p.withChannels c).largest = ⌊v⌋₊ := by
  have hbetween : ∀ x ∈ c.toList, (sampleOf x).toNat ≤ ⌊v⌋₊ := by
    intro x hx
    obtain ⟨w, hw, hlow, hhigh⟩ := h.between x hx
    rw [toNat_sampleOf hw hlow (hhigh.trans hv)]
    exact Nat.floor_le_floor hhigh
  have hbottom : ∃ x ∈ c.toList, (sampleOf x).toNat = 0 := by
    obtain ⟨x, hx, hzero⟩ := h.bottom
    exact ⟨x, hx, by rw [toNat_sampleOf hzero le_rfl (by norm_num), Nat.floor_zero]⟩
  have htop : ∃ x ∈ c.toList, (sampleOf x).toNat = ⌊v⌋₊ := by
    obtain ⟨x, hx, hmost⟩ := h.top
    obtain ⟨w, hw, hlow, -⟩ := h.between x hx
    rw [hw.unique hmost] at hlow
    exact ⟨x, hx, toNat_sampleOf hmost hlow hv⟩
  simp only [Rgb.toList, List.mem_cons, List.not_mem_nil, or_false, forall_eq_or_imp, forall_eq,
    exists_eq_or_imp, exists_eq_left] at hbetween hbottom htop
  show min (min (sampleOf c.red).toNat (sampleOf c.green).toNat) (sampleOf c.blue).toNat = 0 ∧
    max (max (sampleOf c.red).toNat (sampleOf c.green).toNat) (sampleOf c.blue).toNat = ⌊v⌋₊
  omega

/-- **Recolouring** a pixel with a zero among its channels leaves a zero among them. The largest
one is the integer part of the largest one before, times the factor. -/
theorem recolor_extremes {p : Pixel} (h : p.smallest = 0) {hue factor : Float} {t b : ℚ}
    (hhue : HasValue hue t) (hfactor : HasValue factor b) (hlow : 0 ≤ b) (hhigh : b ≤ 1) :
    ∃ v, HasValue (Float.ofNat p.largest * factor) v ∧ (p.recolor hue factor).smallest = 0 ∧
      (p.recolor hue factor).largest = ⌊v⌋₊ := by
  have hmost := p.largest_le
  have hlargest : HasValue (Float.ofNat p.largest) p.largest := hasValue_ofNat (by omega)
  obtain ⟨hvalue, hsaturation⟩ := Hsv.ofRgb_of_smallest p h
  obtain ⟨v, hv, hvlow, hvhigh⟩ :=
    Hsv.hasValue_mul_part hlargest (Nat.cast_nonneg _) hfactor hlow hhigh
  obtain ⟨u, hu, -⟩ := Hsv.hasValue_mul_part hvalue (Nat.cast_nonneg _) hfactor hlow hhigh
  -- equal numbers times the factor are rounded to the same number
  obtain rfl : u = v := le_antisymm
    ((nearestTo_mul hvalue hfactor).mono (nearestTo_mul hlargest hfactor) le_rfl hu hv)
    ((nearestTo_mul hlargest hfactor).mono (nearestTo_mul hvalue hfactor) le_rfl hv hu)
  have hspans : (Hsv.toRgb ⟨Hsv.hueInTurn hue, (Hsv.ofRgb (p.channels (α := Float))).saturation,
      (Hsv.ofRgb (p.channels (α := Float))).value * factor⟩).Spans u := by
    refine Hsv.spans_toRgb hu hvlow ?_
    rcases hsaturation with ⟨hzero, hblack⟩ | ⟨hone, -⟩
    · refine .inl ⟨hzero, le_antisymm ?_ hvlow⟩
      rwa [hblack, Nat.cast_zero] at hvhigh
    · exact .inr ⟨hone, Hsv.hasValue_hueInTurn hhue⟩
  have hu255 : u ≤ 255 := hvhigh.trans (by exact_mod_cast hmost)
  exact ⟨u, hv, p.withChannels_extremes hspans hu255⟩

/-- **Keeping the red part** leaves a zero among the channels and the red sample as the largest. -/
theorem keepRed_extremes (p : Pixel) : p.keepRed.smallest = 0 ∧ p.keepRed.largest = p.red.toNat := by
  have hsmallest : (⟨p.red, 0, 0, p.alpha⟩ : Pixel).smallest = 0 := by simp [smallest]
  have hlargest : (⟨p.red, 0, 0, p.alpha⟩ : Pixel).largest = p.red.toNat := by simp [largest]
  obtain ⟨hvalue, hsaturation⟩ := Hsv.ofRgb_of_smallest ⟨p.red, 0, 0, p.alpha⟩ hsmallest
  rw [hlargest] at hvalue hsaturation
  have hspans := Hsv.spans_toRgb hvalue (Nat.cast_nonneg _)
    (hsaturation.imp_left fun h => ⟨h.1, by rw [h.2, Nat.cast_zero]⟩)
  have hred : (p.red.toNat : ℚ) ≤ 255 := by
    have := p.red.toNat_lt
    exact_mod_cast Nat.le_of_lt_succ this
  obtain ⟨hzero, htop⟩ := p.withChannels_extremes hspans hred
  exact ⟨hzero, htop.trans (Nat.floor_natCast _)⟩

end Pixel

end HueCycle
