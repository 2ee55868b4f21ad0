/-
HueCycle.Proofs.Color.RoundTrip — over the rationals, the two forms of a colour
say the same.

Both ways lead over the mixes of `HueCycle.Proofs.Color.Sextants`: every colour
that is not grey is a mix at a place of a sextant (`isMix_of_not_grey`), and that place
is its hue (`ofRgb_mix`). Where two channels are the largest, or two the
smallest, a colour lies at the seam of two sextants, and either of them gives
the same hue. Main statement: `Hsv.round_trips`.
-/
import Mathlib
import HueCycle.Proofs.Color.Sextants

namespace HueCycle.Hsv

open Scalar Exact

/-! ## §1 Channels in order -/

theorem extremes_of_perm {c : Rgb ℚ} {top bottom middle : ℚ}
    (hperm : c.toList.Perm [top, bottom, middle]) (hlow : bottom ≤ middle) (hhigh : middle ≤ top) :
    max (max c.red c.green) c.blue = top ∧ min (min c.red c.green) c.blue = bottom := by
  have hbetween := between_of_perm hperm hlow hhigh
  have htop : top ∈ c.toList := hperm.mem_iff.mpr (by simp)
  have hbottom : bottom ∈ c.toList := hperm.mem_iff.mpr (by simp)
  simp only [Rgb.toList, List.mem_cons, List.not_mem_nil, or_false, forall_eq_or_imp,
    forall_eq] at hbetween htop hbottom
  obtain ⟨hred, hgreen, hblue⟩ := hbetween
  constructor
  · refine le_antisymm (max_le (max_le hred.2 hgreen.2) hblue.2) ?_
    rcases htop with rfl | rfl | rfl <;> simp
  · refine le_antisymm ?_ (le_min (le_min hred.1 hgreen.1) hblue.1)
    rcases hbottom with rfl | rfl | rfl <;> simp

theorem sixths_eq (c : Rgb ℚ) (top range : ℚ) :
    sixths c top range =
      if c.red = top then (c.green - c.blue) / range
      else if c.green = top then 2 + (c.blue - c.red) / range
      else 4 + (c.red - c.green) / range := by
  show (if (c.red == top) = true then (top - c.blue) / range - (top - c.green) / range
    else if (c.green == top) = true then
      (2 : ℕ) + (top - c.red) / range - (top - c.blue) / range
    else (4 : ℕ) + (top - c.green) / range - (top - c.red) / range) = _
  simp only [beq_iff_eq]
  push_cast
  split_ifs <;> ring

theorem value_ofRgb (c : Rgb ℚ) : (ofRgb c).value = max (max c.red c.green) c.blue := by
  unfold ofRgb
  simp only [larger_eq]
  split <;> rfl

theorem ofRgb_of_grey_channels (x : ℚ) : ofRgb (⟨x, x, x⟩ : Rgb ℚ) = ⟨0, 0, x⟩ := by
  unfold ofRgb
  simp only [larger_eq, smaller_eq, max_self, min_self]
  exact if_pos (eq_iff.mpr rfl)

theorem ofRgb_of_lt {c : Rgb ℚ} {top bottom : ℚ} (hlt : bottom < top)
    (htop : max (max c.red c.green) c.blue = top)
    (hbottom : min (min c.red c.green) c.blue = bottom) :
    ofRgb c = ⟨Int.fract (sixths c top (top - bottom) / 6), (top - bottom) / top, top⟩ := by
  have hcolour : ¬ Scalar.eq bottom top = true := mt eq_iff.mp hlt.ne
  unfold ofRgb
  simp only [larger_eq, smaller_eq, htop, hbottom]
  rw [if_neg hcolour, fractUp_eq]
  rfl

/-! ## §2 Mixes -/

section Mixes

variable {n : ℤ} {w s v : ℚ}

theorem level_sub_div (hs : s ≠ 0) (hv : v ≠ 0) (u u' : ℚ) :
    (level s v u - level s v u') / (v - level s v 1) = u' - u := by
  have hrange : v - level s v 1 = v * s := by
    rw [level_one]
    ring
  rw [hrange, div_eq_iff (mul_ne_zero hv hs), level, level]
  ring

theorem level_eq_value_iff (hs : s ≠ 0) (hv : v ≠ 0) {u : ℚ} : level s v u = v ↔ u = 0 := by
  rw [level, mul_eq_left₀ hv, sub_eq_self, mul_eq_zero, or_iff_right hs]

/-- The hue of a mix in sixths is its sextant and its place, or a turn less. -/
theorem sixths_mix (hn : 0 ≤ n) (hn' : n < 6) (hs : s ≠ 0) (hv : v ≠ 0) :
    ∃ k : ℤ, sixths (mix n w s v) v (v - level s v 1) = n + w + 6 * k := by
  have hsextant : n = 0 ∨ n = 1 ∨ n = 2 ∨ n = 3 ∨ n = 4 ∨ n = 5 := by omega
  rw [sixths_eq]
  rcases hsextant with rfl | rfl | rfl | rfl | rfl | rfl <;>
    simp only [mix, level_eq_value_iff hs hv, level_sub_div hs hv, one_ne_zero, if_true, if_false]
  · exact ⟨0, by push_cast; ring⟩
  · -- at place zero red is as large as green, which is the seam to the sextant before
    refine ⟨0, ?_⟩
    split_ifs with hseam <;> push_cast <;> linarith
  · exact ⟨0, by push_cast; ring⟩
  · refine ⟨0, ?_⟩
    split_ifs with hseam <;> push_cast <;> linarith
  · -- at place one red is as large as blue, which is the seam to the sextant after
    split_ifs with hseam
    · exact ⟨-1, by push_cast; linarith⟩
    · exact ⟨0, by push_cast; ring⟩
  · exact ⟨-1, by push_cast; ring⟩

/-- **The hue of a mix** is its sextant and its place. -/
theorem ofRgb_mix (hn : 0 ≤ n) (hn' : n < 6) (hlow : 0 ≤ w) (hhigh : w ≤ 1) (hs : 0 < s)
    (hv : 0 < v) : ofRgb (mix n w s v) = ⟨Int.fract ((n + w) / 6), s, v⟩ := by
  obtain ⟨middle, hmiddle, hperm⟩ := exists_middle n hlow hhigh hs.le hv.le
  have hlt : level s v 1 < v := by
    rw [level_one]
    exact mul_lt_of_lt_one_right hv (by linarith)
  obtain ⟨htop, hbottom⟩ := extremes_of_perm hperm hmiddle.1 hmiddle.2
  obtain ⟨k, hk⟩ := sixths_mix (w := w) hn hn' hs.ne' hv.ne'
  have hturns : (n + w + 6 * k) / 6 = (n + w) / 6 + k := by ring
  have hsaturation : (v - level s v 1) / v = s := by
    rw [level_one, div_eq_iff hv.ne']
    ring
  rw [ofRgb_of_lt hlt htop hbottom, hk, hturns, Int.fract_add_intCast, hsaturation]

end Mixes

/-- A hue within a turn has the mix at its sixths. -/
theorem toRgb_fract {n : ℤ} {x : ℚ} (s v : ℚ) (hlow : n ≤ x) (hhigh : x ≤ n + 1) :
    toRgb ⟨Int.fract (x / 6), s, v⟩ = mix (n % 6) (x - n) s v := by
  have hsixths : Int.fract (x / 6) * 6 = x - (6 * ⌊x / 6⌋ : ℤ) := by
    rw [Int.fract]
    push_cast
    ring
  have hfloors : Floors (Int.fract (x / 6) * 6) :=
    .inl (mul_nonneg (Int.fract_nonneg _) (by norm_num))
  have hturn := toRgb_of_sextant (s := s) (v := v) (n := n - 6 * ⌊x / 6⌋) hfloors
    (by rw [hsixths]; push_cast; linarith) (by rw [hsixths]; push_cast; linarith)
  rw [hturn, hsixths, Int.sub_mul_emod_self_left]
  congr 1
  push_cast
  ring

/-! ## §3 Colours -/

/-- A colour at a place of a sextant, with some saturation and value. -/
def IsMix (c : Rgb ℚ) : Prop :=
  ∃ n w s v, (0 ≤ n ∧ n < 6) ∧ (0 ≤ w ∧ w ≤ 1) ∧ (0 < s ∧ s ≤ 1) ∧ 0 < v ∧ c = mix n w s v

section Colours

variable {low middle top : ℚ}

/-- Three channels in order are the levels of a saturation and a place. -/
theorem exists_place (hpos : 0 ≤ low) (hlow : low ≤ middle) (hhigh : middle ≤ top)
    (hlt : low < top) : ∃ s w, (0 < s ∧ s ≤ 1) ∧ (0 ≤ w ∧ w ≤ 1) ∧
      level s top 1 = low ∧ level s top w = middle := by
  have htop : 0 < top := hpos.trans_lt hlt
  have hrange : 0 < top - low := sub_pos.mpr hlt
  refine ⟨(top - low) / top, (top - middle) / (top - low), ⟨div_pos hrange htop, ?_⟩,
    ⟨div_nonneg (sub_nonneg.mpr hhigh) hrange.le, ?_⟩, ?_, ?_⟩
  · rw [div_le_one htop]
    linarith
  · rw [div_le_one hrange]
    linarith
  · rw [level_one]
    field_simp
    ring
  · rw [level]
    field_simp
    ring

/-- In each of the six orders they are a mix in the sextant of that order. -/
theorem isMix_of_order (hpos : 0 ≤ low) (hlow : low ≤ middle) (hhigh : middle ≤ top)
    (hlt : low < top) :
    (IsMix ⟨top, middle, low⟩ ∧ IsMix ⟨middle, top, low⟩ ∧ IsMix ⟨low, top, middle⟩) ∧
      IsMix ⟨low, middle, top⟩ ∧ IsMix ⟨middle, low, top⟩ ∧ IsMix ⟨top, low, middle⟩ := by
  obtain ⟨s, w, hs, hw, hbottom, hplace⟩ := exists_place hpos hlow hhigh hlt
  have hw' : 0 ≤ 1 - w ∧ 1 - w ≤ 1 := ⟨by linarith [hw.2], by linarith [hw.1]⟩
  have htop : 0 < top := hpos.trans_lt hlt
  have hmix : (mix 0 (1 - w) s top = ⟨top, middle, low⟩ ∧ mix 1 w s top = ⟨middle, top, low⟩ ∧
      mix 2 (1 - w) s top = ⟨low, top, middle⟩) ∧ mix 3 w s top = ⟨low, middle, top⟩ ∧
      mix 4 (1 - w) s top = ⟨middle, low, top⟩ ∧ mix 5 w s top = ⟨top, low, middle⟩ := by
    simp only [mix, sub_sub_cancel, level_zero, hbottom, hplace, and_self]
  obtain ⟨⟨h0, h1, h2⟩, h3, h4, h5⟩ := hmix
  exact ⟨⟨⟨0, _, s, top, by decide, hw', hs, htop, h0.symm⟩,
      ⟨1, _, s, top, by decide, hw, hs, htop, h1.symm⟩,
      ⟨2, _, s, top, by decide, hw', hs, htop, h2.symm⟩⟩,
    ⟨3, _, s, top, by decide, hw, hs, htop, h3.symm⟩,
    ⟨4, _, s, top, by decide, hw', hs, htop, h4.symm⟩,
    ⟨5, _, s, top, by decide, hw, hs, htop, h5.symm⟩⟩

end Colours

/-- **Every colour that is not grey is a mix.** -/
theorem isMix_of_not_grey {red green blue : ℚ} (hred : 0 ≤ red) (hgreen : 0 ≤ green)
    (hblue : 0 ≤ blue) (hcolour : ¬ (red = green ∧ green = blue)) : IsMix ⟨red, green, blue⟩ := by
  have hlt {low middle top : ℚ} (hlow : low ≤ middle) (hhigh : middle ≤ top)
      (hgrey : low = top → red = green ∧ green = blue) : low < top :=
    (hlow.trans hhigh).lt_of_ne (mt hgrey hcolour)
  rcases le_total red green with hrg | hrg
  · rcases le_total green blue with hgb | hgb
    · exact (isMix_of_order hred hrg hgb (hlt hrg hgb fun h => ⟨by linarith, by linarith⟩)).2.1
    · rcases le_total red blue with hrb | hrb
      · exact (isMix_of_order hred hrb hgb (hlt hrb hgb fun h => ⟨by linarith, by linarith⟩)).1.2.2
      · exact (isMix_of_order hblue hrb hrg (hlt hrb hrg fun h => ⟨by linarith, by linarith⟩)).1.2.1
  · rcases le_total green blue with hgb | hgb
    · rcases le_total red blue with hrb | hrb
      · exact (isMix_of_order hgreen hrg hrb (hlt hrg hrb fun h => ⟨by linarith, by linarith⟩)).2.2.1
      · exact (isMix_of_order hgreen hgb hrb (hlt hgb hrb fun h => ⟨by linarith, by linarith⟩)).2.2.2
    · exact (isMix_of_order hblue hgb hrg (hlt hgb hrg fun h => ⟨by linarith, by linarith⟩)).1.1

/-! ## §4 Both ways -/

/-- **Hue, saturation and value, and back.** Every colour without negative channels comes back; its
hue lies within a turn, its saturation between zero and one, and its value is the largest channel.
Every hue within a turn, with a saturation above zero up to one and a value above zero, comes back
too. -/
theorem round_trips :
    (∀ c : Rgb ℚ, 0 ≤ c.red → 0 ≤ c.green → 0 ≤ c.blue →
      toRgb (ofRgb c) = c ∧ (0 ≤ (ofRgb c).hue ∧ (ofRgb c).hue < 1) ∧
        (0 ≤ (ofRgb c).saturation ∧ (ofRgb c).saturation ≤ 1) ∧
        (ofRgb c).value = max (max c.red c.green) c.blue) ∧
    ∀ c : Hsv ℚ, 0 ≤ c.hue → c.hue < 1 → 0 < c.saturation → c.saturation ≤ 1 → 0 < c.value →
      ofRgb (toRgb c) = c := by
  constructor
  · rintro ⟨red, green, blue⟩ hred hgreen hblue
    have hvalue := value_ofRgb ⟨red, green, blue⟩
    by_cases hgrey : red = green ∧ green = blue
    · obtain ⟨rfl, rfl⟩ := hgrey
      rw [ofRgb_of_grey_channels, toRgb_eq_mix, mix_of_grey]
      exact ⟨rfl, ⟨le_rfl, zero_lt_one⟩, ⟨le_rfl, zero_le_one⟩, by simp⟩
    · obtain ⟨n, w, s, v, hn, hw, hs, hv, hmix⟩ := isMix_of_not_grey hred hgreen hblue hgrey
      have hsextant : n % 6 = n := Int.emod_eq_of_lt hn.1 hn.2
      have hform := ofRgb_mix hn.1 hn.2 hw.1 hw.2 hs.1 hv
      refine ⟨?_, ?_, ?_, hvalue⟩ <;> rw [hmix, hform]
      · rw [toRgb_fract s v (by linarith) (by linarith), hsextant, add_sub_cancel_left]
      · exact ⟨Int.fract_nonneg _, Int.fract_lt_one _⟩
      · exact ⟨hs.1.le, hs.2⟩
  · rintro ⟨h, s, v⟩ hlow hhigh hs - hv
    dsimp only at hlow hhigh hs hv
    have hscaled : 0 ≤ h * 6 := by linarith
    have hn : 0 ≤ ⌊h * 6⌋ := Int.floor_nonneg.mpr hscaled
    have hn' : ⌊h * 6⌋ < 6 := Int.floor_lt.mpr (by push_cast; linarith)
    have hplace := (Int.fract_lt_one (h * 6)).le
    rw [toRgb_eq_mix, toInt_of_nonneg hscaled, Int.emod_eq_of_lt hn hn', Int.self_sub_floor,
      ofRgb_mix hn hn' (Int.fract_nonneg _) hplace hs hv, Int.floor_add_fract,
      mul_div_cancel_right₀ h (by norm_num), Int.fract_eq_self.mpr ⟨hlow, hhigh⟩]

/-- A colour with three different channels, and a hue where two sextants meet. -/
theorem round_trips_bluish_green :
    (0 ≤ (12 : ℚ) ∧ 0 ≤ (200 : ℚ) ∧ 0 ≤ (99 : ℚ)) ∧
      toRgb (ofRgb (⟨12, 200, 99⟩ : Rgb ℚ)) = ⟨12, 200, 99⟩ ∧
      (0 ≤ (5 / 6 : ℚ) ∧ (5 / 6 : ℚ) < 1 ∧ 0 < (1 / 2 : ℚ) ∧ (1 / 2 : ℚ) ≤ 1 ∧ 0 < (80 : ℚ)) ∧
      ofRgb (toRgb (⟨5 / 6, 1 / 2, 80⟩ : Hsv ℚ)) = ⟨5 / 6, 1 / 2, 80⟩ := by
  have hchannels : 0 ≤ (12 : ℚ) ∧ 0 ≤ (200 : ℚ) ∧ 0 ≤ (99 : ℚ) := by norm_num
  have hlevels : 0 ≤ (5 / 6 : ℚ) ∧ (5 / 6 : ℚ) < 1 ∧ 0 < (1 / 2 : ℚ) ∧ (1 / 2 : ℚ) ≤ 1 ∧
      0 < (80 : ℚ) := by norm_num
  obtain ⟨hback, hback'⟩ := round_trips
  exact ⟨hchannels, (hback ⟨12, 200, 99⟩ hchannels.1 hchannels.2.1 hchannels.2.2).1, hlevels,
    hback' ⟨5 / 6, 1 / 2, 80⟩ hlevels.1 hlevels.2.1 hlevels.2.2.1 hlevels.2.2.2.1 hlevels.2.2.2.2⟩

end HueCycle.Hsv
