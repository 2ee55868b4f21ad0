/-
HueCycle.Proofs.Color.Sextants — what hue, saturation and value become, over
the rationals.

The circle of hues has six sextants. In each of them one channel is the value,
one is the lowest level, and the third goes from one end to the other; `mix`
is the colour at a place of a sextant, and `toRgb_eq_mix` says that a colour
is the mix at the integer part of six times its hue. Neighbouring sextants
agree where they meet (`mix_seam`).

The integer part goes toward zero. So a hue below zero that is not a whole
number of sixths is given the sextant above its own, at a place below zero,
and there a channel leaves the range of its colour. Main statement:
`Hsv.toRgb_turns`.
-/
import Mathlib
import HueCycle.Proofs.Color.Channels
import HueCycle.Proofs.Numeric.Rationals

namespace HueCycle.Hsv

open Scalar Exact

/-! ## §1 Mixes -/

/-- The value without the part `u` of its saturation. -/
def level (s v u : ℚ) : ℚ := v * (1 - s * u)

@[simp] theorem level_zero (s v : ℚ) : level s v 0 = v := by
  rw [level, mul_zero, sub_zero, mul_one]

@[simp] theorem level_of_grey (v u : ℚ) : level 0 v u = v := by
  rw [level, zero_mul, sub_zero, mul_one]

@[simp] theorem level_of_black (s u : ℚ) : level s 0 u = 0 := zero_mul _

/-- The lowest level. -/
theorem level_one (s v : ℚ) : level s v 1 = v * (1 - s) := by
  rw [level, mul_one]

/-- The colour with saturation `s` and value `v` at the place `w` of sextant `n`. -/
def mix (n : ℤ) (w s v : ℚ) : Rgb ℚ :=
  match n with
  | 0 => ⟨level s v 0, level s v (1 - w), level s v 1⟩
  | 1 => ⟨level s v w, level s v 0, level s v 1⟩
  | 2 => ⟨level s v 1, level s v 0, level s v (1 - w)⟩
  | 3 => ⟨level s v 1, level s v w, level s v 0⟩
  | 4 => ⟨level s v (1 - w), level s v 1, level s v 0⟩
  | _ => ⟨level s v 0, level s v 1, level s v w⟩

theorem mix_of_grey (n : ℤ) (w v : ℚ) : mix n w 0 v = ⟨v, v, v⟩ := by
  unfold mix
  simp only [level_of_grey]
  split <;> rfl

theorem mix_of_black (n : ℤ) (w s : ℚ) : mix n w s 0 = ⟨0, 0, 0⟩ := by
  unfold mix
  simp only [level_of_black]
  split <;> rfl

/-- The end of a sextant is the start of the next one. -/
theorem mix_seam (n : ℤ) (s v : ℚ) : mix ((n + 1) % 6) 0 s v = mix (n % 6) 1 s v := by
  have hsextant : n % 6 = 0 ∨ n % 6 = 1 ∨ n % 6 = 2 ∨ n % 6 = 3 ∨ n % 6 = 4 ∨ n % 6 = 5 := by
    omega
  rw [Int.add_emod]
  rcases hsextant with h | h | h | h | h | h <;> rw [h] <;> simp [mix]

/-- The channels of a mix, in some order: the value, the lowest level, and one that depends on the
place. -/
theorem exists_perm_mix (n : ℤ) (w s v : ℚ) :
    ∃ u, (u = w ∨ u = 1 - w) ∧
      (mix n w s v).toList.Perm [level s v 0, level s v 1, level s v u] := by
  unfold mix
  split
  · exact ⟨1 - w, .inr rfl, .cons _ (.swap _ _ [])⟩
  · exact ⟨w, .inl rfl, (List.perm_append_singleton _ [_, _]).symm⟩
  · exact ⟨1 - w, .inr rfl, .swap _ _ [_]⟩
  · exact ⟨w, .inl rfl, List.perm_append_singleton _ [_, _]⟩
  · exact ⟨1 - w, .inr rfl, List.reverse_perm [_, _, _]⟩
  · exact ⟨w, .inl rfl, List.Perm.refl _⟩

theorem level_between {s v u : ℚ} (hs : 0 ≤ s) (hv : 0 ≤ v) (hlow : 0 ≤ u) (hhigh : u ≤ 1) :
    level s v 1 ≤ level s v u ∧ level s v u ≤ v := by
  have hpart : s * u ≤ s * 1 := mul_le_mul_of_nonneg_left hhigh hs
  have hpart' : 0 ≤ s * u := mul_nonneg hs hlow
  exact ⟨mul_le_mul_of_nonneg_left (by linarith) hv, mul_le_of_le_one_right hv (by linarith)⟩

/-- At a place of the sextant it lies between the other two. -/
theorem exists_middle (n : ℤ) {w s v : ℚ} (hlow : 0 ≤ w) (hhigh : w ≤ 1) (hs : 0 ≤ s)
    (hv : 0 ≤ v) :
    ∃ middle, (level s v 1 ≤ middle ∧ middle ≤ v) ∧
      (mix n w s v).toList.Perm [v, level s v 1, middle] := by
  obtain ⟨u, hu, hperm⟩ := exists_perm_mix n w s v
  rw [level_zero] at hperm
  refine ⟨_, ?_, hperm⟩
  rcases hu with rfl | rfl
  · exact level_between hs hv hlow hhigh
  · exact level_between hs hv (by linarith) (by linarith)

theorem between_of_perm {l : List ℚ} {top bottom middle : ℚ}
    (hperm : l.Perm [top, bottom, middle]) (hlow : bottom ≤ middle) (hhigh : middle ≤ top) :
    ∀ x ∈ l, bottom ≤ x ∧ x ≤ top := by
  intro x hx
  rw [hperm.mem_iff] at hx
  simp only [List.mem_cons, List.not_mem_nil, or_false] at hx
  rcases hx with rfl | rfl | rfl
  · exact ⟨hlow.trans hhigh, le_rfl⟩
  · exact ⟨le_rfl, hlow.trans hhigh⟩
  · exact ⟨hlow, hhigh⟩

/-- The channels of a mix lie between the lowest level and the value. -/
theorem mix_between {n : ℤ} {w s v : ℚ} (hlow : 0 ≤ w) (hhigh : w ≤ 1) (hs : 0 ≤ s) (hv : 0 ≤ v) :
    ∀ x ∈ (mix n w s v).toList, v * (1 - s) ≤ x ∧ x ≤ v := by
  obtain ⟨middle, hmiddle, hperm⟩ := exists_middle n hlow hhigh hs hv
  rw [← level_one]
  exact between_of_perm hperm hmiddle.1 hmiddle.2

/-- At a place below zero one of them does not. -/
theorem mix_leaves {n : ℤ} {w s v : ℚ} (hw : w < 0) (hs : 0 < s) (hv : 0 < v) :
    ∃ x ∈ (mix n w s v).toList, ¬ (v * (1 - s) ≤ x ∧ x ≤ v) := by
  obtain ⟨u, hu, hperm⟩ := exists_perm_mix n w s v
  refine ⟨level s v u, hperm.mem_iff.mpr (by simp), fun ⟨hlow, hhigh⟩ => ?_⟩
  rcases hu with rfl | rfl
  · have hmore : v * 1 < level s v u :=
      mul_lt_mul_of_pos_left (by linarith [mul_neg_of_pos_of_neg hs hw]) hv
    linarith
  · have hless : level s v (1 - w) < v * (1 - s) :=
      mul_lt_mul_of_pos_left (by linarith [mul_neg_of_pos_of_neg hs hw]) hv
    linarith

/-! ## §2 Colours as mixes -/

theorem sector_eq (x : ℚ) : sector x = toInt x % 6 := by
  rw [sector, trunc_eq, toInt_intCast]

/-- **A colour is the mix at its hue.** -/
theorem toRgb_eq_mix (h s v : ℚ) :
    toRgb ⟨h, s, v⟩ = mix (toInt (h * 6) % 6) (h * 6 - toInt (h * 6)) s v := by
  by_cases hs : s = 0
  · subst hs
    rw [mix_of_grey]
    exact if_pos (eq_iff.mpr rfl)
  · have hcolour : ¬ Scalar.eq s (whole 0) = true := mt eq_iff.mp hs
    unfold mix
    rw [toRgb, if_neg hcolour, ← sector_eq]
    simp only [level_zero, level_one]
    rfl

/-- A hue between the ends of a sextant has the mix of that sextant, also at both ends. -/
theorem toRgb_of_sextant {h s v : ℚ} {n : ℤ} (hfloors : Floors (h * 6)) (hlow : n ≤ h * 6)
    (hhigh : h * 6 ≤ n + 1) : toRgb ⟨h, s, v⟩ = mix (n % 6) (h * 6 - n) s v := by
  rw [toRgb_eq_mix, toInt_of_floors hfloors]
  rcases hhigh.lt_or_eq with hlt | heq
  · rw [Int.floor_eq_iff.mpr ⟨hlow, hlt⟩]
  · have hwhole : h * 6 = ((n + 1 : ℤ) : ℚ) := by rw [heq, Int.cast_add, Int.cast_one]
    have hend : h * 6 - n = 1 := by rw [heq, add_sub_cancel_left]
    rw [hend, hwhole, Int.floor_intCast, sub_self, mix_seam]

/-- Whole turns of hue that do not lead over zero change nothing. -/
theorem toRgb_add_turns {h : ℚ} {k : ℤ} (s v : ℚ)
    (hsame : Floors ((h + k) * 6) ↔ Floors (h * 6)) :
    toRgb ⟨h + k, s, v⟩ = toRgb ⟨h, s, v⟩ := by
  have hturns : (h + k) * 6 = h * 6 + ((6 * k : ℤ) : ℚ) := by
    push_cast
    ring
  rw [hturns] at hsame
  rw [toRgb_eq_mix, toRgb_eq_mix h, hturns, toInt_add hsame, Int.add_mul_emod_self_left,
    Int.cast_add, add_sub_add_right_eq_sub]

/-! ## §3 Both sides of zero -/

section Turns

variable {h s v : ℚ}

theorem toRgb_of_flat (h' : ℚ) (hflat : s = 0 ∨ v = 0) : toRgb ⟨h, s, v⟩ = toRgb ⟨h', s, v⟩ := by
  rw [toRgb_eq_mix, toRgb_eq_mix h']
  rcases hflat with rfl | rfl
  · rw [mix_of_grey, mix_of_grey]
  · rw [mix_of_black, mix_of_black]

theorem between_of_floors (hfloors : Floors (h * 6)) (hs : 0 ≤ s) (hv : 0 ≤ v) :
    ∀ x ∈ (toRgb ⟨h, s, v⟩).toList, v * (1 - s) ≤ x ∧ x ≤ v := by
  rw [toRgb_eq_mix, toInt_of_floors hfloors, Int.self_sub_floor]
  exact mix_between (Int.fract_nonneg _) (Int.fract_lt_one _).le hs hv

theorem leaves_of_not_floors (hfloors : ¬ Floors (h * 6)) (hs : 0 < s) (hv : 0 < v) :
    ∃ x ∈ (toRgb ⟨h, s, v⟩).toList, ¬ (v * (1 - s) ≤ x ∧ x ≤ v) := by
  rw [toRgb_eq_mix, toInt_of_not_floors hfloors]
  refine mix_leaves ?_ hs hv
  push_cast
  linarith [Int.lt_floor_add_one (h * 6)]

/-- **The channels stay in their range** exactly if the colour is grey or black, or the hue is given
its own sextant. -/
theorem between_iff (hs : 0 ≤ s) (hv : 0 ≤ v) :
    (∀ x ∈ (toRgb ⟨h, s, v⟩).toList, v * (1 - s) ≤ x ∧ x ≤ v) ↔
      (s = 0 ∨ v = 0) ∨ Floors (h * 6) := by
  constructor
  · intro hbetween
    by_contra hnot
    obtain ⟨hflat, hfloors⟩ := not_or.mp hnot
    obtain ⟨hcolour, hlight⟩ := not_or.mp hflat
    obtain ⟨x, hx, hout⟩ :=
      leaves_of_not_floors hfloors (hs.lt_of_ne' hcolour) (hv.lt_of_ne' hlight)
    exact hout (hbetween x hx)
  · rintro (hflat | hfloors)
    · rw [toRgb_of_flat 0 hflat]
      exact between_of_floors (.inl (by norm_num)) hs hv
    · exact between_of_floors hfloors hs hv

/-- **Hues, sextants and whole turns.** At every hue the sextant is the floor of six times the hue,
modulo six, exactly if the hue is not below zero or is a whole number of sixths. A whole number of
turns more is the same colour exactly if the colour is grey or black, or this holds of both hues or
of neither. And the channels lie between the lowest level and the value exactly if the colour is
grey or black, or this holds of the hue. -/
theorem toRgb_turns (h s v : ℚ) (k : ℤ) (hs : 0 ≤ s) (hv : 0 ≤ v) :
    (sector (h * 6) = ⌊h * 6⌋ % 6 ↔ Floors (h * 6)) ∧
    (toRgb ⟨h + k, s, v⟩ = toRgb ⟨h, s, v⟩ ↔
      (s = 0 ∨ v = 0) ∨ (Floors ((h + k) * 6) ↔ Floors (h * 6))) ∧
    ((∀ x ∈ (toRgb ⟨h, s, v⟩).toList, v * (1 - s) ≤ x ∧ x ≤ v) ↔
      (s = 0 ∨ v = 0) ∨ Floors (h * 6)) := by
  refine ⟨?_, ?_, between_iff hs hv⟩
  · rw [sector_eq, ← toInt_eq_floor_iff]
    refine ⟨fun hsector => ?_, fun hfloor => by rw [hfloor]⟩
    by_contra hnot
    rw [toInt_of_not_floors (mt toInt_eq_floor_iff.mpr hnot)] at hsector
    omega
  · constructor
    · intro hequal
      by_cases hflat : s = 0 ∨ v = 0
      · exact .inl hflat
      · -- equal colours stay in their range together
        have hrange := between_iff (h := h + k) hs hv
        rw [hequal, between_iff hs hv, or_iff_right hflat, or_iff_right hflat] at hrange
        exact .inr hrange.symm
    · rintro (hflat | hsame)
      · exact toRgb_of_flat h hflat
      · exact toRgb_add_turns s v hsame

/-- A fifth of a turn, and a turn more. -/
theorem toRgb_turns_one_fifth :
    (0 ≤ (4 / 5 : ℚ) ∧ 0 ≤ (200 : ℚ)) ∧
      sector (1 / 5 * 6 : ℚ) = ⌊(1 / 5 * 6 : ℚ)⌋ % 6 ∧
      toRgb (⟨1 / 5 + (1 : ℤ), 4 / 5, 200⟩ : Hsv ℚ) = toRgb ⟨1 / 5, 4 / 5, 200⟩ ∧
      ∀ x ∈ (toRgb (⟨1 / 5, 4 / 5, 200⟩ : Hsv ℚ)).toList, 200 * (1 - 4 / 5) ≤ x ∧ x ≤ 200 := by
  have hs : 0 ≤ (4 / 5 : ℚ) := by norm_num
  have hv : 0 ≤ (200 : ℚ) := by norm_num
  have hhue : Floors (1 / 5 * 6) := .inl (by norm_num)
  have hturned : Floors ((1 / 5 + (1 : ℤ)) * 6) := .inl (by norm_num)
  obtain ⟨hsector, hturns, hbetween⟩ := toRgb_turns (1 / 5) (4 / 5) 200 1 hs hv
  exact ⟨⟨hs, hv⟩, hsector.mpr hhue, hturns.mpr (.inr (iff_of_true hturned hhue)),
    hbetween.mpr (.inr hhue)⟩

/-- A quarter of a turn below zero: the sextant is the one above, and blue leaves the range. -/
theorem toRgb_below_zero :
    (sector (-1 / 4 * 6 : ℚ) = 5 ∧ ⌊(-1 / 4 * 6 : ℚ)⌋ % 6 = 4) ∧
      toRgb (⟨-1 / 4, 1, 1⟩ : Hsv ℚ) = ⟨1, 0, 3 / 2⟩ ∧
      toRgb (⟨-1 / 4 + (1 : ℤ), 1, 1⟩ : Hsv ℚ) = ⟨1 / 2, 0, 1⟩ := by
  decide +kernel

end Turns

end HueCycle.Hsv
