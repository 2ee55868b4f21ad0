/-
HueCycle.Proofs.Schedule — which cues of a schedule the renderer accepts.

A sine lies between minus one and one, so half of it lies between minus a
half and a half, and a half more is between zero and one: rounding does not
lead out of these bounds. What is left to ask of a cue is that its hue and
the angle of its wave are finite.
-/
import Mathlib
import HueCycle.Color.Recolor
import HueCycle.Schedule
import HueCycle.Proofs.Numeric.Operations

namespace HueCycle

open Binary64

/-! ## §1 Brightness -/

theorem hasValue_zero : HasValue 0.0 0 := ⟨⟨false, 0, -1074⟩, rfl, Parts.value_of_zero rfl⟩

theorem hasValue_one : HasValue 1.0 1 := by
  refine ⟨⟨false, 2 ^ 52, -52⟩, rfl, ?_⟩
  norm_num [Parts.value, Parts.magnitude, scaled]

theorem hasValue_half : HasValue 0.5 (1 / 2) := by
  refine ⟨⟨false, 2 ^ 52, -53⟩, rfl, ?_⟩
  norm_num [Parts.value, Parts.magnitude, scaled]

theorem hasValue_sine {angle : Float} (h : angle.isFinite = true) :
    ∃ v, HasValue (sine angle) v ∧ -1 ≤ v ∧ v ≤ 1 := by
  rw [sine, if_pos h]
  dsimp only
  split
  · rename_i hhigh
    split
    · rename_i hlow
      exact hasValue_of_le_of_le hasValue_one.neg hasValue_one hlow hhigh
    · exact ⟨-1, hasValue_one.neg, le_rfl, by norm_num⟩
  · exact ⟨1, hasValue_one, by norm_num, le_rfl⟩

/-- **The brightness of a frame lies between zero and one** where the angle of its wave is finite. -/
theorem Schedule.hasValue_brightness (s : Schedule) (i : FrameIndex)
    (h : (phaseAt (s.elapsed i) s.duration s.blinks).isFinite = true) :
    ∃ b, HasValue (s.brightness i) b ∧ 0 ≤ b ∧ b ≤ 1 := by
  obtain ⟨w, hw, hlow, hhigh⟩ := hasValue_sine h
  obtain ⟨t, ht, htlow, hthigh⟩ := (nearestTo_mul hasValue_half hw).between hasValue_half.neg
    hasValue_half (by linarith) (by linarith)
  exact (nearestTo_add hasValue_half ht).between hasValue_zero hasValue_one (by linarith)
    (by linarith)

/-! ## §2 Cues -/

/-- A finite hue and a factor that is not negative are allowed. -/
theorem Image.checkRecolor_eq_ok {hue factor : Float} {t b : ℚ} (hhue : HasValue hue t)
    (hfactor : HasValue factor b) (hb : 0 ≤ b) : checkRecolor hue factor = .ok () := by
  have hnotbelow : ¬ factor < 0.0 := mt (hfactor.lt_iff hasValue_zero).mp (not_lt.mpr hb)
  simp only [checkRecolor, hhue.isFinite, hfactor.isFinite, hnotbelow]
  rfl

/-- **The renderer accepts a cue** with a finite hue and a finite angle. -/
theorem Schedule.checkRecolor_cue (s : Schedule) (i : FrameIndex)
    (hhue : (s.hue i).isFinite = true)
    (hphase : (phaseAt (s.elapsed i) s.duration s.blinks).isFinite = true) :
    Image.checkRecolor (s.cue i).hue (s.cue i).brightness = .ok () := by
  obtain ⟨t, ht⟩ := exists_hasValue hhue
  obtain ⟨b, hb, hlow, -⟩ := s.hasValue_brightness i hphase
  exact Image.checkRecolor_eq_ok ht hb hlow

end HueCycle
