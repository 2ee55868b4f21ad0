/-
HueCycle.Proofs.PixelLaw — which pixels a frame has.

A frame is rendered from the red part of the source, which leaves a zero
among the channels of every pixel, and recolouring keeps a zero among them.
So at every position the smallest channel is zero and the largest one is the
red sample of the source times the brightness, cut to a whole number. Hue and
brightness are those of the frame, so equal red samples become equal colours.
Main statement: `Source.frame_pixels`.
-/
import Mathlib
import HueCycle.Proofs.Color.Channels
import HueCycle.Proofs.Files.Preview

namespace HueCycle

open Binary64 Render

/-- An image that shows each pixel of another one in the shade of its red sample, with its own
alpha. -/
structure Image.Shades (shade : UInt8 → Pixel) (original image : Image) : Prop where
  canvas : image.canvas = original.canvas
  pixels : ∀ (k : Nat) (p : Pixel), original.pixels[k]? = some p →
    image.pixels[k]? = some { shade p.red with alpha := p.alpha }

/-- The shade of a red sample at a hue and a brightness. -/
def shadeOf (hue brightness : Float) (red : UInt8) : Pixel :=
  (Pixel.keepRed ⟨red, 0, 0, 0⟩).recolor hue brightness

/-- Recolouring the red part of an image shows its pixels in the shades of their red samples. -/
theorem Image.shades_recolor (image : Image) (hue brightness : Float) :
    image.Shades (shadeOf hue brightness) (image.keepRed.recolor hue brightness) where
  canvas := rfl
  pixels k p hp := by
    rw [recolor, getElem?_map, keepRed, getElem?_map, hp]
    rfl

/-- A frame whose cue is allowed shows the source in the shades of the cue. -/
theorem Source.shades_of_frame {source : Source} {schedule : Schedule} {i : FrameIndex} {f : Frame}
    (h : (source.renderer schedule).frame i = .ok f) :
    source.image.Shades (shadeOf (schedule.hue i) (schedule.brightness i)) f.image := by
  unfold Renderer.frame at h
  split at h
  · obtain ⟨image, hpaint, hmade⟩ := bind_eq_ok.mp h
    obtain rfl := Except.ok.inj hmade
    obtain ⟨_, -, hrecolored⟩ := bind_eq_ok.mp hpaint
    obtain rfl := Except.ok.inj hrecolored
    exact source.image.shades_recolor _ _
  · cases h

/-- **The pixels of a frame.** At a finite hue and a brightness from zero to one every red sample
has a shade with zero as the smallest channel, and with the product of the sample and the brightness,
cut to a whole number, as the largest one. The frame of every source is rendered; it has the
dimensions of the source, and each pixel has the shade of the red sample at its position, with the
alpha that is there. So has the frame at this position of every animation on the schedule. -/
theorem Source.frame_pixels {schedule : Schedule} {i : FrameIndex} (hi : i < schedule.frameCount)
    (hhue : (schedule.hue i).isFinite = true) (hlow : 0.0 ≤ schedule.brightness i)
    (hhigh : schedule.brightness i ≤ 1.0) :
    ∃ shade : UInt8 → Pixel,
      (∀ red, (shade red).smallest = 0 ∧
        ∃ v, HasValue (Float.ofNat red.toNat * schedule.brightness i) v ∧
          (shade red).largest = ⌊v⌋₊) ∧
      ∀ source : Source,
        (∃ f, (source.renderer schedule).frame i = .ok f ∧ source.image.Shades shade f.image) ∧
        ∀ pool settings threading a stats, settings.schedule = .ok schedule →
          animateOn pool source settings threading = .ok (a, stats) →
            ∃ image, a.frames[i.toNat]? = some image ∧ source.image.Shades shade image := by
  obtain ⟨t, ht⟩ := exists_hasValue hhue
  obtain ⟨b, hb, hblow, hbhigh⟩ := hasValue_of_le_of_le hasValue_zero hasValue_one hlow hhigh
  refine ⟨shadeOf (schedule.hue i) (schedule.brightness i), fun red => ?_, fun source => ⟨?_, ?_⟩⟩
  · obtain ⟨hsmallest, hlargest⟩ := Pixel.keepRed_extremes ⟨red, 0, 0, 0⟩
    obtain ⟨v, hv, hzero, htop⟩ := Pixel.recolor_extremes hsmallest ht hb hblow hbhigh
    rw [hlargest] at hv
    exact ⟨hzero, v, hv, htop⟩
  · obtain ⟨f, hf⟩ : ∃ f, (source.renderer schedule).frame i = .ok f :=
      Source.frame_isOk hi (Image.checkRecolor_eq_ok ht hb hblow)
    exact ⟨f, hf, Source.shades_of_frame hf⟩
  · intro pool settings threading a stats hschedule hanimate
    obtain ⟨f, hf, himage⟩ := frame_of_animateOn hanimate hschedule hi
    exact ⟨f.image, himage, Source.shades_of_frame hf⟩

/-- The second of two frames, half a turn on, of a source with one pixel. -/
theorem Source.frame_pixels_half_turn :
    let schedule : Schedule := ⟨⟨2, 1⟩, 1.0, 1.0, 0.0, 2, ⟨1, 2⟩⟩
    let source : Source := ⟨none, ⟨⟨1, 1⟩, #[⟨200, 10, 30, 128⟩], rfl⟩, []⟩
    (1 < schedule.frameCount ∧ (schedule.hue 1).isFinite = true ∧
      0.0 ≤ schedule.brightness 1 ∧ schedule.brightness 1 ≤ 1.0) ∧
    ∃ f p v, (source.renderer schedule).frame 1 = .ok f ∧ f.image.pixels[0]? = some p ∧
      p.alpha = 128 ∧ p.smallest = 0 ∧ HasValue (Float.ofNat 200 * schedule.brightness 1) v ∧
      p.largest = ⌊v⌋₊ := by
  intro schedule source
  have hhue : (schedule.hue 1).isFinite = true := by decide +kernel
  obtain ⟨b, hb, hlow, hhigh⟩ := schedule.hasValue_brightness 1 (by decide +kernel)
  have hlow' := (hasValue_zero.le_iff hb).mpr hlow
  have hhigh' := (hb.le_iff hasValue_one).mpr hhigh
  have hi : 1 < schedule.frameCount := by decide
  obtain ⟨shade, hshade, hsource⟩ := Source.frame_pixels hi hhue hlow' hhigh'
  obtain ⟨hsmallest, v, hv, hlargest⟩ := hshade 200
  obtain ⟨⟨f, hf, hshades⟩, -⟩ := hsource source
  exact ⟨⟨hi, hhue, hlow', hhigh'⟩, f, _, v, hf, hshades.pixels 0 _ rfl, rfl, hsmallest, hv,
    hlargest⟩

end HueCycle
