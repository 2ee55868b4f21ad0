/-
HueCycle.Color.Recolor — the two changes made to pixels: keeping only the
red part, and giving the pixel another hue and brightness. Alpha never
changes.
-/
import HueCycle.Color.Hsv
import HueCycle.Error
import HueCycle.Raster.Image

namespace HueCycle

open Scalar

variable {α : Type} [Scalar α]

/-- A computed channel as a sample: clamped to the range from 0 to 255 and
cut to a whole number; a value that is no number becomes 0. -/
@[specialize] def sampleOf (x : α) : UInt8 :=
  let clamped :=
    if lt x (whole 0) then whole 0 else if lt (whole 255) x then whole 255 else x
  UInt8.ofNat (toInt clamped).toNat

namespace Pixel

/-- The colour channels as scalars. -/
@[specialize] def channels (p : Pixel) : Rgb α :=
  ⟨whole p.red.toNat, whole p.green.toNat, whole p.blue.toNat⟩

/-- The pixel with computed channels in place of its own. -/
@[specialize] def withChannels (p : Pixel) (c : Rgb α) : Pixel :=
  ⟨sampleOf c.red, sampleOf c.green, sampleOf c.blue, p.alpha⟩

/-- Drop green and blue, then pass the colour through hue, saturation and
value. -/
@[specialize] def keepRedOver (α : Type) [Scalar α] (p : Pixel) : Pixel :=
  p.withChannels (Hsv.ofRgb (α := α) ⟨whole p.red.toNat, whole 0, whole 0⟩).toRgb

/-- Give the colour the hue `hue`, wrapped into one turn, and scale its
value by `factor`, keeping the saturation. -/
@[specialize] def recolor (p : Pixel) (hue factor : α) : Pixel :=
  let old := Hsv.ofRgb (p.channels (α := α))
  p.withChannels (Hsv.toRgb ⟨Hsv.hueInTurn hue, old.saturation, old.value * factor⟩)

/-- Keep only the red part of the colour, in double arithmetic. -/
def keepRed (p : Pixel) : Pixel := p.keepRedOver Float

end Pixel

namespace Image

/-- Keep only the red part of every pixel. -/
def keepRed (image : Image) : Image := image.map Pixel.keepRed

/-- Recolour every pixel. -/
@[specialize] def recolor (image : Image) (hue factor : α) : Image :=
  image.map (·.recolor hue factor)

/-- A hue must be finite, a brightness factor also not negative. -/
def checkRecolor (hue factor : Float) : Except Error Unit :=
  if !hue.isFinite then .error (.validation (.hueNotFinite hue))
  else if !factor.isFinite || factor < 0.0 then .error (.validation (.factorNotAllowed factor))
  else .ok ()

/-- Recolour every pixel with a hue and factor that are allowed. -/
def recolorChecked (image : Image) (hue factor : Float) : Except Error Image := do
  checkRecolor hue factor
  return image.recolor hue factor

end Image

end HueCycle
