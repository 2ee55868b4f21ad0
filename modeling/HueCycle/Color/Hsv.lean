/-
HueCycle.Color.Hsv — colours as hue, saturation and value, and the two
conversions between that form and red, green, blue.

Hue is a fraction of a full turn and saturation lies in `[0, 1]`. Value is
the largest channel and so carries whatever unit the channels have: the
animation uses samples from 0 to 255, and channels from 0 to 1 work the
same way. Every formula is stated over a `Scalar`; the order of the
operations is part of its meaning over doubles.
-/
import HueCycle.Numeric.Scalar

namespace HueCycle

/-- Red, green and blue channels. -/
structure Rgb (α : Type) where
  red : α
  green : α
  blue : α
deriving Repr, DecidableEq

/-- A colour as hue, saturation and value. -/
structure Hsv (α : Type) where
  hue : α
  saturation : α
  value : α
deriving Repr, DecidableEq

namespace Hsv

open Scalar

variable {α : Type} [Scalar α]

/-- The hue in sixths of a turn, counted from the axis of the largest
channel: red at 0, green at 2, blue at 4. Of equal largest channels the
earlier one decides. -/
@[specialize] def sixths (c : Rgb α) (top range : α) : α :=
  let fromRed := (top - c.red) / range
  let fromGreen := (top - c.green) / range
  let fromBlue := (top - c.blue) / range
  if eq c.red top then fromBlue - fromGreen
  else if eq c.green top then whole 2 + fromRed - fromBlue
  else whole 4 + fromGreen - fromRed

/-- Red, green and blue as hue, saturation and value. A grey has hue and
saturation zero. -/
@[specialize] def ofRgb (c : Rgb α) : Hsv α :=
  let top := larger (larger c.red c.green) c.blue
  let bottom := smaller (smaller c.red c.green) c.blue
  if eq bottom top then ⟨whole 0, whole 0, top⟩
  else
    let range := top - bottom
    ⟨fractUp (sixths c top range / whole 6), range / top, top⟩

/-- The sixth of the colour circle that a scaled hue falls in, counted
modulo six. -/
@[specialize] def sector (scaled : α) : Int := toInt (trunc scaled) % 6

/-- Hue, saturation and value as red, green and blue. The sector picks
which of the four mixing levels each channel gets. -/
@[specialize] def toRgb (c : Hsv α) : Rgb α :=
  if eq c.saturation (whole 0) then ⟨c.value, c.value, c.value⟩
  else
    let scaled := c.hue * whole 6
    let within := scaled - trunc scaled
    let low := c.value * (whole 1 - c.saturation)
    let falling := c.value * (whole 1 - c.saturation * within)
    let rising := c.value * (whole 1 - c.saturation * (whole 1 - within))
    match sector scaled with
    | 0 => ⟨c.value, rising, low⟩
    | 1 => ⟨falling, c.value, low⟩
    | 2 => ⟨low, c.value, rising⟩
    | 3 => ⟨low, falling, c.value⟩
    | 4 => ⟨rising, low, c.value⟩
    | _ => ⟨c.value, low, falling⟩

/-- A hue brought into `[0, 1)`. A tiny negative hue may round up to a
whole turn, which is hue zero. -/
@[specialize] def hueInTurn (hue : α) : α :=
  let turned := fractUp hue
  if le (whole 1) turned then whole 0 else turned

end Hsv

end HueCycle
