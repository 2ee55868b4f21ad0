/-
HueCycle.Schedule — which hue and which brightness each frame gets.

The hue climbs a straight ramp that completes `shifts` turns over the
duration. The brightness is a sine wave that completes `blinks` cycles. A
schedule exists only if rate times duration is a positive whole number of
frames, within a tolerance, and the delay of one frame can be written down
exactly.
-/
import HueCycle.Timing.FrameRange
import HueCycle.Timing.FrameRate

namespace HueCycle

open Scalar

/-- The hue ramp at a time: `shifts` turns in `duration` seconds. -/
@[specialize] def rampAt {α : Type} [Scalar α] (time duration shifts : α) : α :=
  time * (shifts / duration)

/-- Half the circumference of the unit circle, to the precision of a double:
a 53-bit integer over a power of two. -/
@[specialize] def halfCircle {α : Type} [Scalar α] : α :=
  whole 884279719003555 / whole 281474976710656

/-- The angle of the brightness wave at a time: `blinks` full circles in
`duration` seconds. -/
@[specialize] def phaseAt {α : Type} [Scalar α] (time duration blinks : α) : α :=
  whole 2 * halfCircle * (blinks / duration) * time

/-- The sine of an angle. For a finite angle the result is kept in
`[-1, 1]`, where every sine lies; other angles have none. -/
def sine (angle : Float) : Float :=
  if angle.isFinite then
    let s := angle.sin
    if s ≤ 1.0 then if -1.0 ≤ s then s else -1.0 else 1.0
  else 0.0 / 0.0

/-- What is known of one frame before it is rendered. -/
structure Cue where
  index : FrameIndex
  /-- When the frame starts, in seconds. -/
  elapsed : Float
  /-- The hue in turns; it may be any number of them. -/
  hue : Float
  /-- The brightness factor, from 0 to 1. -/
  brightness : Float

/-- A hue ramp and a brightness wave over a fixed duration. -/
structure Schedule where
  rate : FrameRate
  duration : Float
  shifts : Float
  blinks : Float
  frameCount : UInt64
  delay : FrameDelay

namespace Schedule

/-- How far rate times duration may be from a whole number, in proportion to
the product where it is above one. -/
def tolerance : Float := 1e-9

/-- The number of frames of a duration. -/
def countFrames (rate : FrameRate) (duration : Float) : Except Error UInt64 :=
  let product := rate.value * duration
  let rounded := Binary64.round product
  if tolerance * larger product 1.0 < (product - rounded).abs then
    .error (.config (.notWhole rate.value duration product))
  else if rounded < 1.0 then .error (.config .noFrames)
  else if 4294967295.0 < rounded then .error (.config (.tooManyFrames rounded))
  else .ok rounded.toUInt64

/-- The schedule of a rate, a duration, turns of hue and cycles of
brightness. -/
def plan (rate : FrameRate) (duration shifts blinks : Float) : Except Error Schedule := do
  if !duration.isFinite || duration ≤ 0.0 then
    throw (.config (.durationNotPositive duration))
  if !shifts.isFinite then throw (.config .shiftsNotFinite)
  if !blinks.isFinite then throw (.config .blinksNotFinite)
  let frameCount ← countFrames rate duration
  let delay ← rate.delay
  return { rate, duration, shifts, blinks, frameCount, delay }

/-- The positions of all frames. -/
def range (s : Schedule) : FrameRange := ⟨0, s.frameCount⟩

/-- When a frame starts, in seconds. -/
def elapsed (s : Schedule) (i : FrameIndex) : Float := s.rate.elapsed i.toNat

/-- The hue of a frame in turns; it may be any number of them. -/
def hue (s : Schedule) (i : FrameIndex) : Float := rampAt (s.elapsed i) s.duration s.shifts

/-- The brightness of a frame. -/
def brightness (s : Schedule) (i : FrameIndex) : Float :=
  0.5 + 0.5 * sine (phaseAt (s.elapsed i) s.duration s.blinks)

/-- The cue of a frame. -/
def cue (s : Schedule) (i : FrameIndex) : Cue :=
  ⟨i, s.elapsed i, s.hue i, s.brightness i⟩

/-- The cues of all frames in order. -/
def cues (s : Schedule) : List Cue := s.range.indices.map s.cue

end Schedule

end HueCycle
