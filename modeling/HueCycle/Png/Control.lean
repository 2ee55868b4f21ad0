/-
HueCycle.Png.Control — the two control chunks of an animated PNG: how many
frames there are and how often they play, and where, how long and how each
frame is shown.
-/
import HueCycle.Png.Header
import HueCycle.Timing.FrameRate

namespace HueCycle.Png

/-- How many frames there are and how often they play, zero for without end. -/
structure AnimationControl where
  frames : UInt32
  plays : UInt32
deriving Repr, DecidableEq

namespace AnimationControl

def write (c : AnimationControl) : Bytes :=
  bigEndian 4 c.frames.toNat ++ bigEndian 4 c.plays.toNat

def read? (data : Bytes) : Option AnimationControl :=
  if data.length = 8 then
    some ⟨UInt32.ofNat (ofBigEndian (data.take 4)), UInt32.ofNat (ofBigEndian (data.drop 4))⟩
  else none

end AnimationControl

/-- The place of a frame on the canvas, its delay, what becomes of it and how
it meets what was there before. -/
structure FrameControl where
  region : Canvas
  x : UInt32
  y : UInt32
  delay : FrameDelay
  /-- With 0 it stays, with 1 it is cleared, with 2 it gives way to what was
  there before. -/
  dispose : UInt8
  /-- With 0 it replaces what was there, with 1 it is laid over. -/
  blend : UInt8
deriving Repr, DecidableEq

namespace FrameControl

/-- The number of octets of a frame control. -/
def length : Nat := 26

/-- A frame that covers the canvas, replaces what was there and stays. -/
def full (canvas : Canvas) (delay : FrameDelay) : FrameControl := ⟨canvas, 0, 0, delay, 0, 0⟩

/-- The data of a control chunk with its sequence number. -/
def write (sequence : Nat) (c : FrameControl) : Bytes :=
  bigEndian 4 sequence ++ bigEndian 4 c.region.width.toNat ++ bigEndian 4 c.region.height.toNat ++
    bigEndian 4 c.x.toNat ++ bigEndian 4 c.y.toNat ++ bigEndian 2 c.delay.num.toNat ++
    bigEndian 2 c.delay.den.toNat ++ [c.dispose, c.blend]

/-- The sequence number and the frame that a control chunk states. -/
def read? (data : Bytes) : Option (Nat × FrameControl) :=
  let word (i : Nat) : Nat := ofBigEndian ((data.drop (4 * i)).take 4)
  let short (i : Nat) : Nat := ofBigEndian ((data.drop i).take 2)
  match data.drop 24 with
  | [dispose, blend] =>
    if dispose ≤ 2 ∧ blend ≤ 1 then
      some (word 0,
        { region := ⟨UInt32.ofNat (word 1), UInt32.ofNat (word 2)⟩
          x := UInt32.ofNat (word 3)
          y := UInt32.ofNat (word 4)
          delay := ⟨UInt16.ofNat (short 20), UInt16.ofNat (short 22)⟩
          dispose, blend })
    else none
  | _ => none

/-- Whether the frame has pixels and lies on the canvas. -/
def fits (c : FrameControl) (canvas : Canvas) : Bool :=
  c.region.hasPixels && decide (c.x.toNat + c.region.width.toNat ≤ canvas.width.toNat) &&
    decide (c.y.toNat + c.region.height.toNat ≤ canvas.height.toNat)

/-- Whether the frame covers the whole canvas. -/
def covers (c : FrameControl) (canvas : Canvas) : Bool :=
  c.region = canvas && c.x = 0 && c.y = 0

end FrameControl

end HueCycle.Png
