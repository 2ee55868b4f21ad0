/-
HueCycle.Timing.FrameRange — frame positions counted from zero, and
half-open ranges of them.

A range is any two positions; only `FrameRange.between` checks that they
are in order. A range whose end lies before its start holds no position.
-/
import HueCycle.Error

namespace HueCycle

/-- The position of a frame, counted from zero. -/
abbrev FrameIndex := UInt64

/-- The positions from `start` up to and without `stop`. -/
structure FrameRange where
  start : FrameIndex
  stop : FrameIndex
deriving Repr, DecidableEq

namespace FrameRange

/-- The range between two positions in order. -/
def between (start stop : FrameIndex) : Except Error FrameRange :=
  if stop < start then .error (.validation .rangeReversed) else .ok ⟨start, stop⟩

/-- The number of positions. -/
def length (r : FrameRange) : Nat := r.stop.toNat - r.start.toNat

/-- Whether the two ends meet. -/
def isEmpty (r : FrameRange) : Bool := r.start == r.stop

/-- Whether a position lies in the range. -/
def contains (r : FrameRange) (i : FrameIndex) : Bool :=
  decide (r.start ≤ i) && decide (i < r.stop)

/-- The first `n` positions, or all if there are fewer. -/
def first (r : FrameRange) (n : Nat) : List FrameIndex :=
  (List.range' r.start.toNat (min n r.length)).map UInt64.ofNat

/-- All positions in increasing order. -/
def indices (r : FrameRange) : List FrameIndex := r.first r.length

end FrameRange

end HueCycle
