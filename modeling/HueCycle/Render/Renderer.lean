/-
HueCycle.Render.Renderer — rendering frames of a schedule from a baseline.

A frame depends on the baseline and its own cue only, so frames may be
rendered in any order, and frames with the same hue within a turn and the
same brightness may share their pixels. The frames of a range always come
in increasing order.
-/
import HueCycle.Color.Recolor
import HueCycle.Render.Plan
import HueCycle.Render.Pool
import HueCycle.Render.Shelf
import HueCycle.Schedule

namespace HueCycle.Render

/-- A rendered frame. -/
structure Frame where
  index : FrameIndex
  cue : Cue
  image : Image

/-- How the frames of a range are rendered. -/
structure Threading where
  /-- Render on a pool of workers. -/
  parallel : Bool
  /-- The number of workers, if it is prescribed; only looked at for a pool. -/
  threads : Option Nat
  /-- Let frames of the same look share their pixels. -/
  elide : Bool

/-- One frame after the other, each for itself. -/
def Threading.sequential : Threading := ⟨false, none, false⟩

/-- How many frames were asked for, rendered and shared. -/
structure Stats where
  total : Nat
  rendered : Nat
  elided : Nat
deriving Repr, DecidableEq

/-- A baseline and the schedule by which it changes. -/
structure Renderer where
  baseline : Image
  schedule : Schedule

/-- What decides on the look of a frame: the bits of the hue within a turn and
of the brightness. -/
def lookOf (c : Cue) : UInt64 × UInt64 :=
  ((Hsv.hueInTurn c.hue).toBits, c.brightness.toBits)

/-- The plan for frames with the given cues. -/
def planFor (cues : List Cue) (elide : Bool) : Plan :=
  if elide then Plan.sharing (cues.map lookOf) else Plan.separate cues.length

/-- The error that a fault at the shelf means. -/
def ShelfFault.toError : ShelfFault → Error
  | .noSuchSlot => .fatal .indexOutOfBounds
  | .nothingLeftToServe => .fatal .countBelowZero
  | .slotEmpty => .validation .slotReused

/-- Run jobs one after the other up to the first one that fails. -/
def runJobs : List (Unit → Except Error Image) → Except Error (List Image)
  | [] => .ok []
  | job :: jobs => do
    let image ← job ()
    return image :: (← runJobs jobs)

namespace Renderer

/-- The pixels for a cue. -/
def paint (r : Renderer) (c : Cue) : Except Error Image :=
  r.baseline.recolorChecked c.hue c.brightness

/-- Render one frame of the animation. -/
def frame (r : Renderer) (i : FrameIndex) : Except Error Frame :=
  if r.schedule.range.contains i then do
    let cue := r.schedule.cue i
    return ⟨i, cue, ← r.paint cue⟩
  else .error (.validation (.frameOutside i r.schedule.frameCount))

/-- The pixels for the positions of a plan. -/
def paintUnique (r : Renderer) (threading : Threading) (pool : Pool)
    (cues : List Cue) (plan : Plan) : Except Error (List Image) :=
  let jobs := (plan.unique.filterMap fun i => cues[i]?).map fun c => fun _ => r.paint c
  if threading.parallel then
    if threading.threads = some 0 then .error (.validation .noThreads) else pool.run jobs
  else runJobs jobs

/-- Render a range of frames. The jobs of a pool finish as `pool` says. -/
def framesOn (r : Renderer) (pool : Pool) (range : FrameRange) (threading : Threading) :
    Except Error (List Frame × Stats) := do
  if range.isEmpty then throw (.validation .rangeEmpty)
  if r.schedule.frameCount < range.stop then
    throw (.validation (.rangeBeyond range.stop r.schedule.frameCount))
  let cues := range.indices.map r.schedule.cue
  let plan := planFor cues threading.elide
  let rendered ← r.paintUnique threading pool cues plan
  let (served, _) ← (Shelf.serve rendered plan.slots).mapError ShelfFault.toError
  let frames := List.zipWith (fun c given => Frame.mk c.index c given.1) cues served
  return (frames, ⟨cues.length, rendered.length, cues.length - rendered.length⟩)

/-- Render a range of frames. -/
def frames (r : Renderer) (range : FrameRange) (threading : Threading) :
    Except Error (List Frame × Stats) :=
  r.framesOn Pool.inOrder range threading

/-- Render all frames of the schedule. -/
def allFrames (r : Renderer) (threading : Threading) :
    Except Error (List Frame × Stats) :=
  r.frames r.schedule.range threading

end Renderer

end HueCycle.Render
