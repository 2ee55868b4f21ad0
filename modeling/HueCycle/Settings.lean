/-
HueCycle.Settings — everything that turns one source image into one
animation, the checks made before any work starts, and the JSON form.

In JSON every key may be missing and then has its default; unknown keys are
refused. A list gives the values in the order of declaration and may stop
anywhere.
-/
import HueCycle.Json.Record
import HueCycle.LoopMode
import HueCycle.Container
import HueCycle.Schedule

namespace HueCycle

/-- The settings of one animation. -/
structure Settings where
  /-- The source image. -/
  input : Path
  /-- The animation to write; its extension chooses the container. -/
  output : Path
  /-- Frames per second. -/
  frameRate : UInt32
  /-- The length of the animation in seconds. -/
  duration : Float
  /-- Turns of hue over the duration. -/
  shifts : Float
  /-- Cycles of brightness over the duration. -/
  blinks : Float
  loopMode : LoopMode

namespace Settings

/-- What holds where nothing else is said. -/
def default : Settings where
  input := Path.ofString "logo.png"
  output := Path.ofString "logo.apng"
  frameRate := 15
  duration := 3.0
  shifts := 1.0
  blinks := 3.0
  loopMode := .infinite

instance : Inhabited Settings := ⟨default⟩

/-- Read relative paths from `base`. -/
def resolve (s : Settings) (base : Path) : Settings :=
  { s with input := base.join s.input, output := base.join s.output }

/-- The frame rate as a fraction. -/
def rate (s : Settings) : Except Error FrameRate :=
  if s.frameRate = 0 then .error (.config .rateZero) else FrameRate.perSecond s.frameRate

/-- The schedule that the timing fields imply. -/
def schedule (s : Settings) : Except Error Schedule := do
  Schedule.plan (← s.rate) s.duration s.shifts s.blinks

/-- Check every field: first the timing, then the output, then the loop mode. -/
def validate (s : Settings) : Except Error Unit := do
  let _ ← s.schedule
  let _ ← Container.ofPath s.output
  if s.loopMode = .finite 0 then throw (.config .loopZero)

/-! ## JSON -/

/-- The fields that a text sets. -/
structure Given where
  input : Option Path
  output : Option Path
  frameRate : Option UInt32
  duration : Option Float
  shifts : Option Float
  blinks : Option Float
  loopMode : Option LoopMode

/-- No field at all. -/
def Given.nothing : Given := ⟨none, none, none, none, none, none, none⟩

/-- The settings with the given fields, and defaults for the others. -/
def Given.complete (g : Given) : Settings where
  input := g.input.getD default.input
  output := g.output.getD default.output
  frameRate := g.frameRate.getD default.frameRate
  duration := g.duration.getD default.duration
  shifts := g.shifts.getD default.shifts
  blinks := g.blinks.getD default.blinks
  loopMode := g.loopMode.getD default.loopMode

open Json

/-- A path in JSON. -/
def readPath : Reader Path := fun bytes =>
  (Json.string "path string" bytes).map fun r => (⟨r.1⟩, r.2)

/-- A frame rate in JSON. -/
def readRate : Reader UInt32 := fun bytes =>
  (natural 32 bytes).map fun r => (UInt32.ofNat r.1, r.2)

/-- The fields in the order of declaration. -/
def fields : List (Record.Field Given) := [
  Record.Field.of "input_path" Given.input (fun g v => { g with input := some v }) readPath,
  Record.Field.of "output_path" Given.output (fun g v => { g with output := some v }) readPath,
  Record.Field.of "frame_rate" Given.frameRate (fun g v => { g with frameRate := some v }) readRate,
  Record.Field.of "duration" Given.duration (fun g v => { g with duration := some v }) Json.float,
  Record.Field.of "shifts" Given.shifts (fun g v => { g with shifts := some v }) Json.float,
  Record.Field.of "blinks" Given.blinks (fun g v => { g with blinks := some v }) Json.float,
  Record.Field.of "loop_mode" Given.loopMode (fun g v => { g with loopMode := some v })
    LoopMode.read]

/-- The JSON record of the settings. -/
def record : Record Given Settings where
  name := "struct AnimationConfig"
  fields := fields
  start := Given.nothing
  closed := true
  mayStop := true
  finish g := .ok g.complete

/-- The settings that a whole JSON text gives. -/
def parse (bytes : Bytes) : Except Error Settings :=
  match readWhole record.read bytes with
  | .ok s => .ok s
  | .error fault => .error (.config (.badJson fault))

/-- A path as a JSON string. -/
def writePath (path : Path) : Except Fault Bytes :=
  if Utf8.isValid path.bytes then .ok (writeStr path.bytes) else .error .pathNotText

/-- The JSON text of the settings: every field, in the order of declaration. -/
def print (s : Settings) : Except Fault Bytes := do
  return writeObject [
    ("input_path", ← writePath s.input),
    ("output_path", ← writePath s.output),
    ("frame_rate", writeNatural s.frameRate.toNat),
    ("duration", writeFloat s.duration),
    ("shifts", writeFloat s.shifts),
    ("blinks", writeFloat s.blinks),
    ("loop_mode", s.loopMode.write)]

end Settings

end HueCycle
