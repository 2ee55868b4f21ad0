/-
HueCycle.CommandLine.Command — carrying out what the command line asks for.

All subcommands start from the same effective settings: those of the
configuration file, or the defaults without one, with the values given on
the command line in place of theirs.
-/
import HueCycle.CommandLine.Arguments
import HueCycle.Files.Jobs

namespace HueCycle.CommandLine

open Files

variable {ε : Type} (reader : Bytes → Except ε Raster)

/-- The value given with an option. -/
def valueOf (given : List (Key × Value)) (key : Key) : Option Value := given.lookup key

def pathOf (given : List (Key × Value)) (key : Key) : Option Path :=
  match valueOf given key with
  | some (.path p) => some p
  | _ => none

def wholeOf (given : List (Key × Value)) (key : Key) : Option Nat :=
  match valueOf given key with
  | some (.whole n) => some n
  | _ => none

def numberOf (given : List (Key × Value)) (key : Key) : Option Float :=
  match valueOf given key with
  | some (.number x) => some x
  | _ => none

def isGiven (given : List (Key × Value)) (key : Key) : Bool := (valueOf given key).isSome

/-- Put the values given on the command line in place of those of the settings. -/
def override (given : List (Key × Value)) (s : Settings) : Settings :=
  { s with
    input := (pathOf given .input).getD s.input
    frameRate := ((wholeOf given .fps).map UInt32.ofNat).getD s.frameRate
    duration := (numberOf given .duration).getD s.duration
    shifts := (numberOf given .shifts).getD s.shifts
    blinks := (numberOf given .blinks).getD s.blinks }

/-- Put a text in front of a failure. -/
def withContext {α : Type} (text : String) (job : Job α) : Job α :=
  tryCatch job fun e => throw (.noted text (e.message :: e.causes))

/-- The settings that the options ask for. -/
def effectiveSettings (given : List (Key × Value)) : Job Settings := do
  let base ← match pathOf given .config with
    | none => pure Settings.default
    | some path => withContext s!"load config '{path.text}'" (Settings.load path)
  return override given base

/-- What a finished command prints. -/
structure Printed where
  /-- Lines for standard output. -/
  out : List String
  /-- Lines for standard error. -/
  err : List String

/-- Make the whole animation. -/
def render (given : List (Key × Value)) : Job Printed := do
  let s ← effectiveSettings given
  let s := { s with
    output := (pathOf given .out).getD s.output
    loopMode := ((wholeOf given .loops).map (LoopMode.finite ∘ UInt16.ofNat)).getD s.loopMode }
  let threading : Render.Threading :=
    ⟨isGiven given .parallel, wholeOf given .threads, isGiven given .elide⟩
  let report ← s.runOn reader Render.Pool.inOrder threading
  return ⟨[], [s!"wrote {report.output.text} ({report.stats.total} frames, {report.canvas.text})"]⟩

/-- Write one frame. -/
def frame (given : List (Key × Value)) : Job Printed := do
  let s ← effectiveSettings given
  let index := (wholeOf given .frame).getD 0
  let out := (pathOf given .out).getD ⟨[]⟩
  let _ ← withContext s!"render frame {index} to '{out.text}'"
    (s.previewWith reader (UInt64.ofNat index) out)
  return ⟨[], [s!"wrote {out.text}"]⟩

/-- The line of the table for one frame. -/
def scheduleLine (p : Cue) : String :=
  let number := Decimal.fixed 6
  s!"{p.index.toNat} {number p.elapsed} {number p.hue} {number p.brightness}"

/-- The table of all frames under its heading. -/
def scheduleTable (s : Schedule) : List String :=
  "frame elapsed_s hue brightness" :: s.cues.map scheduleLine

/-- Print the table of all frames. -/
def schedule (given : List (Key × Value)) : Job Printed := do
  let s ← effectiveSettings given
  let plan ← Job.of s.schedule
  return ⟨scheduleTable plan, []⟩

/-- Carry out a subcommand. -/
def perform (s : Subcommand) (given : List (Key × Value)) : Job Printed :=
  match s with
  | .render => render reader given
  | .frame => frame reader given
  | .schedule => schedule given

/-! ## Reports of failures -/

/-- A cause below the message, its further lines set in as far as its first. -/
def causeText (first next : String) (cause : String) : String :=
  first ++ String.intercalate ("\n" ++ next) (cause.splitOn "\n")

/-- The causes below a message; several are numbered. -/
def causeTexts (causes : List String) : List String :=
  match causes with
  | [] => []
  | [cause] => [causeText "    " "    " cause]
  | _ => causes.zipIdx.map fun c =>
    let number := toString c.2
    let padding := String.ofList (List.replicate (5 - number.length) ' ')
    causeText (padding ++ number ++ ": ") "       " c.1

/-- The report of a failure. -/
def failureReport (e : Error) : String :=
  let headline := "Error: " ++ e.message
  if e.causes.isEmpty then headline
  else headline ++ "\n\nCaused by:\n" ++ String.intercalate "\n" (causeTexts e.causes)

/-! ## The program as a whole -/

/-- What the program shows in the end. -/
inductive Outcome where
  | help
  | version
  | misuse
  | finished (printed : Printed)
  | failed (report : String)

/-- The exit status. -/
def Outcome.status : Outcome → UInt8
  | .misuse => 2
  | .failed _ => 1
  | _ => 0

/-- The line that names the program and its version. -/
def versionLine : String := "hueloop 0.1.0"

/-- How an option is written, with what it takes. -/
def optionText (k : Key) : String :=
  match k.kind with
  | .flag => s!"--{k.name}"
  | .path => s!"--{k.name} PATH"
  | _ => s!"--{k.name} NUMBER"

/-- One line for each subcommand with its options; those that may be left out
stand in brackets. -/
def usage : List String :=
  "Usage:" :: Subcommand.all.map fun s =>
    let option (k : Key) : String :=
      if s.required.contains k then optionText k else "[" ++ optionText k ++ "]"
    "  hueloop " ++ " ".intercalate (s.name :: s.keys.map option)

/-- Run the program with a reader of image files. -/
def runWith (arguments : List Bytes) : Script Outcome :=
  match read arguments with
  | .help => pure .help
  | .version => pure .version
  | .misuse => pure .misuse
  | .perform s given => do
    match ← (perform reader s given).run with
    | .ok printed => return .finished printed
    | .error e => return .failed (failureReport e)

/-- Run the program, which reads PNG files. -/
def run : List Bytes → Script Outcome := runWith Png.reader

end HueCycle.CommandLine
