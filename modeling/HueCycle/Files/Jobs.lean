/-
HueCycle.Files.Jobs — the work from files to files: reading settings and
sources, making a whole animation, and making a preview of one frame.

Each step reports its failure before any later step acts; nothing is
written before the last step. The reader of image files is a parameter; the
program reads PNG files.
-/
import HueCycle.Animate
import HueCycle.Files.Replacement

namespace HueCycle

open Files Render

variable {ε : Type} (reader : Bytes → Except ε Raster)

/-- Read and decode an image file. -/
def Source.readWith (path : Path) : Job Source := do
  match ← Job.ask (.read path) with
  | .error fault => throw (.decode (.cannotRead path fault.reason))
  | .ok file => Job.of (Source.decodeFile reader path file)

/-- Read and decode a PNG file. -/
def Source.read : Path → Job Source := Source.readWith Png.reader

/-- Read settings from a JSON file. Relative paths in it start from the
directory of the file. -/
def Settings.load (path : Path) : Job Settings := do
  match ← Job.ask (.read path) with
  | .error (.cannotOpen reason) => throw (.config (.cannotOpen path reason))
  | .error (.cannotRead reason) =>
    throw (.config (.inFile path (.badJson (.unreadable reason))))
  | .ok text =>
    match Settings.parse text with
    | .ok settings => return settings.resolve (path.parent?.getD ⟨[Path.dot]⟩)
    | .error (.config fault) => throw (.config (.inFile path fault))
    | .error e => throw e

/-- Write an animation to the container that the path asks for. -/
def Animation.save (animation : Animation) (path : Path) : Job Unit := do
  let format ← Job.of (Container.ofPath path)
  let file ← Job.of (animation.encodeAs format)
  replaceFile path file

/-- What a finished run has made. -/
structure Report where
  output : Path
  canvas : Canvas
  stats : Stats

/-- Make the animation that the settings describe, with the source read by
`reader` and the jobs of a pool finishing as `pool` says. The settings are
checked before anything is read. -/
def Settings.runOn (pool : Pool) (settings : Settings) (threading : Threading) : Job Report := do
  Job.of settings.validate
  let source ← Source.readWith reader settings.input
  let (animation, stats) ← Job.of (animateOn pool source settings threading)
  animation.save settings.output
  return ⟨settings.output, animation.canvas, stats⟩

/-- Write one frame of the animation that the settings describe as a PNG. -/
def Settings.previewWith (settings : Settings) (frame : FrameIndex) (out : Path) :
    Job Frame := do
  let schedule ← Job.of settings.schedule
  let source ← Source.readWith reader settings.input
  let rendered ← Job.of ((source.renderer schedule).frame frame)
  let file ← Job.of rendered.image.png
  replaceFile out file
  return rendered

/-- Make the animation that the settings describe of a PNG file. -/
def Settings.run : Settings → Threading → Job Report := Settings.runOn Png.reader Pool.inOrder

/-- Write one frame of the animation that the settings describe of a PNG file. -/
def Settings.preview : Settings → FrameIndex → Path → Job Frame :=
  Settings.previewWith Png.reader

end HueCycle
