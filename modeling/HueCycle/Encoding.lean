/-
HueCycle.Encoding — the steps by which an animation is handed to an encoder.

An encoder of PNG files is known by what can be asked of it. It is told what
the file says of the animation and of the frames that follow, writes the
header, takes one frame after the other as samples, and ends the file. Any
step may be refused, for a reason in words; `Animation.encodeWith` asks for
all of them in order and names the step in its error. `Png.writer` is the
encoder that writes the files of `Png.Movie.encode`.
-/
import HueCycle.Animation

namespace HueCycle

namespace Png

/-- How a frame meets what was there before. -/
inductive Blend where
  | source
  | over
deriving Repr, DecidableEq

def Blend.code : Blend → UInt8
  | .source => 0
  | .over => 1

/-- What becomes of a frame when its time is over. -/
inductive Dispose where
  | stay
  | background
  | previous
deriving Repr, DecidableEq

def Dispose.code : Dispose → UInt8
  | .stay => 0
  | .background => 1
  | .previous => 2

/-- What can be asked of an encoder of images with four samples of eight bits. -/
structure Encoder where
  /-- A file before its header is written. -/
  Draft : Type
  /-- A file from its header on. -/
  Stream : Type
  create : Canvas → Draft
  /-- Announce an animation: its number of frames and of plays. -/
  setAnimated (frames plays : UInt32) : Draft → Except String Draft
  setDelay : FrameDelay → Draft → Except String Draft
  setBlend : Blend → Draft → Except String Draft
  setDispose : Dispose → Draft → Except String Draft
  writeHeader : Draft → Except String Stream
  writeFrame (samples : Bytes) : Stream → Except String Stream
  finish : Stream → Except String Bytes

/-! ## An encoder -/

/-- A movie before its header is written. -/
structure MovieDraft where
  canvas : Canvas
  animation : Option AnimationControl
  /-- The control of the frames that follow. -/
  control : FrameControl

/-- Change the control of the frames that follow, in an animation. -/
def MovieDraft.change (f : FrameControl → FrameControl) (d : MovieDraft) :
    Except String MovieDraft :=
  match d.animation with
  | none => .error "not an animation"
  | some _ => .ok { d with control := f d.control }

/-- A movie from its header on. -/
structure MovieStream where
  /-- The number of frames that the header announces. -/
  announced : UInt32
  control : FrameControl
  movie : Movie

/-- The bitmap with the given samples, if their number fits the canvas. -/
def bitmapOf? (canvas : Canvas) (samples : Bytes) : Option Bitmap :=
  if samples.length = 4 * canvas.area then
    Bitmap.ofPixels? canvas (Pixel.ofSamples samples).toArray
  else none

/-- Add a bitmap to a movie as its next frame. -/
def MovieStream.push (s : MovieStream) (image : Bitmap) : MovieStream where
  announced := s.announced
  control := s.control
  movie := ⟨s.movie.canvas, s.movie.plays, s.movie.frames ++ [⟨s.control, image⟩]⟩

/-- Add the frame of some samples to a movie. -/
def MovieStream.add (samples : Bytes) (s : MovieStream) : Except String MovieStream :=
  match bitmapOf? s.movie.canvas samples with
  | none => .error (wrongSize (4 * s.movie.canvas.area) samples.length)
  | some image => .ok (s.push image)

/-- The encoder of movies. It writes no other files. -/
def writer : Encoder where
  Draft := MovieDraft
  Stream := MovieStream
  create canvas := ⟨canvas, none, .full canvas ⟨1, 30⟩⟩
  setAnimated frames plays d :=
    if frames = 0 then .error "Zero frames not allowed"
    else .ok { d with animation := some ⟨frames, plays⟩ }
  setDelay delay := MovieDraft.change ({ · with delay })
  setBlend blend := MovieDraft.change ({ · with blend := blend.code })
  setDispose dispose := MovieDraft.change ({ · with dispose := dispose.code })
  writeHeader d :=
    if d.canvas.width = 0 then .error "Zero width not allowed"
    else if d.canvas.height = 0 then .error "Zero height not allowed"
    else
      match d.animation with
      | none => .error "not an animation"
      | some animation => .ok ⟨animation.frames, d.control, ⟨d.canvas, animation.plays, []⟩⟩
  writeFrame := MovieStream.add
  finish s := .ok s.movie.encode

end Png

/-! ## Animations -/

/-- The answer to a step, with the step named in its error. -/
def attempt {α : Type} (what : String) (answer : Except String α) : Except Error α :=
  answer.mapError fun reason => .encode (.refused what reason)

/-- Write frames, counted from `index`, each as all that is in its buffer. -/
def writeFrames (e : Png.Encoder) (index : Nat) : List Image → e.Stream → Except Error e.Stream
  | [], s => .ok s
  | image :: rest, s => do
    let s ← attempt s!"encode APNG frame {index}" (e.writeFrame image.samples s)
    writeFrames e (index + 1) rest s

/-- The file of an animation, step by step: every frame replaces the one before and stays. -/
def Animation.encodeWith (e : Png.Encoder) (a : Animation) : Except Error Bytes := do
  let plays ← a.loopMode.plays
  if 0x100000000 ≤ a.length then throw (.encode (.tooManyFrames a.length))
  let draft ← attempt "set APNG animation control"
    (e.setAnimated (UInt32.ofNat a.length) plays (e.create a.canvas))
  let draft ← attempt "set APNG frame delay" (e.setDelay a.delay draft)
  let draft ← attempt "set APNG blend op" (e.setBlend .source draft)
  let draft ← attempt "set APNG dispose op" (e.setDispose .stay draft)
  let stream ← attempt "write APNG header" (e.writeHeader draft)
  let stream ← writeFrames e 0 a.frames stream
  attempt "finish APNG stream" (e.finish stream)

end HueCycle
