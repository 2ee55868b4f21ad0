/-
HueCycle.Animation — a sequence of frames of one size with the time each is
shown and how often the sequence plays, and its file as an animated PNG.

Every frame covers the whole canvas and replaces the one before, alpha
included.
-/
import HueCycle.LoopMode
import HueCycle.Container
import HueCycle.Png.Movie

namespace HueCycle

/-- What is wrong with a number of samples. -/
def Png.wrongSize (expected got : Nat) : String :=
  s!"wrong data size, expected {expected} got {got}"

/-- The first frame, counted from `index`, whose size is not the expected one. -/
def firstMismatch? (expected : Canvas) : Nat → List Image → Option (Nat × Canvas)
  | _, [] => none
  | index, f :: rest =>
    if f.canvas = expected then firstMismatch? expected (index + 1) rest
    else some (index, f.canvas)

theorem canvas_eq_of_firstMismatch? {expected : Canvas} {frames : List Image} {index : Nat}
    (h : firstMismatch? expected index frames = none) : ∀ f ∈ frames, f.canvas = expected := by
  induction frames generalizing index with
  | nil => simp
  | cons g rest ih =>
    unfold firstMismatch? at h
    split at h
    · rename_i hg
      intro f hf
      rcases List.mem_cons.mp hf with rfl | hf
      · exact hg
      · exact ih h f hf
    · simp at h

/-- The common size of frames: there is at least one, with pixels, and all
have its size. -/
def commonCanvas : List Image → Except Error Canvas
  | [] => .error (.config .framesMissing)
  | first :: rest =>
    if !first.canvas.hasPixels then .error (.config (.framesEmpty first.canvas))
    else
      match firstMismatch? first.canvas 1 rest with
      | some (index, got) => .error (.config (.sizeMismatch index got first.canvas))
      | none => .ok first.canvas

/-- An animation. -/
structure Animation where
  frames : List Image
  canvas : Canvas
  delay : FrameDelay
  loopMode : LoopMode
  frames_ne_nil : frames ≠ []
  canvas_eq : ∀ f ∈ frames, f.canvas = canvas
  hasPixels : canvas.hasPixels = true
  den_ne_zero : delay.den ≠ 0

theorem commonCanvas_ok {frames : List Image} {canvas : Canvas}
    (h : commonCanvas frames = .ok canvas) :
    frames ≠ [] ∧ (∀ f ∈ frames, f.canvas = canvas) ∧ canvas.hasPixels = true := by
  cases frames with
  | nil => simp [commonCanvas] at h
  | cons first rest =>
    cases hp : first.canvas.hasPixels with
    | false => simp [commonCanvas, hp] at h
    | true =>
      cases hm : firstMismatch? first.canvas 1 rest with
      | some m => simp [commonCanvas, hp, hm] at h
      | none =>
        have hc : first.canvas = canvas := by simpa [commonCanvas, hp, hm] using h
        subst hc
        refine ⟨by simp, fun f hf => ?_, hp⟩
        rcases List.mem_cons.mp hf with rfl | hf
        · rfl
        · exact canvas_eq_of_firstMismatch? hm f hf

namespace Animation

/-- An animation of frames that fit together. -/
def make (frames : List Image) (delay : FrameDelay) (loopMode : LoopMode) :
    Except Error Animation :=
  match h : commonCanvas frames with
  | .error e => .error e
  | .ok canvas =>
    if hd : delay.den = 0 then .error (.config .delayWithoutDenominator)
    else
      .ok { frames, canvas, delay, loopMode
            frames_ne_nil := (commonCanvas_ok h).1
            canvas_eq := (commonCanvas_ok h).2.1
            hasPixels := (commonCanvas_ok h).2.2
            den_ne_zero := hd }

/-- The number of frames. -/
def length (a : Animation) : Nat := a.frames.length

/-- Whether there is no frame at all. -/
def isEmpty (a : Animation) : Bool := a.frames.isEmpty

/-- The animated PNG of the animation, with the number of plays that its header
states. -/
def movie (a : Animation) (plays : UInt32) : Png.Movie where
  canvas := a.canvas
  plays := plays
  frames := a.frames.map fun image => ⟨Png.FrameControl.full a.canvas a.delay, image.toBitmap⟩

/-- The first frame, counted from `index`, with more in its buffer than its pixels. -/
def firstLonger? : Nat → List Image → Option (Nat × Image)
  | _, [] => none
  | index, f :: rest =>
    if f.surplus.isEmpty then firstLonger? (index + 1) rest else some (index, f)

/-- The error for a frame at a position with more in its buffer than its pixels. -/
def longerFrame (canvas : Canvas) (index : Nat) (f : Image) : Error :=
  .encode (.refused s!"encode APNG frame {index}"
    (Png.wrongSize (4 * canvas.area) f.samples.length))

/-- The file of the animation. Frames are stored as their buffers are, so no buffer may
hold more than the pixels. -/
def encode (a : Animation) : Except Error Bytes := do
  let plays ← a.loopMode.plays
  if 0x100000000 ≤ a.length then throw (.encode (.tooManyFrames a.length))
  match firstLonger? 0 a.frames with
  | none => return (a.movie plays).encode
  | some (index, f) => throw (longerFrame a.canvas index f)

/-- The file of the animation in the given container. -/
def encodeAs (a : Animation) : Container → Except Error Bytes
  | .apng => a.encode

end Animation

/-- The PNG file of one frame; only its pixels matter. -/
def Image.png (image : Image) : Except Error Bytes :=
  if image.canvas.width = 0 then .error (.encode .zeroWidth)
  else if image.canvas.height = 0 then .error (.encode .zeroHeight)
  else .ok (Png.encodeStill image.toBitmap)

end HueCycle
