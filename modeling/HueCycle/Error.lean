/-
HueCycle.Error — everything that can go wrong, by cause. The causes come
in families, and the family decides how the message begins; the wording of
every message is in this one module.
-/
import HueCycle.Json.Fault
import HueCycle.Path
import HueCycle.Raster.Canvas

namespace HueCycle

/-- A value outside of its accepted domain. -/
inductive ValidationFault where
  | rangeReversed
  | rateWithoutSeconds
  | rateWithoutFrames
  | hueNotFinite (hue : Float)
  | factorNotAllowed (factor : Float)
  | frameOutside (frame count : UInt64)
  | rangeEmpty
  | rangeBeyond (stop count : UInt64)
  | noThreads
  | slotReused
  | noted (text : String)

def ValidationFault.text : ValidationFault → String
  | .rangeReversed => "FrameRange start must be <= end"
  | .rateWithoutSeconds => "Fps den must be > 0"
  | .rateWithoutFrames => "Fps num must be > 0"
  | .hueNotFinite hue => s!"hue must be finite, got {Decimal.Style.message.text hue}"
  | .factorNotAllowed factor =>
    s!"brightness factor must be finite and >= 0, got {Decimal.Style.message.text factor}"
  | .frameOutside frame count =>
    s!"frame {frame.toNat} is outside the animation (0..{count.toNat})"
  | .rangeEmpty => "render range must be non-empty"
  | .rangeBeyond stop count =>
    s!"render range end {stop.toNat} exceeds frame count {count.toNat}"
  | .noThreads => "render threading 'threads' must be >= 1 when set"
  | .slotReused => "rendered frame slot reused after move (bug)"
  | .noted text => text

/-- Settings that cannot produce a valid animation. -/
inductive ConfigFault where
  | durationNotPositive (seconds : Float)
  | shiftsNotFinite
  | blinksNotFinite
  | notWhole (rate seconds product : Float)
  | noFrames
  | tooManyFrames (count : Float)
  | delayTooFine (num den : UInt32)
  | rateZero
  | loopZero
  | playsZero
  | unsupportedFormat (extension : String) (path : Path)
  | noExtension (path : Path)
  | framesMissing
  | framesEmpty (canvas : Canvas)
  | sizeMismatch (index : Nat) (got expected : Canvas)
  | delayWithoutDenominator
  | cannotOpen (path : Path) (reason : Files.OsError)
  | badJson (fault : Json.Fault)
  | inFile (path : Path) (fault : ConfigFault)
  | noted (text : String)

def ConfigFault.text : ConfigFault → String
  | .durationNotPositive seconds =>
    s!"duration must be finite and > 0 seconds, got {Decimal.Style.message.text seconds}"
  | .shiftsNotFinite => "shifts must be finite"
  | .blinksNotFinite => "blinks must be finite"
  | .notWhole rate seconds product =>
    let shown := Decimal.Style.message.text
    "frame rate " ++ shown rate ++ " x duration " ++ shown seconds ++ "s = " ++ shown product ++
      " is not a whole number of frames"
  | .noFrames => "frame rate x duration yields zero frames"
  | .tooManyFrames count => s!"frame count {Decimal.Style.message.text count} is too large"
  | .delayTooFine num den =>
    s!"frame delay {num.toNat}/{den.toNat}s does not fit in 16-bit numerator and denominator"
  | .rateZero => "frame_rate must be > 0"
  | .loopZero => "finite loop count must be >= 1"
  | .playsZero => "finite loop count must be >= 1 (use infinite looping instead)"
  | .unsupportedFormat extension path =>
    s!"unsupported output format '.{extension}' for '{path.text}' (expected .apng or .png)"
  | .noExtension path =>
    s!"output path '{path.text}' has no extension (expected .apng or .png)"
  | .framesMissing => "animation needs at least one frame"
  | .framesEmpty canvas => s!"animation frames must be non-empty, got {canvas.text}"
  | .sizeMismatch index got expected =>
    s!"frame size mismatch at frame {index}: got {got.text}, expected {expected.text}"
  | .delayWithoutDenominator => "frame delay denominator must be > 0"
  | .cannotOpen path reason => s!"open config JSON '{path.text}': {reason.text}"
  | .badJson fault => s!"parse config JSON: {fault.message}"
  | .inFile path fault => s!"'{path.text}': {fault.text}"
  | .noted text => text

/-- A source image that cannot be read. -/
inductive DecodeFault where
  | cannotRead (path : Path) (reason : Files.OsError)
  | undecodable
  | noPixels
  | inFile (path : Path) (fault : DecodeFault)
  | noted (text : String)

def DecodeFault.text : DecodeFault → String
  | .cannotRead path reason => s!"open source image '{path.text}': {reason.text}"
  | .undecodable => "decode image"
  | .noPixels => "source image has no pixels"
  | .inFile path fault => s!"'{path.text}': {fault.text}"
  | .noted text => text

/-- An animation or image that cannot be encoded or put into place. -/
inductive EncodeFault where
  | tooManyFrames (count : Nat)
  | zeroWidth
  | zeroHeight
  | cannotReplace (path : Path) (reason : Files.OsError)
  /-- A step that the encoder refuses. -/
  | refused (step reason : String)
  | noted (text : String)

def EncodeFault.text : EncodeFault → String
  | .tooManyFrames count => s!"too many frames for APNG: {count}"
  | .zeroWidth => "failed to encode PNG: Zero width not allowed"
  | .zeroHeight => "failed to encode PNG: Zero height not allowed"
  | .cannotReplace path reason =>
    s!"failed to move output into place at '{path.text}': {reason.text}"
  | .refused step reason => "failed to " ++ step ++ ": " ++ reason
  | .noted text => text

/-- Preparations of a write that failed, told as what was tried. -/
inductive Attempt where
  | createDirectory (path : Path)
  | createTemporary (directory : Path)
  | writeTemporary (path : Path)
  | syncTemporary (path : Path)
deriving Repr, DecidableEq

def Attempt.text : Attempt → String
  | .createDirectory path => s!"failed to create output directory '{path.text}'"
  | .createTemporary directory => s!"failed to create temporary file in '{directory.text}'"
  | .writeTemporary path => s!"failed to write '{path.text}'"
  | .syncTemporary path => s!"failed to sync '{path.text}'"

/-- The families of errors. -/
inductive ErrorKind where
  | validation
  | config
  | decode
  | encode
  | io
  | other
  /-- The program would stop here instead of reporting an error. -/
  | fatal
deriving Repr, DecidableEq

/-- Steps of whole-number arithmetic and of indexing that have no answer. -/
inductive Halt where
  | divisionByZero
  | indexOutOfBounds
  | countBelowZero
deriving Repr, DecidableEq

def Halt.text : Halt → String
  | .divisionByZero => "attempt to divide by zero"
  | .indexOutOfBounds => "index out of bounds"
  | .countBelowZero => "attempt to subtract with overflow"

/-- What can go wrong. -/
inductive Error where
  | validation (fault : ValidationFault)
  | config (fault : ConfigFault)
  | decode (fault : DecodeFault)
  | encode (fault : EncodeFault)
  | io (text : String)
  | attempt (what : Attempt) (reason : Files.OsError)
  /-- A text with the causes below it, outermost first. -/
  | noted (text : String) (causes : List String)
  | fatal (halt : Halt)

namespace Error

/-- The family of an error. -/
def kind : Error → ErrorKind
  | .validation _ => .validation
  | .config _ => .config
  | .decode _ => .decode
  | .encode _ => .encode
  | .io _ => .io
  | .attempt .. => .other
  | .noted .. => .other
  | .fatal _ => .fatal

/-- The message of an error. -/
def message : Error → String
  | .validation fault => "validation error: " ++ fault.text
  | .config fault => "configuration error: " ++ fault.text
  | .decode fault => "decode error: " ++ fault.text
  | .encode fault => "encode error: " ++ fault.text
  | .io text => text
  | .attempt what _ => what.text
  | .noted text _ => text
  | .fatal halt => halt.text

/-- What lies below the message, outermost first. -/
def causes : Error → List String
  | .attempt _ reason => [reason.text]
  | .noted _ causes => causes
  | _ => []

end Error

end HueCycle
