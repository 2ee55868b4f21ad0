/-
HueCycle.Json.Values — the JSON forms of the small values: frame positions
and ranges, rates and delays, canvases and loop modes. Keys that do not
belong to a value are skipped.
-/
import HueCycle.LoopMode
import HueCycle.Timing.FrameRange
import HueCycle.Timing.FrameRate

namespace HueCycle.Json

/-- Types with a JSON form. -/
class Form (α : Type) where
  read : Reader α
  write : α → Bytes

/-- A record of two whole numbers below `2^width` with the given keys. -/
def pair {τ : Type} (name first second : String) (width : Nat) (make : Nat → Nat → τ) :
    Record (Option Nat × Option Nat) τ where
  name := name
  fields := [
    Record.Field.of first Prod.fst (fun s n => (some n, s.2)) (natural width),
    Record.Field.of second Prod.snd (fun s n => (s.1, some n)) (natural width)]
  start := (none, none)
  closed := false
  mayStop := false
  finish s := do return make (← require first s.1) (← require second s.2)

/-- The JSON text of a record of two whole numbers. -/
def writePair (first second : String) (a b : Nat) : Bytes :=
  writeObject [(first, writeNatural a), (second, writeNatural b)]

instance : Form FrameIndex where
  read bytes := (natural 64 bytes).map fun r => (UInt64.ofNat r.1, r.2)
  write i := writeNatural i.toNat

instance : Form FrameRange where
  read := (pair "struct FrameRange" "start" "end" 64
    fun a b => ⟨UInt64.ofNat a, UInt64.ofNat b⟩).read
  write r := writePair "start" "end" r.start.toNat r.stop.toNat

instance : Form FrameRate where
  read := (pair "struct Fps" "num" "den" 32 fun a b => ⟨UInt32.ofNat a, UInt32.ofNat b⟩).read
  write r := writePair "num" "den" r.num.toNat r.den.toNat

instance : Form FrameDelay where
  read := (pair "struct FrameDelay" "num" "den" 16
    fun a b => ⟨UInt16.ofNat a, UInt16.ofNat b⟩).read
  write d := writePair "num" "den" d.num.toNat d.den.toNat

instance : Form Canvas where
  read := (pair "struct Canvas" "width" "height" 32
    fun a b => ⟨UInt32.ofNat a, UInt32.ofNat b⟩).read
  write c := writePair "width" "height" c.width.toNat c.height.toNat

instance : Form LoopMode where
  read := LoopMode.read
  write := LoopMode.write

/-- The value of a whole text. -/
def parse {α : Type} [Form α] (bytes : Bytes) : Except Fault α := readWhole Form.read bytes

/-- The text of a value. -/
def print {α : Type} [Form α] (a : α) : Bytes := Form.write a

end HueCycle.Json
