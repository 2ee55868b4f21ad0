/-
HueCycle.Png.Scanlines — rows of octets and the pixels in them.

Every row is stored with the number of a filter: a prediction of each
octet from the ones to the left, above, and above to the left, so that only
the differences are stored. An interlaced image is stored as seven smaller
ones; the pixel at a position belongs to the first of them whose grid meets
the position.
-/
import HueCycle.Png.Header

namespace HueCycle.Png

/-- An unfiltered row. -/
abbrev Row := Array UInt8

/-- Of the three neighbours the one nearest to left + up - corner; the
earlier one where two are equally near. -/
def paeth (left up corner : UInt8) : UInt8 :=
  let guess : Int := left.toNat + up.toNat - corner.toNat
  let dl := (guess - left.toNat).natAbs
  let du := (guess - up.toNat).natAbs
  let dc := (guess - corner.toNat).natAbs
  if dl ≤ du ∧ dl ≤ dc then left else if du ≤ dc then up else corner

/-- What a filter predicts for an octet. -/
def predict (filter : Nat) (left up corner : UInt8) : UInt8 :=
  match filter with
  | 1 => left
  | 2 => up
  | 3 => UInt8.ofNat ((left.toNat + up.toNat) / 2)
  | 4 => paeth left up corner
  | _ => 0

/-- Undo the filter of a row. Octets outside of the image count as zero. -/
def unfilter (filter stride : Nat) (above : Row) (stored : Bytes) : Row :=
  stored.foldl (fun row b =>
    let i := row.size
    let back (r : Row) : UInt8 := if stride ≤ i then (r[i - stride]?).getD 0 else 0
    row.push (b + predict filter (back row) ((above[i]?).getD 0) (back above))) #[]

/-- Read `count` rows of `length` octets and their filters. -/
def readRows (stride length : Nat) : Nat → Row → Bytes → Except Fault (List Row × Bytes)
  | 0, _, data => .ok ([], data)
  | count + 1, above, data =>
    match data with
    | [] => .error .shortData
    | filter :: rest =>
      let (stored, rest) := rest.splitAt length
      if 4 < filter then .error (.badFilter filter.toNat)
      else if stored.length < length then .error .shortData
      else
        let row := unfilter filter.toNat stride above stored
        match readRows stride length count row rest with
        | .error fault => .error fault
        | .ok (rows, rest) => .ok (row :: rows, rest)

/-- The grid of a pass: where it starts and how far apart its points are. -/
structure Pass where
  xStart : Nat
  yStart : Nat
  xStep : Nat
  yStep : Nat
deriving Repr, DecidableEq

namespace Pass

/-- The number of grid points below `size`. -/
def count (start step size : Nat) : Nat := (size - start + step - 1) / step

def width (p : Pass) (c : Canvas) : Nat := count p.xStart p.xStep c.width.toNat

def height (p : Pass) (c : Canvas) : Nat := count p.yStart p.yStep c.height.toNat

/-- Whether a position lies on the grid. -/
def meets (p : Pass) (x y : Nat) : Bool :=
  p.xStart ≤ x && p.yStart ≤ y && (x - p.xStart) % p.xStep == 0 && (y - p.yStart) % p.yStep == 0

/-- The grid of all positions. -/
def whole : Pass := ⟨0, 0, 1, 1⟩

/-- The seven grids of an interlaced image. -/
def seven : List Pass := [
  ⟨0, 0, 8, 8⟩, ⟨4, 0, 8, 8⟩, ⟨0, 4, 4, 8⟩, ⟨2, 0, 4, 4⟩, ⟨0, 2, 2, 4⟩, ⟨1, 0, 2, 2⟩, ⟨0, 1, 1, 2⟩]

end Pass

/-- The passes of an image. -/
def Header.passes (h : Header) : List Pass := if h.interlaced then Pass.seven else [Pass.whole]

/-- The number of rows of a pass; a pass without columns has none. -/
def Pass.rowCount (p : Pass) (c : Canvas) : Nat := if p.width c = 0 then 0 else p.height c

/-- The number of octets of all rows of an image and their filters. -/
def Header.dataSize (h : Header) : Nat :=
  h.passes.foldl (fun n p => n + p.rowCount h.canvas * (h.rowBytes (p.width h.canvas) + 1)) 0

/-- The rows of a pass. -/
structure PassRows where
  pass : Pass
  rows : Array Row

/-- The rows of all passes. -/
def readPasses (h : Header) : List Pass → Bytes → Except Fault (List PassRows)
  | [], _ => .ok []
  | p :: passes, data => do
    let length := h.rowBytes (p.width h.canvas)
    let (rows, rest) ← readRows h.stride length (p.rowCount h.canvas) #[] data
    return ⟨p, rows.toArray⟩ :: (← readPasses h passes rest)

/-- Sample number `i` of a row. -/
def sampleAt (depth : Nat) (row : Row) (i : Nat) : Nat :=
  let octet (j : Nat) : Nat := ((row[j]?).getD 0).toNat
  if depth = 8 then octet i
  else if depth = 16 then octet (2 * i) * 256 + octet (2 * i + 1)
  else
    let bit := i * depth
    (octet (bit / 8) >>> (8 - depth - bit % 8)) % Nat.pow 2 depth

/-- A sample brought to eight bits: fewer bits are stretched, sixteen are
rounded. -/
def toEight (depth : Nat) (v : Nat) : UInt8 :=
  if depth = 8 then UInt8.ofNat v
  else if depth = 16 then UInt8.ofNat ((v + 128) / 257)
  else UInt8.ofNat (v * (255 / (Nat.pow 2 depth - 1)))

/-- All entries of a palette that a sample can name. -/
def Prelude.entries (p : Prelude) : Array Pixel := Array.ofFn fun i : Fin 256 => p.entry i.val

/-- Pixel number `column` of a row; `entries` are those of the palette. -/
def Prelude.pixel (p : Prelude) (entries : Array Pixel) (row : Row) (column : Nat) : Pixel :=
  let depth := p.header.depth
  let channels := p.header.colour.channels
  let raw (c : Nat) : Nat := sampleAt depth row (column * channels + c)
  let level (c : Nat) : UInt8 := toEight depth (raw c)
  match p.header.colour with
  | .grey =>
    let alpha := if p.transparentColour = some [raw 0] then 0 else 255
    ⟨level 0, level 0, level 0, alpha⟩
  | .rgb =>
    let alpha := if p.transparentColour = some [raw 0, raw 1, raw 2] then 0 else 255
    ⟨level 0, level 1, level 2, alpha⟩
  | .indexed => (entries[raw 0]?).getD ⟨0, 0, 0, 255⟩
  | .greyAlpha => ⟨level 0, level 0, level 0, level 1⟩
  | .rgba => ⟨level 0, level 1, level 2, level 3⟩

/-- The pixel at a position. -/
def Prelude.pixelAt (p : Prelude) (entries : Array Pixel) (passes : List PassRows)
    (x y : Nat) : Pixel :=
  match passes.find? fun r => r.pass.meets x y with
  | none => ⟨0, 0, 0, 0⟩
  | some r =>
    let row := (r.rows[(y - r.pass.yStart) / r.pass.yStep]?).getD #[]
    p.pixel entries row ((x - r.pass.xStart) / r.pass.xStep)

/-- The image that unfiltered data stands for. -/
def Prelude.image (p : Prelude) (data : Bytes) : Except Fault Bitmap := do
  let passes ← readPasses p.header p.header.passes data
  return Bitmap.ofFn p.header.canvas (p.pixelAt p.entries passes)

/-- The rows of an image with four samples of eight bits, all unfiltered. -/
def scanlines (width : Nat) : Nat → Bytes → Bytes
  | 0, _ => []
  | rows + 1, samples =>
    0 :: samples.take (4 * width) ++ scanlines width rows (samples.drop (4 * width))

/-- The data of an image before compression. -/
def imageRows (image : Bitmap) : Bytes :=
  scanlines image.canvas.width.toNat image.canvas.height.toNat image.samples

end HueCycle.Png
