/-
HueCycle.Png.Header — what a PNG says about itself: size, colour type, bits
a sample and whether the rows are interlaced; further its palette and its
transparent colour. Also the reasons for which a file is refused.
-/
import HueCycle.Png.Chunk
import HueCycle.Raster.Image

namespace HueCycle.Png

/-- Reasons to refuse a PNG. -/
inductive Fault where
  | noSignature
  | noHeader
  | badHeader
  | badChecksum (kind : Kind)
  | duplicate (kind : Kind)
  | unknownCritical (kind : Kind)
  | badPalette
  | badCodePoints
  | badFrame
  | noPalette
  | noImageData
  | truncated
  | badCompression
  | shortData
  | badFilter (kind : Nat)
  | notAnimated
  | badSequence
  | wrongFrameCount
deriving Repr, DecidableEq

/-- How a pixel is made of samples. -/
inductive Colour where
  | grey
  | rgb
  | indexed
  | greyAlpha
  | rgba
deriving Repr, DecidableEq

namespace Colour

/-- The number of samples of a pixel. -/
def channels : Colour → Nat
  | .grey => 1
  | .rgb => 3
  | .indexed => 1
  | .greyAlpha => 2
  | .rgba => 4

/-- The number that stands for the colour type in a header. -/
def code : Colour → UInt8
  | .grey => 0
  | .rgb => 2
  | .indexed => 3
  | .greyAlpha => 4
  | .rgba => 6

def ofCode? (n : UInt8) : Option Colour :=
  if n = 0 then some .grey
  else if n = 2 then some .rgb
  else if n = 3 then some .indexed
  else if n = 4 then some .greyAlpha
  else if n = 6 then some .rgba
  else none

/-- The numbers of bits a sample may have. -/
def depths : Colour → List Nat
  | .grey => [1, 2, 4, 8, 16]
  | .indexed => [1, 2, 4, 8]
  | _ => [8, 16]

end Colour

/-- The header of a PNG. -/
structure Header where
  canvas : Canvas
  depth : Nat
  colour : Colour
  interlaced : Bool
deriving Repr, DecidableEq

namespace Header

/-- The header of the images this library writes: four samples of eight bits,
row after row. -/
def plain (canvas : Canvas) : Header := ⟨canvas, 8, .rgba, false⟩

/-- The data of a header chunk. -/
def write (h : Header) : Bytes :=
  bigEndian 4 h.canvas.width.toNat ++ bigEndian 4 h.canvas.height.toNat ++
    [UInt8.ofNat h.depth, h.colour.code, 0, 0, if h.interlaced then 1 else 0]

/-- The header that a chunk holds: 13 octets, at least one pixel, a depth that
the colour type allows, and the only compression and filter method there is. -/
def read? (data : Bytes) : Option Header :=
  let width := UInt32.ofNat (ofBigEndian (data.take 4))
  let height := UInt32.ofNat (ofBigEndian ((data.drop 4).take 4))
  match data.drop 8 with
  | [depth, colour, 0, 0, interlace] =>
    match Colour.ofCode? colour with
    | none => none
    | some colour =>
      let header : Header := ⟨⟨width, height⟩, depth.toNat, colour, interlace = 1⟩
      if header.canvas.hasPixels && colour.depths.contains depth.toNat && decide (interlace ≤ 1)
      then some header else none
  | _ => none

/-- The bits of a pixel. -/
def pixelBits (h : Header) : Nat := h.depth * h.colour.channels

/-- The octets of a row of so many pixels. -/
def rowBytes (h : Header) (width : Nat) : Nat := (width * h.pixelBits + 7) / 8

/-- How far back the same sample of the pixel before lies, in octets. -/
def stride (h : Header) : Nat := max 1 (h.pixelBits / 8)

end Header

/-- A header with what the chunks before the image data add to it. -/
structure Prelude where
  header : Header
  /-- The colours of a palette, three octets each. -/
  palette : Option Bytes
  /-- The data of the first chunk about transparency that can be used. -/
  transparency : Option Bytes
  /-- The code points that say in which colour space the samples are. -/
  codePoints : Option Bytes

/-- A header alone. -/
def Prelude.ofHeader (h : Header) : Prelude := ⟨h, none, none, none⟩

/-- Whether data has the length of a palette: one colour at least and 256 at
most. Octets that make no whole colour are allowed. -/
def isPalette (data : Bytes) : Bool := decide (3 ≤ data.length ∧ data.length ≤ 768)

/-- Whether code points are those of an image that is made of red, green and
blue, with a flag that is 0 or 1. -/
def isRgbCodePoints : Bytes → Bool
  | [_, _, matrix, fullRange] => matrix == 0 && decide (fullRange ≤ 1)
  | _ => false

/-- Whether a chunk about transparency is kept: the first one of at most 256
octets that holds a number for each sample of a colour, or that follows a
palette. -/
def Prelude.acceptsTransparency (p : Prelude) (data : Bytes) : Bool :=
  p.transparency.isNone && decide (data.length ≤ 256) &&
    match p.header.colour with
    | .grey => decide (2 ≤ data.length)
    | .rgb => decide (6 ≤ data.length)
    | .indexed => p.palette.isSome && decide (1 ≤ data.length)
    | _ => false

/-- The number of colours of the palette. -/
def Prelude.colours (p : Prelude) : Nat := (p.palette.getD []).length / 3

/-- The alpha of the palette's first entries. More of them than there are
colours stand for none. -/
def Prelude.alphas (p : Prelude) : Bytes :=
  let data := p.transparency.getD []
  if data.length ≤ p.colours then data else []

/-- The entries of a palette with their alpha. Entries without a colour are
black, entries without an alpha opaque. -/
def Prelude.entry (p : Prelude) (i : Nat) : Pixel :=
  let palette := p.palette.getD []
  let colour (j : Nat) : UInt8 := if i < p.colours then (palette[3 * i + j]?).getD 0 else 0
  ⟨colour 0, colour 1, colour 2, (p.alphas[i]?).getD 255⟩

/-- The sample values of the transparent colour. Below 16 bits only the low
octet of each number counts and data may follow the last number; with 16 bits
no pixel is transparent if data follows. -/
def Prelude.transparentColour (p : Prelude) : Option (List Nat) :=
  let numbers (count : Nat) (data : Bytes) : Option (List Nat) :=
    let read (j : Nat) : Nat := ofBigEndian ((data.drop (2 * j)).take 2)
    if p.header.depth ≠ 16 then some ((List.range count).map fun j => read j % 256)
    else if data.length = 2 * count then some ((List.range count).map read)
    else none
  match p.header.colour, p.transparency with
  | .grey, some data => numbers 1 data
  | .rgb, some data => numbers 3 data
  | _, _ => none

end HueCycle.Png
