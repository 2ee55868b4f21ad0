/-
HueCycle.Png.Still — PNG files of one image.

Reading walks over the chunks up to the image data. A damaged chunk that
nobody needs is passed over, and so is one of a length that its kind does
not have; a damaged or unknown one that matters ends the reading. The run of
image data must be followed by the head of another chunk, since only that
shows where the data ends. It may hold more than the rows of the image, or
break off once they are complete. What comes later does not matter, so the
still image of an animation is read the same way.
-/
import HueCycle.Png.Control
import HueCycle.Png.Scanlines
import HueCycle.Png.Zlib

namespace HueCycle.Png

/-- The rows that compressed data in pieces stand for. -/
def Header.decompress (h : Header) (pieces : List Bytes) : Except Fault Bytes :=
  match inflatePieces? h.dataSize [] pieces with
  | none => .error .badCompression
  | some rows => .ok rows

/-- The image of a prelude and compressed data in pieces. -/
def Prelude.decompress (p : Prelude) (pieces : List Bytes) : Except Fault Bitmap := do
  p.image (← p.header.decompress pieces)

/-- The header of a file and its other chunks. -/
def splitHeader : List FoundChunk → Except Fault (Header × List FoundChunk)
  | [] => .error .noHeader
  | c :: rest =>
    if c.chunk.kind ≠ Kind.header then .error .noHeader
    else if !c.intact then .error (.badChecksum c.chunk.kind)
    else
      match Header.read? c.chunk.data with
      | none => .error .badHeader
      | some h => .ok (h, rest)

/-- A chunk that ends the reading before the image data, whether or not its
checksum holds: a palette or a frame control of a wrong length, or data of a
frame. -/
def Chunk.fault? (c : Chunk) : Option Fault :=
  if c.kind = Kind.palette ∧ !isPalette c.data then some .badPalette
  else if c.kind = Kind.frame ∧ c.data.length ≠ FrameControl.length then some .badFrame
  else if c.kind = Kind.frameData then some .badFrame
  else none

/-- What a chunk before the image data adds. `frames` counts the frame
controls so far. Code points count only before a palette and if they are the
first ones; a chunk of another length than four is none of them. -/
def Prelude.add (p : Prelude) (frames : Nat) (c : FoundChunk) : Except Fault (Prelude × Nat) :=
  let kind := c.chunk.kind
  let data := c.chunk.data
  match c.chunk.fault? with
  | some fault => .error fault
  | none =>
    if !c.intact then
      if kind.isCritical then .error (.badChecksum kind) else .ok (p, frames)
    else if kind = Kind.palette then
      if p.palette.isSome then .error (.duplicate kind)
      else .ok ({ p with palette := some data }, frames)
    else if kind = Kind.transparency then
      if p.acceptsTransparency data then .ok ({ p with transparency := some data }, frames)
      else .ok (p, frames)
    else if kind = Kind.codePoints ∧ data.length = 4 ∧ p.palette.isNone ∧ p.codePoints.isNone then
      if isRgbCodePoints data then .ok ({ p with codePoints := some data }, frames)
      else .error .badCodePoints
    else if kind = Kind.frame then
      match FrameControl.read? data with
      | none => .error .badFrame
      | some (sequence, control) =>
        if sequence ≠ frames then .error .badSequence
        else if control.covers p.header.canvas then .ok (p, frames + 1)
        else .error .badFrame
    else if kind = Kind.header then .error (.duplicate kind)
    else if kind = Kind.fileEnd then .error .noImageData
    else if kind.isCritical then .error (.unknownCritical kind)
    else .ok (p, frames)

/-- The prelude and the chunks from the image data on. -/
def readPrelude (p : Prelude) (frames : Nat) :
    List FoundChunk → Except Fault (Prelude × List FoundChunk)
  | [] => .error .truncated
  | c :: rest =>
    if c.chunk.kind = Kind.imageData then .ok (p, c :: rest)
    else
      match p.add frames c with
      | .error fault => .error fault
      | .ok (p, frames) => readPrelude p frames rest

/-- Whether another chunk than image data begins: at least its length and its
kind must be there. -/
def beginsOther (left : Bytes) : Bool :=
  match readHead? left with
  | none => false
  | some (_, kind, _) => kind != Kind.imageData

/-- The image of a PNG file. -/
def decodeStill (file : Bytes) : Except Fault Bitmap := do
  match chunksOf? file with
  | none => throw .noSignature
  | some (chunks, left) =>
    let (header, rest) ← splitHeader chunks
    let (prelude, rest) ← readPrelude (Prelude.ofHeader header) 0 rest
    let isData (c : FoundChunk) : Bool := c.chunk.kind = Kind.imageData
    let run := rest.takeWhile isData
    if !run.all FoundChunk.intact then throw (.badChecksum Kind.imageData)
    if (rest.dropWhile isData).isEmpty && !beginsOther left then throw .truncated
    if header.colour = .indexed && prelude.palette.isNone then throw .noPalette
    prelude.decompress (run.map fun c => c.chunk.data)

/-- The most octets of data that one chunk can hold. -/
def chunkMax : Nat := 0x7FFFFFFF

/-- Data in `full` pieces of `size` octets and a last one with the rest. -/
def pieces (size : Nat) : Nat → Bytes → List Bytes
  | 0, data => [data]
  | full + 1, data => data.take size :: pieces size full (data.drop size)

/-- The compressed rows of an image. -/
def compress (image : Bitmap) : Bytes := store (imageRows image)

/-- Data in pieces of at most `size` octets. -/
def split (size : Nat) (data : Bytes) : List Bytes := pieces size (data.length / size) data

/-- The chunks of a PNG of one image, with at most `limit` octets of image data
in each. -/
def stillChunks (limit : Nat) (image : Bitmap) : List Chunk :=
  ⟨Kind.header, (Header.plain image.canvas).write⟩ ::
    (split limit (compress image)).map (⟨Kind.imageData, ·⟩) ++ [⟨Kind.fileEnd, []⟩]

/-- The PNG file of one image. -/
def encodeStill (image : Bitmap) : Bytes := fileOf (stillChunks chunkMax image)

end HueCycle.Png
