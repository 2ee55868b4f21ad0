/-
HueCycle.Png.Movie — animated PNG files.

The first frame is the still image and stands where a still image stands;
every later frame has its own control chunk and its data in chunks that are
numbered. Control chunks and numbered data share one sequence that counts
from zero without gaps, modulo `2^32`. Reading checks the sequence and the
number of frames, and gives every frame with its control.
-/
import HueCycle.Png.Still

namespace HueCycle.Png

/-- A frame as stored. -/
structure MovieFrame where
  control : FrameControl
  image : Bitmap
deriving Repr, DecidableEq

/-- An animated PNG. -/
structure Movie where
  canvas : Canvas
  /-- How often it plays, zero for without end. -/
  plays : UInt32
  frames : List MovieFrame
deriving Repr, DecidableEq

/-! ## Writing -/

/-- Data chunks with sequence numbers from `sequence` on. -/
def numberedData (sequence : Nat) : List Bytes → List Chunk
  | [] => []
  | data :: rest =>
    ⟨Kind.frameData, bigEndian 4 sequence ++ data⟩ :: numberedData (sequence + 1) rest

/-- The chunks of the frames after the first one, from a sequence number on. -/
def laterChunks (limit : Nat) (sequence : Nat) : List MovieFrame → List Chunk
  | [] => []
  | f :: rest =>
    let data := split limit (compress f.image)
    ⟨Kind.frame, f.control.write sequence⟩ :: numberedData (sequence + 1) data ++
      laterChunks limit (sequence + 1 + data.length) rest

/-- The chunks of all frames. The data of the first one carries no number. -/
def frameChunks (limit : Nat) : List MovieFrame → List Chunk
  | [] => []
  | f :: rest =>
    ⟨Kind.frame, f.control.write 0⟩ ::
      (split limit (compress f.image)).map (⟨Kind.imageData, ·⟩) ++ laterChunks limit 1 rest

/-- The chunks of an animated PNG, with at most `limit` octets of compressed
data in each. -/
def Movie.chunks (limit : Nat) (m : Movie) : List Chunk :=
  ⟨Kind.header, (Header.plain m.canvas).write⟩ ::
    ⟨Kind.animation, AnimationControl.write ⟨UInt32.ofNat m.frames.length, m.plays⟩⟩ ::
      frameChunks limit m.frames ++ [⟨Kind.fileEnd, []⟩]

/-- The file of an animated PNG. Numbered data is four octets longer than its
content. -/
def Movie.encode (m : Movie) : Bytes := fileOf (m.chunks (chunkMax - 4))

/-! ## Reading -/

/-- What has been read of an animated PNG. -/
structure Gathered where
  control : Option AnimationControl
  /-- The frames so far, the last one first, with the pieces of their compressed
  data. -/
  frames : List (FrameControl × List Bytes)
  /-- The next sequence number. -/
  sequence : Nat
  ended : Bool

namespace Gathered

def nothing : Gathered := ⟨none, [], 0, false⟩

/-- Whether a number is the next one of the sequence. -/
def expects (g : Gathered) (n : Nat) : Bool := n == g.sequence % 0x100000000

/-- Add a piece of data to the last frame. -/
def append (g : Gathered) (data : Bytes) : Gathered :=
  match g.frames with
  | [] => g
  | (control, sofar) :: rest => { g with frames := (control, sofar ++ [data]) :: rest }

/-- Take one chunk in. Image data before the first frame control is a still
image that is no part of the animation. -/
def add (header : Header) (g : Gathered) (c : FoundChunk) : Except Fault Gathered :=
  let kind := c.chunk.kind
  let data := c.chunk.data
  if !c.intact then .error (.badChecksum kind)
  else if g.ended then .ok g
  else if kind = Kind.fileEnd then .ok { g with ended := true }
  else if kind = Kind.animation then .ok { g with control := AnimationControl.read? data }
  else if kind = Kind.frame then
    match FrameControl.read? data with
    | none => .error .badFrame
    | some (n, control) =>
      if !g.expects n then .error .badSequence
      else if !control.fits header.canvas then .error .badFrame
      else .ok { g with frames := (control, []) :: g.frames, sequence := g.sequence + 1 }
  else if kind = Kind.imageData then .ok (g.append data)
  else if kind = Kind.frameData then
    if g.frames.isEmpty then .error .badFrame
    else if !g.expects (ofBigEndian (data.take 4)) then .error .badSequence
    else .ok { g.append (data.drop 4) with sequence := g.sequence + 1 }
  else if kind.isCritical && kind != Kind.palette then .error (.unknownCritical kind)
  else .ok g

/-- Take chunks in. -/
def addAll (header : Header) : Gathered → List FoundChunk → Except Fault Gathered
  | g, [] => .ok g
  | g, c :: rest =>
    match g.add header c with
    | .error fault => .error fault
    | .ok g => addAll header g rest

end Gathered

/-- The prelude of a frame: that of the file, with the frame's own size. -/
def Prelude.forRegion (p : Prelude) (region : Canvas) : Prelude :=
  { p with header := { p.header with canvas := region } }

/-- Decompress frames. -/
def decodeFrames (p : Prelude) : List (FrameControl × List Bytes) → Except Fault (List MovieFrame)
  | [] => .ok []
  | (control, pieces) :: rest => do
    let image ← (p.forRegion control.region).decompress pieces
    return ⟨control, image⟩ :: (← decodeFrames p rest)

/-- The frames of an animated PNG file. -/
def Movie.decode (file : Bytes) : Except Fault Movie := do
  match chunksOf? file with
  | none => throw .noSignature
  | some (chunks, _) =>
    let (header, rest) ← splitHeader chunks
    let (prelude, _) ← readPrelude (Prelude.ofHeader header) 0 rest
    let g ← Gathered.addAll header Gathered.nothing rest
    if !g.ended then throw .truncated
    match g.control with
    | none => throw .notAnimated
    | some control =>
      if control.frames.toNat ≠ g.frames.length then throw .wrongFrameCount
      let frames ← decodeFrames prelude g.frames.reverse
      return ⟨header.canvas, control.plays, frames⟩

end HueCycle.Png
