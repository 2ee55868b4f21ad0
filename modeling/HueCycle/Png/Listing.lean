/-
HueCycle.Png.Listing — an account of what a PNG file holds, chunk by chunk,
with the samples of every frame as they are stored.
-/
import HueCycle.Png.Movie

namespace HueCycle.Png

/-- What a file holds. -/
structure Listing where
  /-- The kinds of the chunks in file order; a run of data chunks of one kind
  counts once. -/
  kinds : List Kind
  header : Option Header
  control : Option AnimationControl
  /-- The frame controls with their sequence numbers. -/
  frames : List (Nat × FrameControl)
  /-- The sequence numbers of the numbered data chunks. -/
  numbers : List Nat
  /-- The samples of each frame, if all can be decoded. -/
  samples : Option (List Bytes)

/-- Count a run of data chunks of one kind once. -/
def collapse : List Kind → List Kind
  | a :: b :: rest =>
    if a = b ∧ (a = Kind.imageData ∨ a = Kind.frameData) then collapse (b :: rest)
    else a :: collapse (b :: rest)
  | kinds => kinds

/-- Samples of one row packed into octets, the first one in the highest bits. -/
def packSamples (depth : Nat) (samples : List Nat) : Bytes :=
  if depth = 8 then samples.map UInt8.ofNat
  else if depth = 16 then samples.flatMap (bigEndian 2)
  else
    let bits := samples.flatMap fun v =>
      (List.range depth).map fun i => v / Nat.pow 2 (depth - 1 - i) % 2
    let count := (bits.length + 7) / 8
    let bit (i : Nat) : Nat := (bits[i]?).getD 0
    (List.range count).map fun j =>
      UInt8.ofNat ((List.range 8).foldl (fun n i => n * 2 + bit (8 * j + i)) 0)

/-- The samples of an image as stored, row after row of the whole image. -/
def storedSamples (h : Header) (passes : List PassRows) : Bytes :=
  let channels := h.colour.channels
  let pixel (y x : Nat) : List Nat :=
    match passes.find? fun r => r.pass.meets x y with
    | none => []
    | some r =>
      let row := (r.rows[(y - r.pass.yStart) / r.pass.yStep]?).getD #[]
      let column := (x - r.pass.xStart) / r.pass.xStep
      (List.range channels).map fun c => sampleAt h.depth row (column * channels + c)
  (List.range h.canvas.height.toNat).flatMap fun y =>
    packSamples h.depth ((List.range h.canvas.width.toNat).flatMap (pixel y))

/-- The samples that compressed data in pieces stand for. -/
def decompressSamples (h : Header) (pieces : List Bytes) : Except Fault Bytes := do
  return storedSamples h (← readPasses h h.passes (← h.decompress pieces))

/-- The samples of the frames of an animation, or of the still image of a file
without animation. -/
def samplesOf (h : Header) (chunks : List FoundChunk) : Except Fault (List Bytes) := do
  let g ← Gathered.addAll h Gathered.nothing chunks
  if !g.ended then throw .truncated
  match g.control with
  | none =>
    let found := chunks.filter fun c => c.chunk.kind = Kind.imageData
    return [← decompressSamples h (found.map fun c => c.chunk.data)]
  | some control =>
    if control.frames.toNat ≠ g.frames.length then throw .wrongFrameCount
    g.frames.reverse.mapM fun f => decompressSamples { h with canvas := f.1.region } f.2

/-- The account of a file; none without the signature of a PNG. -/
def listing? (file : Bytes) : Option Listing :=
  match chunksOf? file with
  | none => none
  | some (found, _) =>
    let chunks := found.map FoundChunk.chunk
    let ofKind (k : Kind) : List Bytes := (chunks.filter fun c => c.kind = k).map Chunk.data
    let header := (ofKind Kind.header).head?.bind Header.read?
    some {
      kinds := collapse (chunks.map Chunk.kind)
      header
      control := (ofKind Kind.animation).head?.bind AnimationControl.read?
      frames := (ofKind Kind.frame).filterMap FrameControl.read?
      numbers := (ofKind Kind.frameData).map fun data => ofBigEndian (data.take 4)
      samples := header.bind fun h => (samplesOf h (found.drop 1)).toOption }

end HueCycle.Png
