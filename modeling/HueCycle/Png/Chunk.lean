/-
HueCycle.Png.Chunk — the outer layer of a PNG file: the signature, numbers
with the most significant octet first, the two checksums, and chunks.

A chunk is written as its length, its kind, its data and a checksum over
kind and data. Reading gives a chunk whenever all of its octets are there
and says separately whether the checksum holds.
-/
import HueCycle.Text.Utf8

namespace HueCycle.Png

/-- The octets of `n` modulo `256^width`, the most significant first. -/
def bigEndian : Nat → Nat → Bytes
  | 0, _ => []
  | width + 1, n => bigEndian width (n / 256) ++ [UInt8.ofNat (n % 256)]

/-- The number that octets form, the most significant first. -/
def ofBigEndian (octets : Bytes) : Nat := octets.foldl (fun n b => n * 256 + b.toNat) 0

/-- One octet of a 32-bit cyclic redundancy check, bit by bit. -/
def crcRound : Nat → UInt32 → UInt32
  | 0, c => c
  | n + 1, c => crcRound n (if c &&& 1 = 1 then (0xEDB88320 : UInt32) ^^^ (c >>> 1) else c >>> 1)

/-- The remainders of all single octets. -/
def crcTable : Array UInt32 := Array.ofFn fun i : Fin 256 => crcRound 8 (UInt32.ofNat i.val)

/-- One octet more under the check. -/
def crcStep (c : UInt32) (b : UInt8) : UInt32 :=
  (crcTable[((c ^^^ b.toUInt32) &&& 0xFF).toNat]?.getD 0) ^^^ (c >>> 8)

/-- The cyclic redundancy check of chunks. -/
def crc (octets : Bytes) : UInt32 := octets.foldl crcStep 0xFFFFFFFF ^^^ 0xFFFFFFFF

/-- The two running sums that end compressed data, modulo 65521. -/
def adler (octets : Bytes) : Nat :=
  let (a, b) := octets.foldl (fun (s : Nat × Nat) octet =>
    let a := (s.1 + octet.toNat) % 65521
    (a, (s.2 + a) % 65521)) (1, 0)
  b * 65536 + a

/-- The eight octets that every PNG file begins with. -/
def signature : Bytes := [0x89, 0x50, 0x4E, 0x47, 0x0D, 0x0A, 0x1A, 0x0A]

/-- The kind of a chunk: four letters. -/
structure Kind where
  a : UInt8
  b : UInt8
  c : UInt8
  d : UInt8
deriving Repr, DecidableEq

namespace Kind

def octets (k : Kind) : Bytes := [k.a, k.b, k.c, k.d]

def text (k : Kind) : String := Utf8.lossy k.octets

/-- Whether a reader that does not know the kind must give up: the first
letter is upper case. -/
def isCritical (k : Kind) : Bool := k.a &&& 0x20 = 0

def header : Kind := ⟨0x49, 0x48, 0x44, 0x52⟩
def palette : Kind := ⟨0x50, 0x4C, 0x54, 0x45⟩
def transparency : Kind := ⟨0x74, 0x52, 0x4E, 0x53⟩
def imageData : Kind := ⟨0x49, 0x44, 0x41, 0x54⟩
def fileEnd : Kind := ⟨0x49, 0x45, 0x4E, 0x44⟩
def animation : Kind := ⟨0x61, 0x63, 0x54, 0x4C⟩
def frame : Kind := ⟨0x66, 0x63, 0x54, 0x4C⟩
def frameData : Kind := ⟨0x66, 0x64, 0x41, 0x54⟩
def codePoints : Kind := ⟨0x63, 0x49, 0x43, 0x50⟩

end Kind

/-- A chunk. -/
structure Chunk where
  kind : Kind
  data : Bytes
deriving Repr, DecidableEq

/-- The octets of a chunk. -/
def Chunk.write (c : Chunk) : Bytes :=
  let body := c.kind.octets ++ c.data
  bigEndian 4 c.data.length ++ body ++ bigEndian 4 (crc body).toNat

/-- A chunk as found in a file. -/
structure FoundChunk where
  chunk : Chunk
  /-- Whether the checksum holds. -/
  intact : Bool
deriving Repr, DecidableEq

/-- Length and kind at the head of a file. -/
def readHead? : Bytes → Option (Nat × Kind × Bytes)
  | l0 :: l1 :: l2 :: l3 :: a :: b :: c :: d :: rest =>
    some (ofBigEndian [l0, l1, l2, l3], ⟨a, b, c, d⟩, rest)
  | _ => none

/-- The whole chunk at the head of a file. -/
def FoundChunk.read? (file : Bytes) : Option (FoundChunk × Bytes) :=
  match readHead? file with
  | none => none
  | some (length, kind, rest) =>
    let (data, rest) := rest.splitAt length
    let (sum, rest) := rest.splitAt 4
    if data.length = length ∧ sum.length = 4 then
      some (⟨⟨kind, data⟩, ofBigEndian sum = (crc (kind.octets ++ data)).toNat⟩, rest)
    else none

/-- The whole chunks at the head of a file, at most `limit` of them, and what
is left. -/
def readChunks : Nat → Bytes → List FoundChunk × Bytes
  | 0, file => ([], file)
  | limit + 1, file =>
    match FoundChunk.read? file with
    | none => ([], file)
    | some (found, rest) =>
      let (more, left) := readChunks limit rest
      (found :: more, left)

/-- All whole chunks of a file, and what is left behind the last one; none
if the signature is missing. -/
def chunksOf? (file : Bytes) : Option (List FoundChunk × Bytes) :=
  if file.take 8 = signature then
    let body := file.drop 8
    some (readChunks body.length body)
  else none

/-- A file of chunks. -/
def fileOf (chunks : List Chunk) : Bytes := signature ++ chunks.flatMap Chunk.write

end HueCycle.Png
