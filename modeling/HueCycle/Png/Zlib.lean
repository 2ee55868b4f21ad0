/-
HueCycle.Png.Zlib — compressed data. Writing uses stored blocks only, which
hold the octets as they are; reading knows all three kinds of blocks.

The reader takes single bits, least significant first. A code is kept as
the number of its words of each length together with its symbols in the
order of their words; a word is then found by walking over the lengths.
Every symbol takes at least one bit, so the bits still unread bound the
number of steps.

Reading is asked for a number of octets and writes no more than those. It
stops where the final block ends, where the data end, where all octets are
there and the next step would add one, or at a fault. So data that are cut
off or damaged only behind the wanted octets still give them.
-/
import HueCycle.Png.Chunk

namespace HueCycle.Png

/-! ## Writing -/

/-- The most octets of one stored block. -/
def storedMax : Nat := 65535

/-- A stored block; only the last one has the final bit set. -/
def storedBlock (final : Bool) (octets : Bytes) : Bytes :=
  let n := octets.length
  let complement := 65535 - n
  (if final then 1 else 0) :: UInt8.ofNat (n % 256) :: UInt8.ofNat (n / 256) ::
    UInt8.ofNat (complement % 256) :: UInt8.ofNat (complement / 256) :: octets

/-- Octets as stored blocks: `full` full ones and a last one for the rest. -/
def storedBlocks : Nat → Bytes → Bytes
  | 0, octets => storedBlock true octets
  | full + 1, octets =>
    storedBlock false (octets.take storedMax) ++ storedBlocks full (octets.drop storedMax)

/-- Octets with the framing of compressed data, but not made smaller. -/
def store (octets : Bytes) : Bytes :=
  0x78 :: 0x01 :: (storedBlocks (octets.length / storedMax) octets ++ bigEndian 4 (adler octets))

/-! ## Bits -/

/-- Why reading stops before the end of the final block. -/
inductive Halt where
  /-- The data end here. -/
  | short
  /-- All octets that are wanted are there. -/
  | full
  /-- The data break a rule of the format. -/
  | faulty
deriving Repr, DecidableEq

/-- Octets of which some bits of the first have been taken. -/
structure Bits where
  /-- The bits left of the octet begun, as a number. -/
  held : Nat
  /-- How many they are. -/
  count : Nat
  rest : Bytes

namespace Bits

def ofOctets (octets : Bytes) : Bits := ⟨0, 0, octets⟩

/-- The number of bits left. -/
def size (s : Bits) : Nat := s.count + 8 * s.rest.length

/-- The next bit. -/
def bit (s : Bits) : Except Halt (Nat × Bits) :=
  match s.count, s.rest with
  | 0, [] => .error .short
  | 0, b :: rest => .ok (b.toNat % 2, ⟨b.toNat / 2, 7, rest⟩)
  | k + 1, rest => .ok (s.held % 2, ⟨s.held / 2, k, rest⟩)

/-- The next `n` bits as a number, the first one least significant. -/
def take : Nat → Bits → Except Halt (Nat × Bits)
  | 0, s => .ok (0, s)
  | n + 1, s => do
    let (b, s) ← s.bit
    let (more, s) ← take n s
    return (b + 2 * more, s)

/-- Go on only if at least `n` bits are left. -/
def atLeast (s : Bits) (n : Nat) : Except Halt Unit := do
  let _ ← s.take n
  return ()

end Bits

/-! ## Codes -/

/-- A code: how many words there are of length 1, 2, …, and the symbols in
the order of their words. -/
structure Code where
  counts : List Nat
  symbols : Array Nat

namespace Code

/-- The longest word. -/
def maxLength : Nat := 15

/-- The code in which symbol `i` has a word of the `i`-th length; no word for
length zero. Shorter words come first, then smaller symbols. -/
def ofLengths (lengths : List Nat) : Code :=
  let numbered := lengths.zipIdx
  let ofLength (n : Nat) : List Nat := (numbered.filter fun s => s.1 == n).map Prod.snd
  let groups := (List.range' 1 maxLength).map ofLength
  ⟨groups.map List.length, groups.flatten.toArray⟩

/-- The number of words of the longest length that the words of the code stand
for. -/
def weight (c : Code) : Nat := c.counts.foldl (fun (s : Nat) n => 2 * s + n) 0

/-- Whether every sequence of bits begins with exactly one word. -/
def isComplete (c : Code) : Bool := c.weight == Nat.pow 2 maxLength

/-- Whether the code has no words, or one word of a single bit. -/
def isTrivial (c : Code) : Bool :=
  c.symbols.size == 0 || (c.symbols.size == 1 && c.counts.head? == some 1)

/-- Walk over the lengths, one bit each. `word` is the word so far, `first`
the first word of this length, `index` the number of its symbol. -/
def walk (symbols : Array Nat) :
    List Nat → Nat → Nat → Nat → Bits → Except Halt (Nat × Bits)
  | [], _, _, _, _ => .error .faulty
  | count :: longer, word, first, index, s => do
    let (b, s) ← s.bit
    let word := word + b
    if word < first + count then
      match symbols[index + (word - first)]? with
      | none => .error .faulty
      | some symbol => .ok (symbol, s)
    else walk symbols longer (2 * word) (2 * (first + count)) (index + count) s

/-- The symbol of the word at the head of the bits. -/
def next (c : Code) (s : Bits) : Except Halt (Nat × Bits) := walk c.symbols c.counts 0 0 0 s

/-- The code of literals and lengths of a block that brings no codes. -/
def fixedLiterals : Code :=
  ofLengths (List.replicate 144 8 ++ List.replicate 112 9 ++ List.replicate 24 7 ++
    List.replicate 8 8)

/-- The code of distances of a block that brings no codes. -/
def fixedDistances : Code := ofLengths (List.replicate 32 5)

end Code

/-! ## Blocks -/

/-- The least length of each length symbol and its number of extra bits. -/
def lengthTable : Array (Nat × Nat) := #[
  (3, 0), (4, 0), (5, 0), (6, 0), (7, 0), (8, 0), (9, 0), (10, 0), (11, 1), (13, 1), (15, 1),
  (17, 1), (19, 2), (23, 2), (27, 2), (31, 2), (35, 3), (43, 3), (51, 3), (59, 3), (67, 4),
  (83, 4), (99, 4), (115, 4), (131, 5), (163, 5), (195, 5), (227, 5), (258, 0)]

/-- The least distance of each distance symbol and its number of extra bits. -/
def distanceTable : Array (Nat × Nat) := #[
  (1, 0), (2, 0), (3, 0), (4, 0), (5, 1), (7, 1), (9, 2), (13, 2), (17, 3), (25, 3), (33, 4),
  (49, 4), (65, 5), (97, 5), (129, 6), (193, 6), (257, 7), (385, 7), (513, 8), (769, 8),
  (1025, 9), (1537, 9), (2049, 10), (3073, 10), (4097, 11), (6145, 11), (8193, 12), (12289, 12),
  (16385, 13), (24577, 13)]

/-- The value of a symbol of a table, with its extra bits. -/
def withExtra (table : Array (Nat × Nat)) (symbol : Nat) (s : Bits) : Except Halt (Nat × Bits) :=
  match table[symbol]? with
  | none => .error .faulty
  | some (least, bits) => do
    let (extra, s) ← s.take bits
    return (least + extra, s)

/-- What a block is made of. -/
inductive Token where
  | literal (octet : UInt8)
  | blockEnd
  /-- So many octets again that lie so far back. -/
  | copy (length distance : Nat)
deriving Repr, DecidableEq

/-- The token at the head of the bits. -/
def Token.read (literals distances : Code) (s : Bits) : Except Halt (Token × Bits) := do
  let (symbol, s) ← literals.next s
  if symbol < 256 then return (.literal (UInt8.ofNat symbol), s)
  if symbol = 256 then return (.blockEnd, s)
  let (length, s) ← withExtra lengthTable (symbol - 257) s
  let (symbol, s) ← distances.next s
  let (distance, s) ← withExtra distanceTable symbol s
  return (.copy length distance, s)

/-- What reading came to: the octets, and the bits that follow or the reason to
stop. -/
structure Inflated where
  octets : Array UInt8
  rest : Except Halt Bits

/-- Repeat `length` octets that lie `distance` back. -/
def copyBack (distance : Nat) : Nat → Array UInt8 → Array UInt8
  | 0, out => out
  | length + 1, out => copyBack distance length (out.push (out[out.size - distance]?.getD 0))

/-- Whether a literal waits for bits that are not there. Two literals whose
words have at most twelve bits together, the second one at least two, are read
at once; as long as the data end in the second word, missing bits count as
zeros. `before` and `after` are the bits from the first literal on and behind
it. -/
def waitsForNext (literals : Code) (before after : Bits) : Bool :=
  match after.atLeast 12 with
  | .ok () => false
  | .error _ =>
    let padded : Bits := { after with rest := after.rest ++ [0, 0] }
    match literals.next padded with
    | .error _ => false
    | .ok (second, rest) =>
      let firstLength := before.size - after.size
      let secondLength := padded.size - rest.size
      decide (second < 256 ∧ 2 ≤ secondLength ∧ firstLength + secondLength ≤ 12 ∧
        after.size < secondLength)

/-- A block's end that follows when all octets are there. It is passed if the
bits of the longest word are left. -/
def passEnd (literals : Code) (s : Bits) : Except Halt Bits :=
  match s.atLeast Code.maxLength, literals.next s with
  | .ok (), .ok (256, s) => .ok s
  | _, _ => .error .full

/-- The tokens of a block up to its end, at most `steps` of them. -/
def inflateTokens (size : Nat) (literals distances : Code) :
    Nat → Bits → Array UInt8 → Inflated
  | 0, _, out => ⟨out, .error .short⟩
  | steps + 1, s, out =>
    if size ≤ out.size then ⟨out, passEnd literals s⟩
    else
      match Token.read literals distances s with
      | .error halt => ⟨out, .error halt⟩
      | .ok (.blockEnd, s) => ⟨out, .ok s⟩
      | .ok (.literal octet, after) =>
        if waitsForNext literals s after then ⟨out, .error .short⟩
        else inflateTokens size literals distances steps after (out.push octet)
      | .ok (.copy length distance, s) =>
        let room := size - out.size
        if out.size < distance then ⟨out, .error .faulty⟩
        else if room < length then ⟨copyBack distance room out, .error .full⟩
        else inflateTokens size literals distances steps s (copyBack distance length out)

/-- A stored block, from the octet after its kind on. -/
def inflateStored (size : Nat) (s : Bits) (out : Array UInt8) : Inflated :=
  match s.rest with
  | n0 :: n1 :: c0 :: c1 :: rest =>
    let n := n0.toNat + 256 * n1.toNat
    if n + (c0.toNat + 256 * c1.toNat) = 65535 then
      let (octets, after) := rest.splitAt (min n (size - out.size))
      let out := out ++ octets.toArray
      if octets.length = n then ⟨out, .ok (Bits.ofOctets after)⟩
      else ⟨out, .error (if size ≤ out.size then .full else .short)⟩
    else ⟨out, .error .faulty⟩
  | _ => ⟨out, .error .short⟩

/-- The order in which the lengths of the code of lengths are given. -/
def lengthOrder : List Nat := [16, 17, 18, 0, 8, 7, 9, 6, 10, 5, 11, 4, 12, 3, 13, 2, 14, 1, 15]

/-- Take `n` numbers of three bits each. -/
def takeTriples : Nat → Bits → Except Halt (List Nat × Bits)
  | 0, s => .ok ([], s)
  | n + 1, s => do
    let (v, s) ← s.take 3
    let (vs, s) ← takeTriples n s
    return (v :: vs, s)

/-- Read word lengths until there are `total`, at most `steps` symbols. The
lengths so far are kept last first. A word is looked at when the seven bits of
the longest one are there. -/
def readLengths (code : Code) (total : Nat) :
    Nat → Bits → List Nat → Except Halt (List Nat × Bits)
  | 0, _, _ => .error .short
  | steps + 1, s, done =>
    if done.length = total then .ok (done.reverse, s)
    else if total < done.length then .error .faulty
    else do
      s.atLeast 7
      let (symbol, s) ← code.next s
      if symbol < 16 then readLengths code total steps s (symbol :: done)
      else
        let (bits, least) :=
          if symbol = 16 then (2, 3) else if symbol = 17 then (3, 3) else (7, 11)
        let (extra, s) ← s.take bits
        match if symbol = 16 then done.head? else some 0 with
        | none => .error .faulty
        | some v => readLengths code total steps s (List.replicate (least + extra) v ++ done)

/-- Fail unless a condition of the format holds. -/
def require (condition : Bool) : Except Halt Unit :=
  if condition then .ok () else .error .faulty

/-- The two codes that a block brings along. The counts are taken together and
then checked. -/
def readCodes (s : Bits) : Except Halt (Code × Code × Bits) := do
  let (literalCount, s) ← s.take 5
  let (distanceCount, s) ← s.take 5
  let (lengthCount, s) ← s.take 4
  let nLiterals := literalCount + 257
  let nDistances := distanceCount + 1
  require (nLiterals ≤ 286 && nDistances ≤ 30)
  let (triples, s) ← takeTriples (lengthCount + 4) s
  let given := lengthOrder.zip triples
  let lengthCode := Code.ofLengths ((List.range 19).map fun i => (given.lookup i).getD 0)
  require lengthCode.isComplete
  let (lengths, s) ← readLengths lengthCode (nLiterals + nDistances) 320 s []
  let literals := Code.ofLengths (lengths.take nLiterals)
  let distances := Code.ofLengths (lengths.drop nLiterals)
  require (lengths[256]? != some 0 && literals.isComplete &&
    (distances.isComplete || distances.isTrivial))
  return (literals, distances, s)

/-- A block without codes of its own. An empty one, whose only word is seven
zero bits, needs no room. -/
def inflateFixed (size : Nat) (s : Bits) (out : Array UInt8) : Inflated :=
  match s.take 7 with
  | .ok (0, s) => ⟨out, .ok s⟩
  | _ => inflateTokens size Code.fixedLiterals Code.fixedDistances s.size s out

/-- A block with codes of its own. -/
def inflateCoded (size : Nat) (s : Bits) (out : Array UInt8) : Inflated :=
  match readCodes s with
  | .error halt => ⟨out, .error halt⟩
  | .ok (literals, distances, s) => inflateTokens size literals distances s.size s out

/-- The fewest bits of a block: three that tell its kind and the shortest word
of the fixed code that ends it. -/
def blockBitsMin : Nat := 10

/-- The blocks up to the final one, at most `steps` of them. -/
def inflateBlocks (size : Nat) : Nat → Bits → Array UInt8 → Inflated
  | 0, _, out => ⟨out, .error .short⟩
  | steps + 1, s, out =>
    match s.atLeast blockBitsMin, s.take 3 with
    | .ok (), .ok (head, s) =>
      let block : Inflated :=
        match head / 2 with
        | 0 => inflateStored size s out
        | 1 => inflateFixed size s out
        | 2 => inflateCoded size s out
        | _ => ⟨out, .error .faulty⟩
      match block.rest with
      | .error _ => block
      | .ok s => if head % 2 = 1 then block else inflateBlocks size steps s block.octets
    | _, _ => ⟨out, .error .short⟩

/-- The octets that compressed data stand for, at most `size` of them. The sum
at the end is not compared. -/
def inflate (size : Nat) (data : Bytes) : Inflated :=
  match data with
  | method :: flags :: rest =>
    let head := method.toNat * 256 + flags.toNat
    if method.toNat % 16 = 8 ∧ method.toNat / 16 ≤ 7 ∧ head % 31 = 0 ∧ flags &&& 0x20 = 0 then
      inflateBlocks size (8 * rest.length + 1) (Bits.ofOctets rest) #[]
    else ⟨#[], .error .faulty⟩
  | _ => ⟨#[], .error .short⟩

/-- The first `size` octets that compressed data in pieces stand for. Every
piece is read as far as it goes before the next one is looked at, so a fault
counts up to the end of the piece that completes the octets. `before` is the
data of the pieces so far. -/
def inflatePieces? (size : Nat) : Bytes → List Bytes → Option Bytes
  | _, [] => none
  | before, piece :: pieces =>
    let data := before ++ piece
    let read := inflate size data
    match read.rest with
    | .error .faulty => none
    | _ =>
      if size ≤ read.octets.size then some read.octets.toList
      else inflatePieces? size data pieces

end HueCycle.Png
