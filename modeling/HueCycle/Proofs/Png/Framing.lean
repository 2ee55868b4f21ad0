/-
HueCycle.Proofs.Png.Framing — a file of chunks is read back chunk by chunk.

A chunk says how long its data is, so a reader that follows these lengths
from the signature on meets the same cuts as the writer. The length has four
octets: that is the only condition on a chunk, and `Chunk.Fits` names it.
-/
import Mathlib
import HueCycle.Png.Chunk

namespace HueCycle.Png

/-! ## §1 Numbers, the most significant octet first -/

@[simp] theorem length_bigEndian (width n : Nat) : (bigEndian width n).length = width := by
  induction width generalizing n with
  | zero => rfl
  | succ width ih => rw [bigEndian, List.length_append, ih, List.length_singleton]

theorem ofBigEndian_concat (octets : Bytes) (b : UInt8) :
    ofBigEndian (octets ++ [b]) = ofBigEndian octets * 256 + b.toNat := by
  simp only [ofBigEndian, List.foldl_append, List.foldl_cons, List.foldl_nil]

/-- A number that is cut to `width` octets is known modulo `256 ^ width`. -/
@[simp] theorem ofBigEndian_bigEndian (width n : Nat) :
    ofBigEndian (bigEndian width n) = n % 256 ^ width := by
  induction width generalizing n with
  | zero => rw [pow_zero, Nat.mod_one]; rfl
  | succ width ih =>
    have hb : (UInt8.ofNat (n % 256)).toNat = n % 256 := by
      rw [UInt8.toNat_ofNat']
      omega
    rw [bigEndian, ofBigEndian_concat, ih, hb, pow_succ']
    rw [Nat.mod_mul]
    omega

theorem ofBigEndian_bigEndian_of_lt {width n : Nat} (h : n < 256 ^ width) :
    ofBigEndian (bigEndian width n) = n := by
  rw [ofBigEndian_bigEndian, Nat.mod_eq_of_lt h]

/-- A word of 32 bits survives. -/
@[simp] theorem ofNat_ofBigEndian_word (n : UInt32) :
    UInt32.ofNat (ofBigEndian (bigEndian 4 n.toNat)) = n := by
  rw [ofBigEndian_bigEndian_of_lt (by have := n.toNat_lt; omega), UInt32.ofNat_toNat]

/-- A word of 16 bits survives. -/
@[simp] theorem ofNat_ofBigEndian_short (n : UInt16) :
    UInt16.ofNat (ofBigEndian (bigEndian 2 n.toNat)) = n := by
  rw [ofBigEndian_bigEndian_of_lt (by have := n.toNat_lt; omega), UInt16.ofNat_toNat]

/-! ## §2 One chunk -/

/-- The length of the data fits into four octets. -/
def Chunk.Fits (c : Chunk) : Prop := c.data.length < 0x100000000

theorem Chunk.length_write (c : Chunk) : c.write.length = c.data.length + 12 := by
  simp only [Chunk.write, Kind.octets, List.length_append, length_bigEndian, List.length_cons,
    List.length_nil]
  omega

/-- Four octets and a kind are a head, whatever follows. -/
theorem readHead?_append {octets : Bytes} (h : octets.length = 4) (kind : Kind) (rest : Bytes) :
    readHead? (octets ++ (kind.octets ++ rest)) = some (ofBigEndian octets, kind, rest) := by
  obtain ⟨a, b, c, d, rfl⟩ := List.length_eq_four.mp h
  rfl

/-- A chunk is read back as it was written, its checksum holds, and what
follows is left. -/
theorem FoundChunk.read?_write {c : Chunk} (h : c.Fits) (rest : Bytes) :
    FoundChunk.read? (c.write ++ rest) = some (⟨c, true⟩, rest) := by
  have hcrc : (crc (c.kind.octets ++ c.data)).toNat < 256 ^ 4 := by
    have := (crc (c.kind.octets ++ c.data)).toNat_lt
    omega
  have hlen : ofBigEndian (bigEndian 4 c.data.length) = c.data.length :=
    ofBigEndian_bigEndian_of_lt h
  have hwrite : c.write ++ rest = bigEndian 4 c.data.length ++ (c.kind.octets ++
      (c.data ++ (bigEndian 4 (crc (c.kind.octets ++ c.data)).toNat ++ rest))) := by
    simp only [Chunk.write, List.append_assoc]
  rw [hwrite, FoundChunk.read?, readHead?_append (length_bigEndian _ _), hlen]
  simp only [List.splitAt_eq, List.take_left', List.drop_left', length_bigEndian,
    ofBigEndian_bigEndian_of_lt hcrc, and_self, if_true, decide_true]

/-! ## §3 A file -/

/-- A chunk that was read without a fault. -/
def Chunk.found (c : Chunk) : FoundChunk := ⟨c, true⟩

/-- Chunks are read back in order, as far as the limit allows. -/
theorem readChunks_flatMap {chunks : List Chunk} (h : ∀ c ∈ chunks, c.Fits) {limit : Nat}
    (hl : chunks.length ≤ limit) :
    readChunks limit (chunks.flatMap Chunk.write) = (chunks.map Chunk.found, []) := by
  induction chunks generalizing limit with
  | nil =>
    cases limit with
    | zero => rfl
    | succ limit => rfl
  | cons c rest ih =>
    obtain ⟨limit, rfl⟩ : ∃ k, limit = k + 1 := ⟨limit - 1, by simp at hl; omega⟩
    have hrest := ih (fun d hd => h d (List.mem_cons_of_mem _ hd)) (Nat.le_of_succ_le_succ hl)
    rw [List.flatMap_cons, readChunks, FoundChunk.read?_write (h c List.mem_cons_self)]
    simp only [hrest, List.map_cons, Chunk.found]

theorem length_le_length_flatMap_write (chunks : List Chunk) :
    chunks.length ≤ (chunks.flatMap Chunk.write).length := by
  induction chunks with
  | nil => rfl
  | cons c rest ih =>
    rw [List.flatMap_cons, List.length_append, Chunk.length_write, List.length_cons]
    omega

/-- **Reading undoes writing**: the chunks of a file are the ones it was made
of, every checksum holds, and nothing is left behind the last one. -/
theorem chunksOf?_fileOf {chunks : List Chunk} (h : ∀ c ∈ chunks, c.Fits) :
    chunksOf? (fileOf chunks) = some (chunks.map Chunk.found, []) := by
  have htake : (fileOf chunks).take 8 = signature := rfl
  have hdrop : (fileOf chunks).drop 8 = chunks.flatMap Chunk.write := rfl
  rw [chunksOf?, if_pos htake, hdrop]
  show some (readChunks _ _) = _
  rw [readChunks_flatMap h (length_le_length_flatMap_write chunks)]

end HueCycle.Png
