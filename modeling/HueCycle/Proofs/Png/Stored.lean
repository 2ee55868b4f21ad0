/-
HueCycle.Proofs.Png.Stored — stored blocks are read back, whole or cut off.

A reader of compressed data may be handed the data piece by piece, so it
meets beginnings of it before it meets all of it. A beginning must not be
taken for a fault, and what it gives must be a beginning of the octets: then
reading on with the next piece ends with exactly the octets.
-/
import Mathlib
import HueCycle.Png.Zlib

namespace HueCycle.Png

/-! ## §1 The head of a block -/

/-- Two octets are enough to read the kind of a block from the first one. -/
theorem atLeast_ofOctets (a b : UInt8) (rest : Bytes) :
    (Bits.ofOctets (a :: b :: rest)).atLeast blockBitsMin = .ok () := rfl

/-- The first octet of a stored block as its final bit alone. -/
def finalOctet (final : Bool) : UInt8 := if final then 1 else 0

theorem storedBlock_eq (final : Bool) (octets : Bytes) :
    storedBlock final octets = finalOctet final :: UInt8.ofNat (octets.length % 256) ::
      UInt8.ofNat (octets.length / 256) :: UInt8.ofNat ((65535 - octets.length) % 256) ::
        UInt8.ofNat ((65535 - octets.length) / 256) :: octets := rfl

@[simp] theorem length_storedBlock (final : Bool) (octets : Bytes) :
    (storedBlock final octets).length = octets.length + 5 := rfl

/-- The three bits that tell the kind are those of a stored block. -/
theorem take_finalOctet (final : Bool) (rest : Bytes) :
    (Bits.ofOctets (finalOctet final :: rest)).take 3 =
      .ok (final.toNat, ⟨0, 5, rest⟩) := by
  cases final <;>
    simp [Bits.take, Bits.bit, Bits.ofOctets, finalOctet, bind, Except.bind, pure, Except.pure]

/-- A block whose first octet is a final bit alone is a stored one, and what
follows it is read unless it is the final one. -/
theorem inflateBlocks_finalOctet (size steps : Nat) (final : Bool) (b : UInt8) (rest : Bytes)
    (out : Array UInt8) :
    inflateBlocks size (steps + 1) (Bits.ofOctets (finalOctet final :: b :: rest)) out =
      let block := inflateStored size ⟨0, 5, b :: rest⟩ out
      match block.rest with
      | .error _ => block
      | .ok s => if final then block else inflateBlocks size steps s block.octets := by
  rw [inflateBlocks, atLeast_ofOctets, take_finalOctet]
  cases final with
  | false => rfl
  | true => rfl

/-! ## §2 One block -/

/-- The two octets of a length state it. -/
theorem length_of_octets {n : Nat} (h : n ≤ storedMax) :
    (UInt8.ofNat (n % 256)).toNat + 256 * (UInt8.ofNat (n / 256)).toNat = n := by
  have hmax : n ≤ 65535 := h
  rw [UInt8.toNat_ofNat', UInt8.toNat_ofNat']
  omega

/-- The body of a stored block, as far as it is there: all that is left of
`octets` goes to the output. -/
theorem inflateStored_body {size : Nat} {octets : Bytes} {out : Array UInt8}
    (h : octets.length ≤ storedMax) (hroom : out.size + octets.length ≤ size) (held count : Nat)
    (body : Bytes) :
    inflateStored size
        ⟨held, count, UInt8.ofNat (octets.length % 256) :: UInt8.ofNat (octets.length / 256) ::
          UInt8.ofNat ((65535 - octets.length) % 256) ::
            UInt8.ofNat ((65535 - octets.length) / 256) :: body⟩ out =
      let out' := out ++ (body.take octets.length).toArray
      if (body.take octets.length).length = octets.length then
        ⟨out', .ok (Bits.ofOctets (body.drop octets.length))⟩
      else ⟨out', .error (if size ≤ out'.size then .full else .short)⟩ := by
  have hn := length_of_octets h
  have hc : (UInt8.ofNat ((65535 - octets.length) % 256)).toNat +
      256 * (UInt8.ofNat ((65535 - octets.length) / 256)).toNat = 65535 - octets.length :=
    length_of_octets (Nat.sub_le _ _)
  have hsum : octets.length + (65535 - octets.length) = 65535 := by
    have hmax : octets.length ≤ 65535 := h
    omega
  have hmin : min octets.length (size - out.size) = octets.length := by omega
  simp only [inflateStored, hn, hc, hsum, if_true, hmin, List.splitAt_eq]

/-- A whole stored block gives its octets. -/
theorem inflateBlocks_storedBlock_append {size : Nat} {octets : Bytes} {out : Array UInt8}
    (h : octets.length ≤ storedMax) (hroom : out.size + octets.length ≤ size) (steps : Nat)
    (final : Bool) (rest : Bytes) :
    inflateBlocks size (steps + 1) (Bits.ofOctets (storedBlock final octets ++ rest)) out =
      if final then ⟨out ++ octets.toArray, .ok (Bits.ofOctets rest)⟩
      else inflateBlocks size steps (Bits.ofOctets rest) (out ++ octets.toArray) := by
  rw [storedBlock_eq]
  simp only [List.cons_append]
  rw [inflateBlocks_finalOctet, inflateStored_body h hroom]
  simp only [List.take_left', List.drop_left', if_true]

/-- What reading the beginning of compressed data comes to: no fault, and a
beginning of the octets. -/
def Inflated.Begins (read : Inflated) (octets : Bytes) : Prop :=
  read.rest ≠ .error .faulty ∧ read.octets.toList <+: octets

/-- A stored block that breaks off gives the octets that are there. -/
theorem inflateBlocks_begins_of_cut {size : Nat} {octets : Bytes} {out : Array UInt8}
    (h : octets.length ≤ storedMax) (hroom : out.size + octets.length ≤ size) (steps : Nat)
    {final : Bool} {data : Bytes} (hdata : data <+: storedBlock final octets)
    (hcut : data.length < octets.length + 5) :
    (inflateBlocks size (steps + 1) (Bits.ofOctets data) out).Begins (out.toList ++ octets) := by
  have hshort : Inflated.Begins ⟨out, .error .short⟩ (out.toList ++ octets) :=
    ⟨by simp, List.prefix_append _ _⟩
  rw [storedBlock_eq] at hdata
  match data, hdata, hcut with
  | [], _, _ => exact hshort
  | [_], _, _ => exact hshort
  | [a, b], hdata, _ | [a, b, c], hdata, _ | [a, b, c, d], hdata, _ =>
    obtain ⟨rfl, -⟩ := List.cons_prefix_cons.mp hdata
    rw [inflateBlocks_finalOctet]
    exact hshort
  | a :: b :: c :: d :: e :: body, hdata, hcut =>
    simp only [List.cons_prefix_cons] at hdata
    obtain ⟨rfl, rfl, rfl, rfl, rfl, hbody⟩ := hdata
    have hlt : body.length < octets.length := by
      simp only [List.length_cons] at hcut
      omega
    rw [inflateBlocks_finalOctet, inflateStored_body h hroom, List.take_of_length_le hlt.le]
    simp only [if_neg hlt.ne]
    refine ⟨?_, ?_⟩
    · split <;> simp
    · simpa using hbody

/-! ## §3 All blocks -/

/-- A beginning of two parts is cut off in the first one or goes on to the
second. -/
theorem prefix_append_cases {α : Type} {l a b : List α} (h : l <+: a ++ b) :
    (l <+: a ∧ l.length < a.length) ∨ ∃ t, l = a ++ t ∧ t <+: b := by
  rcases Nat.lt_or_ge l.length a.length with hlt | hge
  · exact .inl ⟨List.prefix_of_prefix_length_le h (List.prefix_append a b) hlt.le, hlt⟩
  · obtain ⟨t, rfl⟩ := List.prefix_of_prefix_length_le (List.prefix_append a b) h hge
    exact .inr ⟨t, rfl, (List.prefix_append_right_inj a).mp h⟩

/-- Octets that `full` blocks and a last one can hold. -/
def Holds (full : Nat) (octets : Bytes) : Prop := octets.length ≤ full * storedMax + storedMax

theorem Holds.drop {full : Nat} {octets : Bytes} (h : Holds (full + 1) octets) :
    Holds full (octets.drop storedMax) := by
  unfold Holds at *
  rw [List.length_drop]
  rw [Nat.add_mul] at h
  omega

/-- The number of full blocks that is written is enough. -/
theorem holds_div (octets : Bytes) : Holds (octets.length / storedMax) octets := by
  have := Nat.div_add_mod octets.length storedMax
  have := Nat.mod_lt octets.length (show 0 < storedMax by decide)
  rw [Nat.mul_comm] at *
  unfold Holds
  omega

/-- A beginning of stored blocks gives a beginning of their octets. -/
theorem inflateBlocks_begins {size full : Nat} {octets : Bytes} {out : Array UInt8}
    (h : Holds full octets) (hroom : out.size + octets.length ≤ size) (steps : Nat)
    {tail data : Bytes} (hdata : data <+: storedBlocks full octets ++ tail) :
    (inflateBlocks size steps (Bits.ofOctets data) out).Begins (out.toList ++ octets) := by
  induction full generalizing octets out steps data with
  | zero =>
    have hmax : octets.length ≤ storedMax := by simpa [Holds] using h
    cases steps with
    | zero => exact ⟨by simp [inflateBlocks], List.prefix_append _ _⟩
    | succ steps =>
      rcases prefix_append_cases hdata with ⟨hcut, hlt⟩ | ⟨rest, rfl, -⟩
      · exact inflateBlocks_begins_of_cut hmax hroom steps hcut hlt
      · rw [storedBlocks, inflateBlocks_storedBlock_append hmax hroom, if_pos rfl]
        exact ⟨by simp, by simp⟩
  | succ full ih =>
    have hmax : (octets.take storedMax).length ≤ storedMax := List.length_take_le _ _
    have hsplit : out.toList ++ octets =
        (out ++ (octets.take storedMax).toArray).toList ++ octets.drop storedMax := by simp
    have hlen := congrArg List.length (List.take_append_drop storedMax octets)
    rw [List.length_append] at hlen
    cases steps with
    | zero => exact ⟨by simp [inflateBlocks], List.prefix_append _ _⟩
    | succ steps =>
      rw [storedBlocks, List.append_assoc] at hdata
      rcases prefix_append_cases hdata with ⟨hcut, hlt⟩ | ⟨rest, rfl, hrest⟩
      · have hroom' : out.size + (octets.take storedMax).length ≤ size := by omega
        obtain ⟨hok, hpre⟩ := inflateBlocks_begins_of_cut hmax hroom' steps hcut hlt
        exact ⟨hok, hpre.trans ((List.prefix_append_right_inj _).mpr (List.take_prefix _ _))⟩
      · rw [inflateBlocks_storedBlock_append hmax (by omega), if_neg (by simp), hsplit]
        exact ih h.drop (by simp only [Array.size_append, List.size_toArray]; omega) steps hrest

/-- All of the stored blocks give all of their octets. -/
theorem inflateBlocks_storedBlocks {size full : Nat} {octets : Bytes} {out : Array UInt8}
    (h : Holds full octets) (hroom : out.size + octets.length ≤ size) {steps : Nat}
    (hsteps : full < steps) (tail : Bytes) :
    inflateBlocks size steps (Bits.ofOctets (storedBlocks full octets ++ tail)) out =
      ⟨out ++ octets.toArray, .ok (Bits.ofOctets tail)⟩ := by
  induction full generalizing octets out steps with
  | zero =>
    obtain ⟨steps, rfl⟩ : ∃ k, steps = k + 1 := ⟨steps - 1, by omega⟩
    have hmax : octets.length ≤ storedMax := by simpa [Holds] using h
    rw [storedBlocks, inflateBlocks_storedBlock_append hmax hroom, if_pos rfl]
  | succ full ih =>
    obtain ⟨steps, rfl⟩ : ∃ k, steps = k + 1 := ⟨steps - 1, by omega⟩
    have hlen := congrArg List.length (List.take_append_drop storedMax octets)
    rw [List.length_append] at hlen
    rw [storedBlocks, List.append_assoc,
      inflateBlocks_storedBlock_append (List.length_take_le _ _) (by omega), if_neg (by simp),
      ih h.drop (by simp only [Array.size_append, List.size_toArray]; omega) (by omega)]
    simp

/-! ## §4 Compressed data in pieces -/

/-- Every block has an octet at least, so the octets bound the number of blocks. -/
theorem full_lt_length_storedBlocks (full : Nat) (octets : Bytes) :
    full < (storedBlocks full octets).length := by
  induction full generalizing octets with
  | zero => simp [storedBlocks]
  | succ full ih =>
    have := ih (octets.drop storedMax)
    rw [storedBlocks, List.length_append, length_storedBlock]
    omega

/-- Behind the two octets of the framing come the blocks. -/
theorem inflate_framing (size : Nat) (rest : Bytes) :
    inflate size (0x78 :: 0x01 :: rest) =
      inflateBlocks size (8 * rest.length + 1) (Bits.ofOctets rest) #[] := by
  rw [inflate]
  exact if_pos (by decide)

/-- Stored octets are read back. -/
theorem inflate_store (octets : Bytes) :
    (inflate octets.length (store octets)).octets.toList = octets := by
  have hsteps := full_lt_length_storedBlocks (octets.length / storedMax) octets
  rw [store, inflate_framing, inflateBlocks_storedBlocks (holds_div octets) (by simp)]
  · simp
  · rw [List.length_append]
    omega

/-- A beginning of stored octets is never taken for a fault and gives a
beginning of the octets. -/
theorem inflate_begins {octets data : Bytes} (h : data <+: store octets) :
    (inflate octets.length data).Begins octets := by
  have hnone : Inflated.Begins ⟨#[], .error .short⟩ octets := ⟨by simp, List.nil_prefix⟩
  rw [store] at h
  match data, h with
  | [], _ => exact hnone
  | [_], _ => exact hnone
  | a :: b :: rest, h =>
    simp only [List.cons_prefix_cons] at h
    obtain ⟨rfl, rfl, hrest⟩ := h
    rw [inflate_framing]
    have hroom : (#[] : Array UInt8).size + octets.length ≤ octets.length := by simp
    simpa using inflateBlocks_begins (holds_div octets) hroom (8 * rest.length + 1) hrest

/-- One piece of data: a fault ends the reading, enough octets do, and else the
next piece is taken. -/
theorem inflatePieces?_cons {size : Nat} {before piece : Bytes} {octets : Bytes}
    (h : (inflate size (before ++ piece)).Begins octets) (pieces : List Bytes) :
    inflatePieces? size before (piece :: pieces) =
      if size ≤ (inflate size (before ++ piece)).octets.size then
        some (inflate size (before ++ piece)).octets.toList
      else inflatePieces? size (before ++ piece) pieces := by
  have hok := h.1
  rw [inflatePieces?]
  split
  · rename_i hfault
    exact absurd hfault hok
  · rfl

/-- **However stored octets are cut into pieces, reading gives them back.** -/
theorem inflatePieces?_store {octets before : Bytes} {pieces : List Bytes} (hne : pieces ≠ [])
    (h : before ++ pieces.flatten = store octets) :
    inflatePieces? octets.length before pieces = some octets := by
  induction pieces generalizing before with
  | nil => exact absurd rfl hne
  | cons piece rest ih =>
    rw [List.flatten_cons, ← List.append_assoc] at h
    have hpre : before ++ piece <+: store octets := ⟨rest.flatten, h⟩
    have hbegins := inflate_begins hpre
    rw [inflatePieces?_cons hbegins]
    split
    · rename_i hsize
      rw [hbegins.2.eq_of_length_le (by simpa using hsize)]
    · rename_i hsize
      refine ih ?_ h
      rintro rfl
      -- with no piece left the data is whole, and whole data gives every octet
      rw [List.flatten_nil, List.append_nil] at h
      have hall := congrArg List.length (inflate_store octets)
      rw [← h, Array.length_toList] at hall
      omega

end HueCycle.Png
