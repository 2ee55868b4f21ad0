/-
HueCycle.Proofs.Timing.FrameRange — the positions of a range, as numbers, and
what its queries say of them.

Length, membership and iteration follow from the order of the two ends, also
where the end lies before the start: such a range holds no position. Whether
the ends meet is the same question only where they are in order
(`isEmpty_agrees_iff`).
-/
import Mathlib
import HueCycle.Timing.FrameRange

namespace HueCycle.FrameRange

/-! ## §1 Positions -/

/-- The positions of a range count up from its start. -/
theorem indices_eq (range : FrameRange) :
    range.indices = (List.range range.length).map
      fun k => UInt64.ofNat (range.start.toNat + k) := by
  rw [indices, first, Nat.min_self, List.range'_eq_map_range, List.map_map]
  rfl

theorem length_lt (range : FrameRange) {k : Nat} (hk : k < range.length) :
    range.start.toNat + k < range.stop.toNat := by
  rw [length] at hk
  omega

/-- Position number `k` of a range, as a number. -/
theorem toNat_index (range : FrameRange) {k : Nat} (hk : k < range.length) :
    (UInt64.ofNat (range.start.toNat + k)).toNat = range.start.toNat + k := by
  have hlt := range.length_lt hk
  have hstop : range.stop.toNat < UInt64.size := range.stop.toNat_lt
  exact UInt64.toNat_ofNat_of_lt' (by omega)

/-- What lies between the ends of a range is one of its positions. -/
theorem exists_index {range : FrameRange} {i : FrameIndex} (hstart : range.start ≤ i)
    (hstop : i < range.stop) :
    ∃ k < range.length, UInt64.ofNat (range.start.toNat + k) = i := by
  rw [UInt64.le_iff_toNat_le] at hstart
  rw [UInt64.lt_iff_toNat_lt] at hstop
  refine ⟨i.toNat - range.start.toNat, by rw [length]; omega, ?_⟩
  rw [Nat.add_sub_cancel' hstart, UInt64.ofNat_toNat]

theorem index_lt_stop (range : FrameRange) {k : Nat} (hk : k < range.length) :
    UInt64.ofNat (range.start.toNat + k) < range.stop := by
  rw [UInt64.lt_iff_toNat_lt, range.toNat_index hk]
  exact range.length_lt hk

theorem start_le_index (range : FrameRange) {k : Nat} (hk : k < range.length) :
    range.start ≤ UInt64.ofNat (range.start.toNat + k) := by
  rw [UInt64.le_iff_toNat_le, range.toNat_index hk]
  exact Nat.le_add_right _ _

/-! ## §2 Queries -/

section Queries

variable {range : FrameRange}

theorem length_indices (range : FrameRange) : range.indices.length = range.length := by
  rw [indices_eq, List.length_map, List.length_range]

/-- No position comes twice, and later ones are larger. -/
theorem pairwise_indices (range : FrameRange) : range.indices.Pairwise (· < ·) := by
  rw [indices_eq, List.pairwise_map]
  refine List.pairwise_lt_range.imp_of_mem fun hk hk' hlt => ?_
  rw [UInt64.lt_iff_toNat_lt, range.toNat_index (List.mem_range.mp hk),
    range.toNat_index (List.mem_range.mp hk')]
  exact Nat.add_lt_add_left hlt _

theorem contains_iff {i : FrameIndex} :
    range.contains i = true ↔ range.start ≤ i ∧ i < range.stop := by
  rw [contains, Bool.and_eq_true, decide_eq_true_eq, decide_eq_true_eq]

theorem mem_indices_iff {i : FrameIndex} : i ∈ range.indices ↔ range.contains i = true := by
  rw [indices_eq, List.mem_map, contains_iff]
  constructor
  · rintro ⟨k, hk, rfl⟩
    rw [List.mem_range] at hk
    exact ⟨range.start_le_index hk, range.index_lt_stop hk⟩
  · rintro ⟨hstart, hstop⟩
    obtain ⟨k, hk, hi⟩ := exists_index hstart hstop
    exact ⟨k, List.mem_range.mpr hk, hi⟩

theorem length_eq_zero_iff : range.length = 0 ↔ range.stop ≤ range.start := by
  rw [length, Nat.sub_eq_zero_iff_le, UInt64.le_iff_toNat_le]

theorem indices_eq_nil_iff : range.indices = [] ↔ range.length = 0 := by
  rw [← List.length_eq_zero_iff, length_indices]

theorem forall_not_contains_iff : (∀ i, range.contains i = false) ↔ range.length = 0 := by
  rw [← indices_eq_nil_iff, List.eq_nil_iff_forall_not_mem]
  exact forall_congr' fun i => by rw [mem_indices_iff, Bool.not_eq_true]

theorem isEmpty_iff : range.isEmpty = true ↔ range.start = range.stop := beq_iff_eq

/-- **That the ends meet means that no position is left** exactly where they are in order. -/
theorem isEmpty_agrees_iff :
    (range.isEmpty = true ↔ range.length = 0) ↔ range.start ≤ range.stop := by
  rw [isEmpty_iff, length_eq_zero_iff]
  constructor
  · intro hagree
    rcases UInt64.le_total range.start range.stop with hle | hle
    · exact hle
    · exact UInt64.le_of_eq (hagree.mpr hle)
  · intro hle
    exact ⟨fun heq => UInt64.le_of_eq heq.symm, fun hge => UInt64.le_antisymm hle hge⟩

theorem between_eq_ok_iff {start stop : FrameIndex} :
    between start stop = .ok range ↔ start ≤ stop ∧ range = ⟨start, stop⟩ := by
  unfold between
  split
  · rename_i hreversed
    exact ⟨fun h => (nomatch h), fun ⟨hle, _⟩ => absurd hreversed (UInt64.not_lt.mpr hle)⟩
  · rename_i hordered
    rw [Except.ok.injEq, eq_comm]
    exact (and_iff_right (UInt64.not_lt.mp hordered)).symm

end Queries

end HueCycle.FrameRange
