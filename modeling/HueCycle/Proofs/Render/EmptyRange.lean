/-
HueCycle.Proofs.Render.EmptyRange — ranges without a position, and what is
rendered of them.

The renderer refuses a range whose ends meet. A range whose end lies before
its start has no position either, but its ends do not meet: if it ends within
the schedule, it renders to no frames at all. No other range does. Main
statement: `FrameRange.queries_agree_unless_reversed`.
-/
import Mathlib
import HueCycle.Proofs.Render.Range

namespace HueCycle

open Render

namespace Render.Renderer

theorem framesOn_of_isEmpty (r : Renderer) (pool : Pool) {range : FrameRange}
    (threading : Threading) (h : range.isEmpty = true) :
    r.framesOn pool range threading = .error (.validation .rangeEmpty) := by
  rw [framesOn, h]
  rfl

/-- **Rendering to no frames**: only a range whose end lies before its start does. -/
theorem framesOn_eq_ok_nil_iff (r : Renderer) (pool : Pool) (range : FrameRange)
    (threading : Threading) :
    (∃ stats, r.framesOn pool range threading = .ok ([], stats)) ↔
      range.stop < range.start ∧ range.stop ≤ r.schedule.frameCount ∧
        (threading.parallel = true → threading.threads ≠ some 0) := by
  constructor
  · rintro ⟨stats, hrun⟩
    obtain ⟨hmeet, hstop, hthreads⟩ := framesOn_checks r pool hrun
    have hnone : range.length = 0 := by
      have hcount := congrArg List.length (framesOn_eq_ok r pool hrun).1
      rw [List.length_map, List.length_map, List.length_range, List.length_nil] at hcount
      exact hcount.symm
    rw [FrameRange.length_eq_zero_iff] at hnone
    exact ⟨UInt64.lt_of_le_of_ne hnone hmeet.symm, hstop, hthreads⟩
  · rintro ⟨hreversed, hstop, hthreads⟩
    have hmeet : range.start ≠ range.stop := (UInt64.ne_of_lt hreversed).symm
    have hnone : range.length = 0 :=
      FrameRange.length_eq_zero_iff.mpr (UInt64.le_of_lt hreversed)
    obtain ⟨⟨frames, stats⟩, hrun⟩ := (framesOn_isOk_iff r pool hmeet hstop hthreads).mpr
      fun k hk => absurd hk (by omega)
    have hframes := (framesOn_eq_ok r pool hrun).1
    rw [hnone, List.range_zero, List.map_nil, List.map_eq_nil_iff] at hframes
    subst hframes
    exact ⟨stats, hrun⟩

end Render.Renderer

namespace FrameRange

/-- **The queries of a range.** Whatever its ends, the positions come in increasing order, as many as
the length says, and are those that the range contains; so the length is zero exactly if none comes,
and exactly if no position is contained. That the ends meet says the same exactly if they are in
order, as they are in every range made by `between`. A range in order without a position is refused
by the renderer. An answer without frames is given exactly for a range whose end lies before its
start and within the schedule, unless it is left to a pool without workers. -/
theorem queries_agree_unless_reversed (range : FrameRange) :
    (range.indices.length = range.length ∧ range.indices.Pairwise (· < ·) ∧
      ∀ i, range.contains i = true ↔ i ∈ range.indices) ∧
    ((range.length = 0 ↔ range.indices = []) ∧
      (range.length = 0 ↔ ∀ i, range.contains i = false)) ∧
    ((range.isEmpty = true ↔ range.length = 0) ↔ range.start ≤ range.stop) ∧
    (∀ start stop, between start stop = .ok range → range.start ≤ range.stop) ∧
    ∀ (r : Renderer) (pool : Pool) (threading : Threading),
      (range.start ≤ range.stop → range.length = 0 →
        r.framesOn pool range threading = .error (.validation .rangeEmpty)) ∧
      ((∃ stats, r.framesOn pool range threading = .ok ([], stats)) ↔
        range.stop < range.start ∧ range.stop ≤ r.schedule.frameCount ∧
          (threading.parallel = true → threading.threads ≠ some 0)) := by
  refine ⟨⟨range.length_indices, range.pairwise_indices, fun i => mem_indices_iff.symm⟩,
    ⟨indices_eq_nil_iff.symm, forall_not_contains_iff.symm⟩, isEmpty_agrees_iff, ?_, ?_⟩
  · intro start stop hmade
    obtain ⟨hle, rfl⟩ := between_eq_ok_iff.mp hmade
    exact hle
  · intro r pool threading
    refine ⟨fun hle hnone => ?_, r.framesOn_eq_ok_nil_iff pool range threading⟩
    exact r.framesOn_of_isEmpty pool threading ((isEmpty_agrees_iff.mpr hle).mpr hnone)

/-- The range from two to two, and a renderer with one pixel and four frames. -/
theorem queries_agree_unless_reversed_two_to_two :
    let range : FrameRange := ⟨2, 2⟩
    let r : Renderer :=
      ⟨⟨⟨⟨1, 1⟩, #[⟨200, 0, 0, 128⟩], rfl⟩, []⟩, ⟨⟨2, 1⟩, 2.0, 1.0, 0.5, 4, ⟨1, 2⟩⟩⟩
    (range.start ≤ range.stop ∧ range.length = 0) ∧ range.isEmpty = true ∧
      (∀ i, range.contains i = false) ∧
      r.framesOn Pool.inOrder range Threading.sequential = .error (.validation .rangeEmpty) := by
  intro range r
  have hle : range.start ≤ range.stop := by decide
  have hnone : range.length = 0 := by decide
  obtain ⟨-, ⟨-, hcontains⟩, hempty, -, hframes⟩ := queries_agree_unless_reversed range
  exact ⟨⟨hle, hnone⟩, (hempty.mpr hle).mpr hnone, hcontains.mp hnone,
    (hframes r Pool.inOrder Threading.sequential).1 hle hnone⟩

/-- The range from three to two has no position, its ends do not meet, and it renders to no
frames. -/
theorem reversed_range_renders :
    let range : FrameRange := ⟨3, 2⟩
    let r : Renderer :=
      ⟨⟨⟨⟨1, 1⟩, #[⟨200, 0, 0, 128⟩], rfl⟩, []⟩, ⟨⟨2, 1⟩, 2.0, 1.0, 0.5, 4, ⟨1, 2⟩⟩⟩
    (range.length = 0 ∧ range.indices = [] ∧ range.isEmpty = false) ∧
      ∃ stats, r.framesOn Pool.inOrder range Threading.sequential = .ok ([], stats) := by
  intro range r
  refine ⟨by decide, (r.framesOn_eq_ok_nil_iff Pool.inOrder range Threading.sequential).mpr ?_⟩
  exact ⟨by decide, by decide, by decide⟩

end FrameRange

end HueCycle
