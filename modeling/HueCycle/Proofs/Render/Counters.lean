/-
HueCycle.Proofs.Render.Counters — what the counters of a rendered range say.

A plan that shares does the first position of each look and no other
(`Plan.unique_sharing_eq`), so there are as many jobs as looks
(`Plan.length_unique_sharing`). Neither depends on how the jobs are run: a
range that renders in one way renders in every way, with the same frames and
the same counters (`Renderer.framesOn_of_elide_eq`). Main statement:
`Renderer.framesOn_counts`.
-/
import Mathlib
import HueCycle.Proofs.Render.Range
import HueCycle.Proofs.Schedule

namespace HueCycle.Render

/-! ## §1 Plans -/

namespace Plan

theorem Serves.length_unique_le {κ : Type} {plan : Plan} {key : Nat → κ} {n : Nat}
    (h : plan.Serves key n) : plan.unique.length ≤ n := by
  have hbelow : plan.unique ⊆ List.range n := fun i hi => List.mem_range.mpr (h.below i hi)
  have hcount := (List.subperm_of_subset (h.increasing.imp Nat.ne_of_lt) hbelow).length_le
  rwa [List.length_range] at hcount

variable {κ : Type} [DecidableEq κ]

/-- The positions whose key no earlier one has. -/
def firsts (key : Nat → κ) (n : Nat) : List Nat :=
  (List.range n).filter fun i => decide (∀ j < i, key j ≠ key i)

theorem mem_firsts_iff {key : Nat → κ} {n i : Nat} :
    i ∈ firsts key n ↔ i < n ∧ ∀ j < i, key j ≠ key i := by
  rw [firsts, List.mem_filter, List.mem_range, decide_eq_true_eq]

variable [BEq κ] [LawfulBEq κ]

/-- **A plan that shares does the first position of each key**, in increasing order. -/
theorem unique_sharing_eq (key : Nat → κ) (n : Nat) :
    (sharing ((List.range n).map key)).unique = firsts key n := by
  have hserves := serves_sharing key n
  refine List.Perm.eq_of_pairwise' hserves.increasing
    (List.pairwise_lt_range.filter _) ?_
  refine (List.perm_ext_iff_of_nodup (hserves.increasing.imp Nat.ne_of_lt)
    (List.nodup_range.filter _)).mpr fun i => ?_
  rw [← firsts, mem_firsts_iff]
  refine ⟨unique_sharing key n, fun ⟨hi, hfirst⟩ => ?_⟩
  -- the job that serves a first position is that position
  obtain ⟨slot, hslot⟩ : ∃ slot, (sharing ((List.range n).map key)).slots[i]? = some slot :=
    ⟨_, List.getElem?_eq_getElem (by rw [hserves.length_slots]; exact hi)⟩
  obtain ⟨job, hjob, hle, hkey⟩ := hserves.served i slot hslot
  rcases hle.lt_or_eq with hlt | rfl
  · exact absurd hkey (hfirst job hlt)
  · exact List.mem_of_getElem? hjob

/-- **There are as many jobs as keys.** -/
theorem length_unique_sharing (key : Nat → κ) (n : Nat) :
    (sharing ((List.range n).map key)).unique.length = ((List.range n).map key).toFinset.card := by
  have hdistinct : ((firsts key n).map key).Nodup := by
    rw [List.Nodup, List.pairwise_map]
    refine (List.pairwise_lt_range.filter _).imp_of_mem fun hi hj hlt => ?_
    exact (mem_firsts_iff.mp hj).2 _ hlt
  have hall : ((firsts key n).map key).toFinset = ((List.range n).map key).toFinset := by
    ext k
    simp only [List.mem_toFinset, List.mem_map, List.mem_range]
    constructor
    · rintro ⟨i, hi, rfl⟩
      exact ⟨i, (mem_firsts_iff.mp hi).1, rfl⟩
    · rintro ⟨i, hi, rfl⟩
      -- the least position of this key is a first one
      have hexists : ∃ j, key j = key i := ⟨i, rfl⟩
      have hleast := Nat.find_spec hexists
      refine ⟨Nat.find hexists, mem_firsts_iff.mpr ⟨?_, fun j hj => ?_⟩, hleast⟩
      · exact (Nat.find_min' hexists rfl).trans_lt hi
      · rw [hleast]
        exact Nat.find_min hexists hj
  rw [unique_sharing_eq, ← hall, List.toFinset_card_of_nodup hdistinct, List.length_map]

end Plan

/-! ## §2 Ranges -/

namespace Renderer

/-- What decides on the pixels of a frame: the bits of the hue within a turn and of the
brightness. -/
def look (r : Renderer) (i : FrameIndex) : UInt64 × UInt64 :=
  ((Hsv.hueInTurn (r.schedule.hue i)).toBits, (r.schedule.brightness i).toBits)

/-- The frames of a range that are painted; the others share their pixels. -/
def painted (r : Renderer) (range : FrameRange) (elide : Bool) : List FrameIndex :=
  (r.planOf range elide).unique.filterMap fun k => range.indices[k]?

section Range

variable (r : Renderer) (pool : Pool) {range : FrameRange} {threading : Threading}

theorem painted_eq_map (range : FrameRange) (elide : Bool) :
    r.painted range elide = (r.planOf range elide).unique.map
      fun k => UInt64.ofNat (range.start.toNat + k) := by
  have hindex : ∀ k ∈ (r.planOf range elide).unique,
      range.indices[k]? = some (UInt64.ofNat (range.start.toNat + k)) := by
    intro k hk
    rw [FrameRange.indices_eq, List.getElem?_map,
      List.getElem?_range ((r.serves_planOf range elide).below k hk)]
    rfl
  rw [painted, List.filterMap_congr hindex, List.filterMap_eq_map']

/-- The looks of a range, position by position. -/
theorem map_look_indices (range : FrameRange) :
    range.indices.map r.look = (List.range range.length).map fun k => lookOf (r.cueAt range k) := by
  rw [FrameRange.indices_eq, List.map_map]
  rfl

/-- The plan of a range that shares, by the looks of its positions. -/
theorem planOf_true (range : FrameRange) : r.planOf range true =
    Plan.sharing ((List.range range.length).map fun k => lookOf (r.cueAt range k)) := by
  rw [planOf, map_cue_indices, planFor, if_pos rfl, List.map_map]
  rfl

theorem planOf_false (range : FrameRange) :
    r.planOf range false = Plan.separate range.length := by
  rw [planOf, map_cue_indices, planFor, if_neg (by decide), List.length_map, List.length_range]

/-- Without sharing every frame is painted. -/
theorem painted_false (range : FrameRange) : r.painted range false = range.indices := by
  rw [painted_eq_map, planOf_false, FrameRange.indices_eq]
  rfl

/-- **With sharing the first frame of each look is painted**, and no other. -/
theorem painted_true (range : FrameRange) : r.painted range true =
    range.indices.filter fun i => decide (∀ j ∈ range.indices, j < i → r.look j ≠ r.look i) := by
  rw [painted_eq_map, planOf_true, Plan.unique_sharing_eq, Plan.firsts, range.indices_eq,
    List.filter_map]
  refine congrArg (List.map _) (List.filter_congr fun k hk => ?_)
  rw [List.mem_range] at hk
  rw [Function.comp_apply, decide_eq_decide]
  constructor
  · intro hfirst j hj hlt
    obtain ⟨m, hm, rfl⟩ := List.mem_map.mp hj
    rw [List.mem_range] at hm
    rw [UInt64.lt_iff_toNat_lt, range.toNat_index hm, range.toNat_index hk] at hlt
    exact hfirst m (by omega)
  · intro hfirst m hm
    refine hfirst _ (List.mem_map.mpr ⟨m, List.mem_range.mpr (by omega), rfl⟩) ?_
    rw [UInt64.lt_iff_toNat_lt, range.toNat_index (by omega), range.toNat_index hk]
    omega

/-- What the jobs of a range that renders made, and its counters. -/
theorem exists_painted {frames : List Frame} {stats : Stats}
    (h : r.framesOn pool range threading = .ok (frames, stats)) :
    ∃ images, r.paintUnique threading pool (range.indices.map r.schedule.cue)
        (r.planOf range threading.elide) = .ok images ∧
      (r.painted range threading.elide).map (fun i => r.paint (r.schedule.cue i)) =
        images.map .ok ∧
      stats = ⟨range.length, images.length, range.length - images.length⟩ := by
  obtain ⟨hrange, hstop, hthreads⟩ := framesOn_checks r pool h
  cases himages : r.paintUnique threading pool (range.indices.map r.schedule.cue)
      (r.planOf range threading.elide) with
  | error e =>
    rw [framesOn_of_paintUnique_error r pool hrange hstop himages] at h
    cases h
  | ok images =>
    refine ⟨images, rfl, ?_, ?_⟩
    · rw [map_cue_indices,
        paintUnique_eq_ok_iff r pool (r.serves_planOf range threading.elide) _ hthreads] at himages
      rw [painted_eq_map, List.map_map, ← himages]
      rfl
    · obtain ⟨frames', hrun, -⟩ :=
        framesOn_of_paintUnique_ok r pool hrange hstop hthreads himages
      rw [hrun, Except.ok.injEq, Prod.mk.injEq] at h
      exact h.2.symm

/-- **How the jobs are run does not matter**: a range that renders in one way renders in every
other that shares alike, with the same frames and counters. -/
theorem framesOn_of_elide_eq {frames : List Frame} {stats : Stats}
    (h : r.framesOn pool range threading = .ok (frames, stats)) (pool' : Pool)
    {threading' : Threading} (helide : threading'.elide = threading.elide)
    (hthreads' : threading'.parallel = true → threading'.threads ≠ some 0) :
    r.framesOn pool' range threading' = .ok (frames, stats) := by
  obtain ⟨hrange, hstop, hthreads⟩ := framesOn_checks r pool h
  obtain ⟨images, himages, -, rfl⟩ := exists_painted r pool h
  rw [map_cue_indices,
    paintUnique_eq_ok_iff r pool (r.serves_planOf range threading.elide) _ hthreads,
    ← helide, ← paintUnique_eq_ok_iff r pool' (r.serves_planOf range threading'.elide) _ hthreads',
    ← map_cue_indices] at himages
  obtain ⟨frames', hrun, hframes'⟩ :=
    framesOn_of_paintUnique_ok r pool' hrange hstop hthreads' himages
  have hframes := (framesOn_eq_ok r pool h).1
  rw [← hframes', List.map_inj_right fun _ _ h => Except.ok.inj h] at hframes
  rw [hrun, hframes]

/-- **What the counters say.** Of a range that renders, the total is the number of its positions.
Without sharing every frame is rendered. With sharing as many are rendered as there are looks among
the frames, each from the first frame that has it. The images made are those of the frames painted,
in this order. The rest is shared, which is never less than nothing; and in every other way of
running the jobs the range renders to the same frames with the same counters. -/
theorem framesOn_counts {frames : List Frame} {stats : Stats}
    (h : r.framesOn pool range threading = .ok (frames, stats)) :
    stats.total = range.indices.length ∧
    (threading.elide = false →
      stats.rendered = stats.total ∧ r.painted range threading.elide = range.indices) ∧
    (threading.elide = true →
      stats.rendered = (range.indices.map r.look).toFinset.card ∧
      r.painted range threading.elide = range.indices.filter
        fun i => decide (∀ j ∈ range.indices, j < i → r.look j ≠ r.look i)) ∧
    (∃ images, r.paintUnique threading pool (range.indices.map r.schedule.cue)
        (r.planOf range threading.elide) = .ok images ∧ images.length = stats.rendered ∧
      (r.painted range threading.elide).map (fun i => r.paint (r.schedule.cue i)) =
        images.map .ok) ∧
    (stats.rendered ≤ stats.total ∧ stats.elided = stats.total - stats.rendered) ∧
    ∀ (pool' : Pool) (threading' : Threading), threading'.elide = threading.elide →
      (threading'.parallel = true → threading'.threads ≠ some 0) →
      r.framesOn pool' range threading' = .ok (frames, stats) := by
  obtain ⟨images, himages, hpainted, rfl⟩ := exists_painted r pool h
  have hjobs : images.length = (r.painted range threading.elide).length := by
    have hlength := congrArg List.length hpainted
    rw [List.length_map, List.length_map] at hlength
    exact hlength.symm
  refine ⟨range.length_indices.symm, fun helide => ?_, fun helide => ?_,
    ⟨images, himages, rfl, hpainted⟩, ⟨?_, rfl⟩,
    fun pool' threading' helide hthreads' => r.framesOn_of_elide_eq pool h pool' helide hthreads'⟩
  · rw [helide, painted_false] at hjobs
    exact ⟨hjobs.trans range.length_indices, helide ▸ r.painted_false range⟩
  · refine ⟨?_, helide ▸ r.painted_true range⟩
    rw [helide, painted_eq_map, List.length_map, planOf_true, Plan.length_unique_sharing,
      ← map_look_indices] at hjobs
    exact hjobs
  · show images.length ≤ range.length
    rw [hjobs, painted_eq_map, List.length_map]
    exact (r.serves_planOf range threading.elide).length_unique_le

end Range

/-- One pixel, and two frames of a hue that makes a whole turn from the first to the second. -/
def wholeTurns : Renderer :=
  ⟨⟨⟨⟨1, 1⟩, #[⟨200, 0, 0, 128⟩], rfl⟩, []⟩, ⟨⟨1, 1⟩, 2.0, 2.0, 0.0, 2, ⟨1, 1⟩⟩⟩

theorem angle_wholeTurns (i : FrameIndex) (hi : i = 0 ∨ i = 1) :
    phaseAt (wholeTurns.schedule.elapsed i) wholeTurns.schedule.duration
      wholeTurns.schedule.blinks = 0.0 := by
  refine Binary64.toBits_injective ?_
  rcases hi with rfl | rfl
  · decide +kernel
  · decide +kernel

theorem hue_wholeTurns (i : FrameIndex) (hi : i = 0 ∨ i = 1) :
    (wholeTurns.schedule.hue i).isFinite = true ∧
      (Hsv.hueInTurn (wholeTurns.schedule.hue i)).toBits = 0 := by
  rcases hi with rfl | rfl
  · exact ⟨by decide +kernel, by decide +kernel⟩
  · exact ⟨by decide +kernel, by decide +kernel⟩

theorem look_wholeTurns (i : FrameIndex) (hi : i = 0 ∨ i = 1) :
    wholeTurns.look i = (0, (0.5 + 0.5 * sine 0.0 : Float).toBits) := by
  rw [look, (hue_wholeTurns i hi).2, Schedule.brightness, angle_wholeTurns i hi]

/-- The second frame shares the pixels of the first, also on a pool that finishes its jobs in
reverse; without sharing both are rendered. -/
theorem framesOn_counts_whole_turns :
    let pool : Pool := ⟨fun n => (List.range n).reverse, fun _ => List.reverse_perm _⟩
    (∃ frames, wholeTurns.framesOn pool ⟨0, 2⟩ ⟨true, some 2, true⟩ = .ok (frames, ⟨2, 1, 1⟩)) ∧
      ∃ frames, wholeTurns.framesOn pool ⟨0, 2⟩ Threading.sequential =
        .ok (frames, ⟨2, 2, 0⟩) := by
  intro pool
  have hruns (threading : Threading)
      (hthreads : threading.parallel = true → threading.threads ≠ some 0) :
      ∃ result, wholeTurns.framesOn pool ⟨0, 2⟩ threading = .ok result := by
    refine (framesOn_isOk_iff wholeTurns pool (by decide) (by decide) hthreads).mpr ?_
    intro k hk
    have hi : UInt64.ofNat ((0 : UInt64).toNat + k) = 0 ∨
        UInt64.ofNat ((0 : UInt64).toNat + k) = 1 := by
      have hk : k < 2 := hk
      interval_cases k
      · exact .inl rfl
      · exact .inr rfl
    have hcheck := wholeTurns.schedule.checkRecolor_cue _ (hue_wholeTurns _ hi).1
      (by rw [angle_wholeTurns _ hi]; decide)
    rw [frame_index wholeTurns (by decide) hk, paint, cueAt, Image.recolorChecked, hcheck]
    exact ⟨_, rfl⟩
  obtain ⟨⟨frames, total, rendered, elided⟩, hshared⟩ := hruns ⟨true, some 2, true⟩ (by decide)
  obtain ⟨⟨frames', total', rendered', elided'⟩, hseparate⟩ :=
    hruns Threading.sequential (by decide)
  obtain ⟨htotal, -, hlooks, -, ⟨-, hrest⟩, -⟩ := framesOn_counts wholeTurns pool hshared
  obtain ⟨htotal', hall, -, -, ⟨-, hrest'⟩, -⟩ := framesOn_counts wholeTurns pool hseparate
  have hone : rendered = 1 := by
    refine (hlooks rfl).1.trans ?_
    show ([wholeTurns.look 0, wholeTurns.look 1] : List _).toFinset.card = 1
    rw [look_wholeTurns 0 (.inl rfl), look_wholeTurns 1 (.inr rfl)]
    simp
  have hboth : rendered' = total' := (hall rfl).1
  change elided = total - rendered at hrest
  change elided' = total' - rendered' at hrest'
  change total = 2 at htotal
  change total' = 2 at htotal'
  subst hrest hrest' hone hboth htotal htotal'
  exact ⟨⟨frames, hshared⟩, frames', hseparate⟩

end Renderer

end HueCycle.Render
