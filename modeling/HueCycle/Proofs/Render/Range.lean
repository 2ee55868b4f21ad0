/-
HueCycle.Proofs.Render.Range — rendering a range is rendering its frames
one by one.

However the jobs are shared and in whatever order a pool finishes them, a
range renders exactly if every frame of it does, and gives those frames in
increasing order. The argument has three parts:

  §1 Jobs   — both ways of running jobs succeed exactly if every job does,
              with the results in the order of the jobs.
  §2 Looks  — cues of one look are refused together or give the same
              pixels, since a hue is finite exactly if the hue within a turn
              is a number.
  §3 Ranges — a plan serves every position by a job of its look that stands
              no later, so the first job that fails is the first frame
              that does.
-/
import Mathlib
import HueCycle.Proofs.Color.HueInTurn
import HueCycle.Proofs.Render.Handover
import HueCycle.Proofs.Render.Sharing
import HueCycle.Proofs.Timing.FrameRange
import HueCycle.Render.Renderer

namespace HueCycle.Render

/-! ## §1 Jobs -/

/-- Running jobs one after the other succeeds exactly if every job does. -/
theorem runJobs_eq_ok_iff {jobs : List (Unit → Except Error Image)} {images : List Image} :
    runJobs jobs = .ok images ↔ jobs.map (· ()) = images.map .ok := by
  induction jobs generalizing images with
  | nil => cases images <;> simp [runJobs]
  | cons job jobs ih =>
    cases hjob : job () with
    | error e =>
      have hrun : runJobs (job :: jobs) = .error e := by
        rw [runJobs, hjob]
        rfl
      rw [hrun, List.map_cons, hjob]
      cases images <;> simp
    | ok image =>
      cases hjobs : runJobs jobs with
      | error e =>
        have hrun : runJobs (job :: jobs) = .error e := by
          rw [runJobs, hjob, hjobs]
          rfl
        rw [hrun]
        refine ⟨fun h => (nomatch h), ?_⟩
        intro h
        cases images with
        | nil => simp at h
        | cons first rest =>
          rw [List.map_cons, List.map_cons, List.cons.injEq] at h
          rw [ih.mpr h.2] at hjobs
          cases hjobs
      | ok more =>
        have hrun : runJobs (job :: jobs) = .ok (image :: more) := by
          rw [runJobs, hjob, hjobs]
          rfl
        rw [hrun, List.map_cons, hjob, ih.mp hjobs]
        cases images with
        | nil => simp
        | cons first rest =>
          simp only [List.map_cons, Except.ok.injEq, List.cons.injEq]
          rw [List.map_inj_right fun _ _ h => Except.ok.inj h]

/-- The error of jobs run one after the other is the one of the first job that fails. -/
theorem runJobs_eq_error {jobs : List (Unit → Except Error Image)} {e : Error}
    (h : runJobs jobs = .error e) :
    ∃ before job after, jobs = before ++ job :: after ∧ job () = .error e ∧
      ∀ earlier ∈ before, ∃ image, earlier () = .ok image := by
  induction jobs with
  | nil => cases h
  | cons job jobs ih =>
    cases hjob : job () with
    | error e' =>
      rw [runJobs, hjob] at h
      cases h
      exact ⟨[], job, jobs, rfl, hjob, by simp⟩
    | ok image =>
      cases hjobs : runJobs jobs with
      | ok more =>
        rw [runJobs, hjob, hjobs] at h
        cases h
      | error e' =>
        rw [runJobs, hjob, hjobs] at h
        cases h
        obtain ⟨before, failing, after, hsplit, hfails, hbefore⟩ := ih hjobs
        refine ⟨job :: before, failing, after, by rw [hsplit, List.cons_append], hfails, ?_⟩
        intro earlier hmem
        rcases List.mem_cons.mp hmem with rfl | hmem
        · exact ⟨image, hjob⟩
        · exact hbefore earlier hmem

namespace Pool

variable {ε α : Type}

theorem filterMap_toOption_map_ok (results : List α) :
    (results.map Except.ok).filterMap (Except.toOption (ε := ε)) = results := by
  induction results with
  | nil => rfl
  | cons result results ih => rw [List.map_cons, List.filterMap_cons, ih]; rfl

/-- Answers that are all successes are the list of some results. -/
theorem exists_map_ok {answers : List (Except ε α)} (h : ∀ a ∈ answers, ∃ v, a = .ok v) :
    ∃ results : List α, answers = results.map .ok := by
  induction answers with
  | nil => exact ⟨[], rfl⟩
  | cons answer answers ih =>
    obtain ⟨result, rfl⟩ := h answer List.mem_cons_self
    obtain ⟨results, rfl⟩ := ih fun a ha => h a (List.mem_cons_of_mem _ ha)
    exact ⟨result :: results, rfl⟩

/-- Collecting succeeds exactly if every answer is a success, in whatever order they come. -/
theorem collect_eq_ok_iff {finished : List Nat} {answers : List (Except ε α)} {results : List α}
    (hperm : finished.Perm (List.range answers.length)) :
    collect finished answers = .ok results ↔ answers = results.map .ok := by
  constructor
  · intro h
    unfold collect at h
    split at h
    · cases h
    · rename_i hnone
      rw [List.findSome?_eq_none_iff] at hnone
      obtain ⟨all, rfl⟩ : ∃ all : List α, answers = all.map .ok := by
        refine exists_map_ok ?_
        intro answer hmem
        obtain ⟨i, hi, hanswer⟩ := List.getElem_of_mem hmem
        have hnone := hnone i (hperm.mem_iff.mpr (List.mem_range.mpr hi))
        rw [List.getElem?_eq_getElem hi, hanswer, Option.bind_some] at hnone
        cases answer with
        | ok v => exact ⟨v, rfl⟩
        | error e => cases hnone
      rw [filterMap_toOption_map_ok] at h
      rw [Except.ok.inj h]
  · rintro rfl
    have hnone : finished.findSome? (fun i => (results.map (Except.ok (ε := ε)))[i]?.bind errorOf?)
        = none := by
      rw [List.findSome?_eq_none_iff]
      intro i _
      rw [List.getElem?_map]
      cases results[i]? <;> rfl
    rw [collect, hnone]
    dsimp only
    rw [filterMap_toOption_map_ok]

/-- A pool succeeds exactly if every job does. -/
theorem run_eq_ok_iff {pool : Pool} {jobs : List (Unit → Except ε α)} {results : List α} :
    pool.run jobs = .ok results ↔ jobs.map (· ()) = results.map .ok := by
  have hanswers : (jobs.map fun job => Task.spawn job).map Task.get = jobs.map (· ()) := by
    rw [List.map_map]
    rfl
  rw [run, hanswers]
  exact collect_eq_ok_iff (pool.perm _)

end Pool

/-! ## §2 Looks -/

/-- Recolouring looks at the hue within its turn only. -/
theorem recolor_of_hueInTurn_eq (image : Image) {hue hue' : Float} (factor : Float)
    (h : Hsv.hueInTurn hue = Hsv.hueInTurn hue') :
    image.recolor hue factor = image.recolor hue' factor := by
  simp only [Image.recolor, Pixel.recolor, h]

/-- Hues that are one within a turn are both finite or both not. -/
theorem isFinite_of_hueInTurn_eq {hue hue' : Float}
    (h : Hsv.hueInTurn hue = Hsv.hueInTurn hue') : hue.isFinite = hue'.isFinite := by
  have hnan := Hsv.isNaN_hueInTurn hue
  rw [h, Hsv.isNaN_hueInTurn, Bool.not_inj_iff] at hnan
  exact hnan.symm

/-- Cues of one look are refused together or give the same pixels. -/
theorem Renderer.toOption_paint_of_lookOf_eq (r : Renderer) {c d : Cue}
    (h : lookOf c = lookOf d) : (r.paint c).toOption = (r.paint d).toOption := by
  obtain ⟨hhue, hbrightness⟩ := Prod.mk.inj h
  have hhue := Binary64.toBits_injective hhue
  have hbrightness := Binary64.toBits_injective hbrightness
  have hfinite := isFinite_of_hueInTurn_eq hhue
  simp only [Renderer.paint, Image.recolorChecked, Image.checkRecolor, hbrightness,
    recolor_of_hueInTurn_eq r.baseline _ hhue, hfinite]
  split
  · rfl
  · rfl

/-! ## §3 Ranges -/

/-- Whichever way frames share their pixels, a plan serves each by a job of its look. -/
theorem serves_planFor (cueAt : Nat → Cue) (n : Nat) (elide : Bool) :
    (planFor ((List.range n).map cueAt) elide).Serves (fun k => lookOf (cueAt k)) n := by
  cases elide with
  | true =>
    rw [planFor, if_pos rfl, List.map_map]
    exact Plan.serves_sharing _ n
  | false =>
    rw [planFor, if_neg (by decide), List.length_map, List.length_range]
    exact Plan.serves_separate _ n

namespace Renderer

/-- The jobs of a plan whose positions exist. -/
theorem filterMap_unique {plan : Plan} {κ : Type} {key : Nat → κ} {n : Nat}
    (hplan : plan.Serves key n) (cueAt : Nat → Cue) :
    (plan.unique.filterMap fun i => ((List.range n).map cueAt)[i]?) = plan.unique.map cueAt := by
  have hcue : ∀ i ∈ plan.unique, ((List.range n).map cueAt)[i]? = some (cueAt i) := by
    intro i hi
    rw [List.getElem?_map, List.getElem?_range (hplan.below i hi)]
    rfl
  rw [List.filterMap_congr hcue, List.filterMap_eq_map']

/-- Painting the positions of a plan succeeds exactly if each can be painted. -/
theorem paintUnique_eq_ok_iff (r : Renderer) {threading : Threading} (pool : Pool)
    {plan : Plan} {κ : Type} {key : Nat → κ} {n : Nat} (hplan : plan.Serves key n)
    (cueAt : Nat → Cue) (hthreads : threading.parallel = true → threading.threads ≠ some 0)
    {images : List Image} :
    r.paintUnique threading pool ((List.range n).map cueAt) plan = .ok images ↔
      plan.unique.map (fun i => r.paint (cueAt i)) = images.map .ok := by
  have hjobs : ((plan.unique.map cueAt).map fun c => fun _ : Unit => r.paint c).map (· ())
      = plan.unique.map fun i => r.paint (cueAt i) := by
    rw [List.map_map, List.map_map]
    rfl
  simp only [paintUnique, filterMap_unique hplan]
  split
  · rename_i hparallel
    rw [if_neg (hthreads hparallel), Pool.run_eq_ok_iff, hjobs]
  · rw [runJobs_eq_ok_iff, hjobs]

/-- Rendering one frame is painting its cue. -/
theorem frame_eq (r : Renderer) {i : FrameIndex} (h : i < r.schedule.frameCount) :
    r.frame i = (r.paint (r.schedule.cue i)).map fun image => ⟨i, r.schedule.cue i, image⟩ := by
  have hin : r.schedule.range.contains i = true := by
    simp [FrameRange.contains, Schedule.range, h]
  rw [frame, if_pos hin]
  dsimp only
  cases r.paint (r.schedule.cue i) <;> rfl

/-- Rendering a range that can be rendered is painting the positions of a plan and handing
the results out. -/
theorem framesOn_eq (r : Renderer) (pool : Pool) {range : FrameRange} (threading : Threading)
    (hrange : range.start ≠ range.stop) (hstop : range.stop ≤ r.schedule.frameCount) :
    let cues := range.indices.map r.schedule.cue
    let plan := planFor cues threading.elide
    r.framesOn pool range threading = do
      let rendered ← r.paintUnique threading pool cues plan
      let (served, _) ← (Shelf.serve rendered plan.slots).mapError ShelfFault.toError
      return (List.zipWith (fun c given => Frame.mk c.index c given.1) cues served,
        ⟨cues.length, rendered.length, cues.length - rendered.length⟩) := by
  have hempty : range.isEmpty = false := by simp [FrameRange.isEmpty, hrange]
  have hbeyond : ¬ r.schedule.frameCount < range.stop := UInt64.not_lt.mpr hstop
  dsimp only
  rw [framesOn, hempty, if_neg hbeyond]
  rfl

/-- Handing out the images of a plan gives every cue its own pixels. -/
theorem serve_painted (r : Renderer) {plan : Plan} {cueAt : Nat → Cue} {n : Nat}
    (hplan : plan.Serves (fun k => lookOf (cueAt k)) n) {images : List Image}
    (himages : plan.unique.map (fun i => r.paint (cueAt i)) = images.map .ok) :
    ∃ served shelf, Shelf.serve images plan.slots = .ok (served, shelf) ∧
      served.length = n ∧
      ∀ k given, served[k]? = some given → r.paint (cueAt k) = .ok given.1 := by
  have hlength : images.length = plan.unique.length := by
    have := congrArg List.length himages
    rw [List.length_map, List.length_map] at this
    exact this.symm
  have hslots : ∀ slot ∈ plan.slots, slot < images.length := by
    intro slot hmem
    obtain ⟨j, hj⟩ := List.getElem?_of_mem hmem
    obtain ⟨i, hi, -⟩ := hplan.served j slot hj
    rw [hlength]
    exact (List.getElem?_eq_some_iff.mp hi).1
  obtain ⟨served, shelf, hserve, hserved, -⟩ := Shelf.serve_ok hslots
  have hfirst : served.map (fun given => some given.1) = plan.slots.map (images[·]?) := by
    rw [← Shelf.map_fst_handouts, ← hserved, List.map_map]
    rfl
  refine ⟨served, shelf, hserve, ?_, fun k given hk => ?_⟩
  · rw [← hplan.length_slots, ← List.length_map (f := fun given => some given.1), hfirst,
      List.length_map]
  · have hgiven : (plan.slots.map (images[·]?))[k]? = some (some given.1) := by
      rw [← hfirst, List.getElem?_map, hk]
      rfl
    rw [List.getElem?_map, Option.map_eq_some_iff] at hgiven
    obtain ⟨slot, hslot, himage⟩ := hgiven
    obtain ⟨i, hi, -, hlook⟩ := hplan.served k slot hslot
    have hpaint : r.paint (cueAt i) = .ok given.1 := by
      have hat : (images.map (Except.ok (ε := Error)))[slot]? = some (.ok given.1) := by
        rw [List.getElem?_map, himage]
        rfl
      rw [← himages, List.getElem?_map, hi] at hat
      exact Option.some.inj hat
    have hsame := r.toOption_paint_of_lookOf_eq hlook
    rw [hpaint] at hsame
    cases hk : r.paint (cueAt k) with
    | error e => rw [hk] at hsame; cases hsame
    | ok image => rw [hk] at hsame; rw [Option.some.inj hsame]

/-- The cue of position number `k` of a range. -/
def cueAt (r : Renderer) (range : FrameRange) (k : Nat) : Cue :=
  r.schedule.cue (UInt64.ofNat (range.start.toNat + k))

theorem map_cue_indices (r : Renderer) (range : FrameRange) :
    range.indices.map r.schedule.cue = (List.range range.length).map (r.cueAt range) := by
  rw [FrameRange.indices_eq, List.map_map]
  rfl

/-- The plan by which the frames of a range are rendered. -/
def planOf (r : Renderer) (range : FrameRange) (elide : Bool) : Plan :=
  planFor (range.indices.map r.schedule.cue) elide

theorem serves_planOf (r : Renderer) (range : FrameRange) (elide : Bool) :
    (r.planOf range elide).Serves (fun k => lookOf (r.cueAt range k)) range.length := by
  rw [planOf, map_cue_indices]
  exact serves_planFor _ _ _

section Range

variable (r : Renderer) (pool : Pool) {range : FrameRange} {threading : Threading}
  (hrange : range.start ≠ range.stop) (hstop : range.stop ≤ r.schedule.frameCount)

include hstop in
/-- The frame of position number `k` of a range. -/
theorem frame_index {k : Nat} (hk : k < range.length) :
    r.frame (UInt64.ofNat (range.start.toNat + k))
      = (r.paint (r.cueAt range k)).map
        fun image => ⟨UInt64.ofNat (range.start.toNat + k), r.cueAt range k, image⟩ :=
  r.frame_eq (UInt64.lt_of_lt_of_le (range.index_lt_stop hk) hstop)

include hrange hstop in
/-- When the jobs of the plan succeed, so does the range, with the frames of its positions. -/
theorem framesOn_of_paintUnique_ok {images : List Image}
    (hthreads : threading.parallel = true → threading.threads ≠ some 0)
    (himages : r.paintUnique threading pool (range.indices.map r.schedule.cue)
      (r.planOf range threading.elide) = .ok images) :
    ∃ frames, r.framesOn pool range threading = .ok (frames,
        ⟨range.length, images.length, range.length - images.length⟩) ∧
      frames.map .ok = (List.range range.length).map
        fun k => r.frame (UInt64.ofNat (range.start.toNat + k)) := by
  have hplan := r.serves_planOf range threading.elide
  rw [framesOn_eq r pool threading hrange hstop]
  dsimp only
  rw [← planOf, himages]
  rw [map_cue_indices, paintUnique_eq_ok_iff r pool hplan _ hthreads] at himages
  obtain ⟨served, shelf, hserve, hlength, hpaint⟩ := r.serve_painted hplan himages
  refine ⟨List.zipWith (fun c given => Frame.mk c.index c given.1)
    (range.indices.map r.schedule.cue) served, ?_, ?_⟩
  · show (Except.mapError _ (Shelf.serve images _)).bind _ = _
    rw [hserve, map_cue_indices]
    simp only [List.length_map, List.length_range]
    rfl
  · rw [map_cue_indices]
    refine List.ext_getElem (by simp [hlength]) ?_
    intro k hk _
    have hk : k < range.length := by simpa [hlength] using hk
    have hserved : k < served.length := hlength ▸ hk
    have hpaint := hpaint k _ (List.getElem?_eq_getElem hserved)
    simp only [List.getElem_map, List.getElem_zipWith, List.getElem_range]
    rw [r.frame_index hstop hk, hpaint]
    rfl

include hrange hstop in
/-- When the jobs of the plan fail, so does the range, with their error. -/
theorem framesOn_of_paintUnique_error {e : Error}
    (herror : r.paintUnique threading pool (range.indices.map r.schedule.cue)
      (r.planOf range threading.elide) = .error e) :
    r.framesOn pool range threading = .error e := by
  rw [framesOn_eq r pool threading hrange hstop]
  dsimp only
  rw [← planOf, herror]
  rfl

/-- A range that renders is not empty, does not end beyond the schedule and is not left to a pool
without workers. -/
theorem framesOn_checks {result : List Frame × Stats}
    (h : r.framesOn pool range threading = .ok result) :
    range.start ≠ range.stop ∧ range.stop ≤ r.schedule.frameCount ∧
      (threading.parallel = true → threading.threads ≠ some 0) := by
  have hrange : range.start ≠ range.stop := by
    intro heq
    have hempty : range.isEmpty = true := by simp [FrameRange.isEmpty, heq]
    rw [framesOn, hempty] at h
    cases h
  have hstop : range.stop ≤ r.schedule.frameCount := by
    rw [← UInt64.not_lt]
    intro hbeyond
    have hempty : range.isEmpty = false := by simp [FrameRange.isEmpty, hrange]
    rw [framesOn, hempty, if_pos hbeyond] at h
    cases h
  refine ⟨hrange, hstop, ?_⟩
  intro hparallel hzero
  have herror : r.paintUnique threading pool (range.indices.map r.schedule.cue)
      (r.planOf range threading.elide) = .error (.validation .noThreads) := by
    rw [paintUnique, if_pos hparallel, if_pos hzero]
  rw [framesOn_of_paintUnique_error r pool hrange hstop herror] at h
  cases h

/-- The frames of a range that renders are those of its positions. -/
theorem framesOn_eq_ok {frames : List Frame} {stats : Stats}
    (h : r.framesOn pool range threading = .ok (frames, stats)) :
    frames.map .ok = ((List.range range.length).map
      fun k => r.frame (UInt64.ofNat (range.start.toNat + k))) ∧ stats.total = range.length := by
  obtain ⟨hrange, hstop, hthreads⟩ := framesOn_checks r pool h
  cases himages : r.paintUnique threading pool (range.indices.map r.schedule.cue)
      (r.planOf range threading.elide) with
  | error e =>
    rw [framesOn_of_paintUnique_error r pool hrange hstop himages] at h
    cases h
  | ok images =>
    obtain ⟨frames', hrun, hframes⟩ :=
      framesOn_of_paintUnique_ok r pool hrange hstop hthreads himages
    rw [hrun, Except.ok.injEq, Prod.mk.injEq] at h
    obtain ⟨rfl, rfl⟩ := h
    exact ⟨hframes, rfl⟩

include hrange hstop in
/-- A range renders exactly if all its positions do. -/
theorem framesOn_isOk_iff (hthreads : threading.parallel = true → threading.threads ≠ some 0) :
    (∃ result, r.framesOn pool range threading = .ok result) ↔
      ∀ k < range.length, ∃ f, r.frame (UInt64.ofNat (range.start.toNat + k)) = .ok f := by
  have hplan := r.serves_planOf range threading.elide
  constructor
  · rintro ⟨⟨frames, stats⟩, hresult⟩ k hk
    have hmem := List.mem_map_of_mem
      (f := fun k => r.frame (UInt64.ofNat (range.start.toNat + k))) (List.mem_range.mpr hk)
    rw [← (framesOn_eq_ok r pool hresult).1] at hmem
    obtain ⟨f, -, hf⟩ := List.mem_map.mp hmem
    exact ⟨f, hf.symm⟩
  · intro hall
    have hpaint : ∀ answer ∈ (r.planOf range threading.elide).unique.map
        (fun i => r.paint (r.cueAt range i)), ∃ image, answer = .ok image := by
      intro answer hanswer
      obtain ⟨i, hi, rfl⟩ := List.mem_map.mp hanswer
      obtain ⟨f, hf⟩ := hall i (hplan.below i hi)
      rw [r.frame_index hstop (hplan.below i hi)] at hf
      cases himage : r.paint (r.cueAt range i) with
      | error e => rw [himage] at hf; cases hf
      | ok image => exact ⟨image, rfl⟩
    obtain ⟨images, himages⟩ := Pool.exists_map_ok hpaint
    rw [← paintUnique_eq_ok_iff r pool hplan _ hthreads, ← map_cue_indices] at himages
    obtain ⟨frames, hrun, -⟩ := framesOn_of_paintUnique_ok r pool hrange hstop hthreads himages
    exact ⟨_, hrun⟩

include hrange hstop in
/-- Without a pool the error is the one of the first position that fails: a job that fails
stands for no earlier position, since an earlier one of its look would have failed too. -/
theorem framesOn_eq_error (hsequential : threading.parallel = false) {e : Error}
    (herror : r.framesOn pool range threading = .error e) :
    ∃ k < range.length, r.frame (UInt64.ofNat (range.start.toNat + k)) = .error e ∧
      ∀ j < k, ∃ f, r.frame (UInt64.ofNat (range.start.toNat + j)) = .ok f := by
  have hplan := r.serves_planOf range threading.elide
  have hjobs : r.paintUnique threading pool (range.indices.map r.schedule.cue)
      (r.planOf range threading.elide) = .error e := by
    cases himages : r.paintUnique threading pool (range.indices.map r.schedule.cue)
        (r.planOf range threading.elide) with
    | error e' =>
      rw [framesOn_of_paintUnique_error r pool hrange hstop himages] at herror
      rw [Except.error.inj herror]
    | ok images =>
      obtain ⟨frames, hrun, -⟩ := framesOn_of_paintUnique_ok r pool hrange hstop
        (fun h => absurd h (by simp [hsequential])) himages
      rw [hrun] at herror
      cases herror
  simp only [paintUnique, map_cue_indices, filterMap_unique hplan, hsequential,
    Bool.false_eq_true, if_false, List.map_map] at hjobs
  obtain ⟨before, job, after, hsplit, hjob, hbefore⟩ := runJobs_eq_error hjobs
  obtain ⟨earlier, later, hunique, rfl, htail⟩ := List.map_eq_append_iff.mp hsplit
  obtain ⟨i, rest, rfl, rfl, -⟩ := List.map_eq_cons_iff.mp htail
  have hincreasing := hplan.increasing
  rw [hunique] at hincreasing
  have hi : i < range.length := hplan.below i (by rw [hunique]; simp)
  refine ⟨i, hi, ?_, fun j hj => ?_⟩
  · rw [r.frame_index hstop hi]
    change r.paint (r.cueAt range i) = .error e at hjob
    rw [hjob]
    rfl
  · have hjlength : j < range.length := by omega
    -- the job that serves position `j` comes before the one that fails
    obtain ⟨slot, hslot⟩ : ∃ slot, (r.planOf range threading.elide).slots[j]? = some slot :=
      ⟨_, List.getElem?_eq_getElem (by rw [hplan.length_slots]; exact hjlength)⟩
    obtain ⟨first, hfirst, hle, hlook⟩ := hplan.served j slot hslot
    have hmem : first ∈ earlier := by
      have hmem := List.mem_of_getElem? hfirst
      rw [hunique, List.mem_append, List.mem_cons] at hmem
      rcases hmem with hmem | rfl | hmem
      · exact hmem
      · omega
      · have := List.rel_of_pairwise_cons (List.pairwise_append.mp hincreasing).2.1 hmem
        omega
    obtain ⟨image, himage⟩ := hbefore _ (List.mem_map_of_mem hmem)
    change r.paint (r.cueAt range first) = .ok image at himage
    have hsame := r.toOption_paint_of_lookOf_eq hlook
    rw [himage] at hsame
    rw [r.frame_index hstop hjlength]
    cases hpaint : r.paint (r.cueAt range j) with
    | error e' => rw [hpaint] at hsame; cases hsame
    | ok image' => exact ⟨_, rfl⟩

end Range

/-- **A range renders as its frames do.** For every range that is not empty and does not end
beyond the schedule, and however its frames are shared and its jobs are finished: the range
renders exactly if each of its frames does; its frames are then those of its positions in
increasing order; and without a pool a failure is the one of the first frame that fails. -/
theorem framesOn_renders_each_frame (r : Renderer) (pool : Pool) (range : FrameRange)
    (threading : Threading) (hrange : range.start ≠ range.stop)
    (hstop : range.stop ≤ r.schedule.frameCount)
    (hthreads : threading.parallel = true → threading.threads ≠ some 0) :
    ((∃ result, r.framesOn pool range threading = .ok result) ↔
      ∀ i, range.start ≤ i → i < range.stop → ∃ f, r.frame i = .ok f) ∧
    (∀ frames stats, r.framesOn pool range threading = .ok (frames, stats) →
      frames.map .ok
        = (List.range' range.start.toNat (range.stop.toNat - range.start.toNat)).map
          fun i => r.frame (UInt64.ofNat i)) ∧
    (threading.parallel = false → ∀ e, r.framesOn pool range threading = .error e →
      ∃ i, range.start ≤ i ∧ i < range.stop ∧ r.frame i = .error e ∧
        ∀ j, range.start ≤ j → j < i → ∃ f, r.frame j = .ok f) := by
  refine ⟨?_, ?_, ?_⟩
  · rw [framesOn_isOk_iff r pool hrange hstop hthreads]
    constructor
    · intro hall i hstart hlt
      obtain ⟨k, hk, rfl⟩ := FrameRange.exists_index hstart hlt
      exact hall k hk
    · intro hall k hk
      exact hall _ (range.start_le_index hk) (range.index_lt_stop hk)
  · intro frames stats hrun
    rw [(framesOn_eq_ok r pool hrun).1, List.range'_eq_map_range, List.map_map]
    rfl
  · intro hsequential e herror
    obtain ⟨k, hk, hfails, hbefore⟩ :=
      framesOn_eq_error r pool hrange hstop hsequential herror
    refine ⟨_, range.start_le_index hk, range.index_lt_stop hk, hfails, ?_⟩
    intro j hstart hj
    obtain ⟨m, hm, rfl⟩ := FrameRange.exists_index hstart
      (UInt64.lt_trans hj (range.index_lt_stop hk))
    rw [UInt64.lt_iff_toNat_lt, range.toNat_index hm, range.toNat_index hk] at hj
    exact hbefore m (by omega)

/-- Two frames of four, shared where they look alike, on a pool whose jobs finish in reverse. -/
theorem framesOn_renders_each_frame_reversed_pool :
    let r : Renderer :=
      ⟨⟨⟨⟨1, 1⟩, #[⟨200, 0, 0, 128⟩], rfl⟩, []⟩, ⟨⟨2, 1⟩, 2.0, 1.0, 0.5, 4, ⟨1, 2⟩⟩⟩
    let pool : Pool := ⟨fun n => (List.range n).reverse, fun _ => List.reverse_perm _⟩
    let range : FrameRange := ⟨1, 3⟩
    let threading : Threading := ⟨true, some 2, true⟩
    (range.start ≠ range.stop ∧ range.stop ≤ r.schedule.frameCount ∧
      (threading.parallel = true → threading.threads ≠ some 0)) ∧
    ((∃ result, r.framesOn pool range threading = .ok result) ↔
      ∀ i, (1 : FrameIndex) ≤ i → i < 3 → ∃ f, r.frame i = .ok f) ∧
    ∀ frames stats, r.framesOn pool range threading = .ok (frames, stats) →
      frames.map .ok = [r.frame 1, r.frame 2] := by
  intro r pool range threading
  have hrange : range.start ≠ range.stop := by decide
  have hstop : range.stop ≤ r.schedule.frameCount := by decide
  have hthreads : threading.parallel = true → threading.threads ≠ some 0 := by decide
  obtain ⟨hiff, hframes, -⟩ :=
    framesOn_renders_each_frame r pool range threading hrange hstop hthreads
  exact ⟨⟨hrange, hstop, hthreads⟩, hiff, hframes⟩

end Renderer

end HueCycle.Render
