/-
HueCycle.Proofs.Families — the family of the error that a stage reports.

Checking settings gives errors of the configuration, rendering frames gives
faults of validation, putting a file in place gives faults of encoding or
of what was attempted. Errors of other families that a stage could give by
its type are ruled out here: a rate of whole frames has a greatest common
divisor to divide by, every slot of a plan is served, and rendered frames
fit together.
-/
import Mathlib
import HueCycle.Proofs.Acceptance
import HueCycle.Proofs.Files.Replacement
import HueCycle.Proofs.Timing.AnyRate

namespace HueCycle

open Files Render

/-! ## §1 Checking settings -/

/-- **The schedule of settings** fails for their timing. -/
theorem Settings.schedule_eq_error {settings : Settings} {e : Error}
    (h : settings.schedule = .error e) : ∃ fault, fault.isTiming = true ∧ e = .config fault := by
  by_cases hrate : settings.frameRate = 0
  · rw [Settings.schedule, Settings.rate, if_pos hrate] at h
    exact ⟨_, rfl, (Except.error.inj h).symm⟩
  · rw [Settings.schedule_eq hrate] at h
    rcases Schedule.plan_eq_error h with hfault | ⟨-, hnone⟩
    · exact hfault
    · exact absurd (congrArg FrameRate.den hnone) (by decide : (1 : UInt32) ≠ 0)

theorem Container.kind_of_ofPath {path : Path} {e : Error} (h : ofPath path = .error e) :
    e.kind = .config := by
  unfold ofPath at h
  split at h
  · cases h
    rfl
  · split at h
    · cases h
    · cases h
      rfl

/-- **Checking settings** gives errors of the configuration. -/
theorem Settings.kind_of_validate {settings : Settings} {e : Error}
    (h : settings.validate = .error e) : e.kind = .config := by
  unfold validate at h
  rcases bind_eq_error.mp h with hschedule | ⟨schedule, -, hlater⟩
  · obtain ⟨fault, -, rfl⟩ := Settings.schedule_eq_error hschedule
    rfl
  · rcases bind_eq_error.mp hlater with hcontainer | ⟨container, -, hlast⟩
    · exact Container.kind_of_ofPath hcontainer
    · split at hlast
      · cases hlast
        rfl
      · cases hlast

/-! ## §2 Reading a source -/

section Reading

variable {ε : Type} {reader : Bytes → Except ε Raster}

/-- **Decoding octets**, with any reader, gives a fault of decoding, or a source with pixels and
nothing behind them. -/
theorem Source.decodeWith_cases (reader : Bytes → Except ε Raster) (file : Bytes) :
    (∃ fault, decodeWith reader file = .error (.decode fault)) ∨
      ∃ source, decodeWith reader file = .ok source ∧ source.canvas.hasPixels = true ∧
        source.image.surplus = [] := by
  unfold decodeWith
  split
  · exact .inl ⟨_, rfl⟩
  · unfold ofImage
    split
    · rename_i hpixels
      exact .inr ⟨_, rfl, hpixels, rfl⟩
    · exact .inl ⟨_, rfl⟩

/-- The same of the contents of a file: it fails with a fault of decoding, -/
theorem Source.decodeFile_eq_error {path : Path} {file : Bytes} {e : Error}
    (h : decodeFile reader path file = .error e) : ∃ fault, e = .decode fault := by
  unfold decodeFile at h
  rcases decodeWith_cases reader file with ⟨fault, hfault⟩ | ⟨source, hsource, -⟩
  · rw [hfault] at h
    exact ⟨_, (Except.error.inj h).symm⟩
  · rw [hsource] at h
    cases h

/-- and what it gives has pixels and nothing behind them. -/
theorem Source.shape_of_decodeFile {path : Path} {file : Bytes} {source : Source}
    (h : decodeFile reader path file = .ok source) :
    source.canvas.hasPixels = true ∧ source.image.surplus = [] := by
  obtain ⟨plain, hplain, rfl⟩ := Source.decode_of_decodeFile h
  rcases decodeWith_cases reader file with ⟨fault, hfault⟩ | ⟨source, hsource, hshape⟩
  · cases hfault.symm.trans hplain
  · obtain rfl := Except.ok.inj (hsource.symm.trans hplain)
    exact hshape

end Reading

/-! ## §3 Rendering -/

/-- The error of a pool is one of its jobs'. -/
theorem Render.Pool.run_eq_error {ε α : Type} {pool : Pool} {jobs : List (Unit → Except ε α)}
    {e : ε} (h : pool.run jobs = .error e) : ∃ job ∈ jobs, job () = .error e := by
  have hanswers : (jobs.map fun job => Task.spawn job).map Task.get = jobs.map (· ()) := by
    rw [List.map_map]
    rfl
  rw [run, hanswers, collect] at h
  split at h
  · rename_i e' hfound
    obtain rfl := Except.error.inj h
    obtain ⟨i, -, hi⟩ := List.exists_of_findSome?_eq_some hfound
    obtain ⟨answer, hanswer, herror⟩ := Option.bind_eq_some_iff.mp hi
    obtain ⟨job, hjob, rfl⟩ := List.mem_map.mp (List.mem_of_getElem? hanswer)
    refine ⟨job, hjob, ?_⟩
    cases hresult : job () with
    | ok v =>
      rw [hresult] at herror
      cases herror
    | error e'' =>
      rw [hresult] at herror
      rw [Option.some.inj herror]
  · cases h

namespace Render.Renderer

variable (r : Renderer)

theorem paint_eq_error {c : Cue} {e : Error} (h : r.paint c = .error e) :
    ∃ fault, e = .validation fault := by
  rw [paint, Image.recolorChecked] at h
  rcases bind_eq_error.mp h with hcheck | ⟨u, -, hlast⟩
  · unfold Image.checkRecolor at hcheck
    split at hcheck
    · exact ⟨_, (Except.error.inj hcheck).symm⟩
    · split at hcheck
      · exact ⟨_, (Except.error.inj hcheck).symm⟩
      · cases hcheck
  · cases hlast

theorem paintUnique_eq_error {threading : Threading} {pool : Pool} {cues : List Cue} {plan : Plan}
    {e : Error} (h : r.paintUnique threading pool cues plan = .error e) :
    ∃ fault, e = .validation fault := by
  have hjob (jobs : List Cue) {job : Unit → Except Error Image}
      (hjob : job ∈ jobs.map fun c => fun _ => r.paint c) (hfails : job () = .error e) :
      ∃ fault, e = .validation fault := by
    obtain ⟨c, -, rfl⟩ := List.mem_map.mp hjob
    exact r.paint_eq_error hfails
  unfold paintUnique at h
  dsimp only at h
  split at h
  · split at h
    · exact ⟨_, (Except.error.inj h).symm⟩
    · obtain ⟨job, hmem, hfails⟩ := Pool.run_eq_error h
      exact hjob _ hmem hfails
  · obtain ⟨before, job, after, hsplit, hfails, -⟩ := runJobs_eq_error h
    exact hjob _ (hsplit ▸ List.mem_append_right before List.mem_cons_self) hfails

/-- **Rendering a range** gives faults of validation. -/
theorem framesOn_eq_error_validation {pool : Pool} {range : FrameRange} {threading : Threading}
    {e : Error} (h : r.framesOn pool range threading = .error e) :
    ∃ fault, e = .validation fault := by
  by_cases hrange : range.start = range.stop
  · have hempty : range.isEmpty = true := by simp [FrameRange.isEmpty, hrange]
    rw [framesOn, hempty] at h
    exact ⟨_, (Except.error.inj h).symm⟩
  · by_cases hstop : r.schedule.frameCount < range.stop
    · have hempty : range.isEmpty = false := by simp [FrameRange.isEmpty, hrange]
      rw [framesOn, hempty, if_pos hstop] at h
      exact ⟨_, (Except.error.inj h).symm⟩
    · cases hpaint : r.paintUnique threading pool (range.indices.map r.schedule.cue)
          (r.planOf range threading.elide) with
      | error e' =>
        rw [framesOn_of_paintUnique_error r pool hrange (UInt64.not_lt.mp hstop) hpaint] at h
        obtain rfl := Except.error.inj h
        exact r.paintUnique_eq_error hpaint
      | ok images =>
        have hthreads : threading.parallel = true → threading.threads ≠ some 0 := by
          intro hparallel hnone
          unfold paintUnique at hpaint
          rw [hparallel, hnone] at hpaint
          cases hpaint
        obtain ⟨frames, hrun, -⟩ :=
          framesOn_of_paintUnique_ok r pool hrange (UInt64.not_lt.mp hstop) hthreads hpaint
        rw [hrun] at h
        cases h

end Render.Renderer

/-- **Animating a schedule** fails where its frames cannot be rendered: rendered frames always make
an animation. -/
theorem animateOn_eq_error_of_schedule {settings : Settings} {schedule : Schedule}
    (hschedule : settings.schedule = .ok schedule) {pool : Pool} {source : Source}
    {threading : Threading} (hpixels : source.canvas.hasPixels = true) {e : Error}
    (h : animateOn pool source settings threading = .error e) : ∃ fault, e = .validation fault := by
  cases hframes : (source.renderer schedule).framesOn pool schedule.range threading with
  | ok result =>
    have hcount := Settings.frameCount_ne_zero hschedule
    obtain ⟨a, hmade⟩ := animateOn_of_framesOn hschedule hcount hpixels hframes
    rw [hmade] at h
    cases h
  | error e' =>
    unfold animateOn at h
    rw [hschedule] at h
    change ((source.renderer schedule).framesOn pool schedule.range threading >>= _) = _ at h
    rw [hframes] at h
    obtain rfl : e' = e := Except.error.inj h
    exact (source.renderer schedule).framesOn_eq_error_validation hframes

/-- **Animating settings that pass the checks** gives faults of validation. -/
theorem animateOn_eq_error {settings : Settings} (hvalid : settings.validate = .ok ()) {pool : Pool}
    {source : Source} {threading : Threading} (hpixels : source.canvas.hasPixels = true) {e : Error}
    (h : animateOn pool source settings threading = .error e) : ∃ fault, e = .validation fault := by
  obtain ⟨⟨schedule, hschedule⟩, -, -⟩ := Settings.validate_eq_ok_iff.mp hvalid
  exact animateOn_eq_error_of_schedule hschedule hpixels h

/-- **What stops an animation**: the timing of the settings, or a frame that cannot be rendered. -/
theorem animateOn_eq_error_family {pool : Pool} {source : Source} {settings : Settings}
    {threading : Threading} (hpixels : source.canvas.hasPixels = true) {e : Error}
    (h : animateOn pool source settings threading = .error e) :
    (∃ fault, fault.isTiming = true ∧ e = .config fault) ∨ ∃ fault, e = .validation fault := by
  cases hschedule : settings.schedule with
  | ok schedule => exact .inr (animateOn_eq_error_of_schedule hschedule hpixels h)
  | error e' =>
    unfold animateOn at h
    rw [hschedule] at h
    obtain rfl : e' = e := Except.error.inj h
    exact .inl (Settings.schedule_eq_error hschedule)

end HueCycle
