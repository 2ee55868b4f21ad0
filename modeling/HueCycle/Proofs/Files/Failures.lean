/-
HueCycle.Proofs.Files.Failures — a job reports the failure of its first
failing stage, and has written nothing before its last one.

A run checks the settings, reads the source, renders, encodes and writes.
`Settings.Outcome` lists how settings that pass the checks can end, one case
a stage, each with the stages before it done and the files as they were.
`WritesLast` is what the three jobs that write have in common: all they ever
do to the files is one replacement of their destination, so a failure leaves
the destination as it was, as the replacement does.
-/
import Mathlib
import HueCycle.Proofs.Families

namespace HueCycle

open Files Render

/-! ## §1 The family of a failed replacement -/

section Families

variable {fresh : Place → Prop} {fs : FileSystem}

/-- What a failed replacement reports. -/
def Files.Reported (answer : Except Error Unit) : Prop :=
  ∀ e, answer = .error e → e.kind = .encode ∨ e.kind = .other

theorem Files.reported_ok : Reported (.ok ()) := fun _ h => nomatch h

theorem Files.reported_error {e : Error} (h : e.kind = .encode ∨ e.kind = .other) :
    Reported (.error e) := by
  intro e' he
  rwa [← Except.error.inj he]

theorem Files.keeps_reported_giveUp (temporary : Path) {e : Error}
    (h : e.kind = .encode ∨ e.kind = .other) :
    Script.Keeps fresh (fun _ => True) (fun answer _ => Reported answer)
      (giveUp temporary e : Job Unit).run fs :=
  Job.keeps_ask trivial (fun _ _ => trivial) fun _ _ _ =>
    Job.keeps_throw trivial (reported_error h)

theorem Files.keeps_reported_makeParent (path : Path) :
    Script.Keeps fresh (fun _ => True) (fun answer _ => Reported answer)
      (makeParent path).run fs := by
  rw [makeParent]
  split
  · exact Job.keeps_pure trivial reported_ok
  · split
    · exact Job.keeps_pure trivial reported_ok
    · refine Job.keeps_lift (S := fun _ _ => True) ⟨fun _ _ => trivial, fun _ _ _ => trivial⟩ ?_
      intro answer mid _
      split
      · exact Job.keeps_pure trivial reported_ok
      · exact Job.keeps_throw trivial (reported_error (.inr rfl))

/-- **A replacement that fails** reports a fault of encoding or what was attempted. -/
theorem Files.kind_of_replaceFile {path : Path} {content : Bytes} {e : Error} {after : FileSystem}
    (h : (replaceFile path content).run.Ends fresh fs (.error e) after) :
    e.kind = .encode ∨ e.kind = .other := by
  have hkeeps : Script.Keeps fresh (fun _ => True) (fun answer _ => Reported answer)
      (replaceFile path content).run fs := by
    rw [replaceFile]
    refine Job.keeps_bind (keeps_reported_makeParent path) ?_ (fun _ _ hmid => ⟨trivial, hmid⟩)
    intro _ mid _
    refine Job.keeps_ask trivial (fun _ _ => trivial) fun answer mid' _ => ?_
    split
    · exact Job.keeps_throw trivial (reported_error (.inr rfl))
    · refine Job.keeps_ask trivial (fun _ _ => trivial) fun answer mid'' _ => ?_
      split
      · exact keeps_reported_giveUp _ (.inr rfl)
      · refine Job.keeps_ask trivial (fun _ _ => trivial) fun answer last _ => ?_
        split
        · exact keeps_reported_giveUp _ (.inr rfl)
        · refine Job.keeps_ask trivial (fun _ _ => trivial) fun answer after _ => ?_
          split
          · exact keeps_reported_giveUp _ (.inl rfl)
          · exact Job.keeps_pure trivial reported_ok
  exact hkeeps.2 _ _ h e rfl

end Families

/-! ## §2 Jobs that write last -/

namespace Files

/-- Where a script ends is a state of it. -/
theorem Script.shows_of_ends {α : Type} {fresh : Place → Prop} {s : Script α}
    {fs after : FileSystem} {answer : α} (h : s.Ends fresh fs answer after) :
    s.Shows fresh fs after := by
  induction s generalizing fs with
  | done a => exact h.2
  | call c next ih =>
    obtain ⟨b, mid, hanswer, hrest⟩ := h
    exact .inr (.inr ⟨b, mid, hanswer, ih b hrest⟩)

/-- A job whose states are those of one replacement of `path`, and whose failures leave every
place as it was or are failures of that replacement. -/
structure WritesLast {α : Type} (fresh : Place → Prop) (fs : FileSystem) (path : Path)
    (j : Job α) : Prop where
  shows : ∀ state, j.run.Shows fresh fs state →
    state = fs ∨ ∃ file, (replaceFile path file).run.Shows fresh fs state
  fails : ∀ e after, j.run.Ends fresh fs (.error e) after →
    after = fs ∨ ∃ file, (replaceFile path file).run.Ends fresh fs (.error e) after

namespace WritesLast

variable {α β ε : Type} {reader : Bytes → Except ε Raster} {fresh : Place → Prop}
  {fs : FileSystem} {path : Path}

theorem of_bind {x : Except Error α} {f : α → Job β}
    (h : ∀ a, x = .ok a → WritesLast fresh fs path (f a)) :
    WritesLast fresh fs path (Job.of x >>= f) := by
  cases x with
  | ok a =>
    rw [Job.of_ok_bind]
    exact h a rfl
  | error e =>
    rw [Job.of_error_bind]
    exact ⟨fun state hstate => .inl hstate, fun e' after hend => .inl hend.2⟩

theorem read_bind {input : Path} {f : Source → Job β}
    (h : ∀ source, WritesLast fresh fs path (f source)) :
    WritesLast fresh fs path (Source.readWith reader input >>= f) := by
  have hdecoded (file : Bytes) :
      WritesLast fresh fs path (Job.of (Source.decodeFile reader input file) >>= f) :=
    of_bind fun source _ => h source
  constructor
  · rintro state (rfl | hshown | ⟨contents, _, ⟨rfl, -⟩, hrest⟩)
    · exact .inl rfl
    · exact hshown.elim
    · cases contents with
      | error fault => exact .inl hrest
      | ok file => exact (hdecoded file).shows state hrest
  · intro e after hend
    rcases Source.ends_read_bind.mp hend with ⟨fault, -, rfl⟩ | ⟨file, -, hrest⟩
    · exact .inl rfl
    · exact (hdecoded file).fails e after hrest

theorem replace (file : Bytes) : WritesLast fresh fs path (replaceFile path file) :=
  ⟨fun _ h => .inr ⟨file, h⟩, fun _ _ h => .inr ⟨file, h⟩⟩

theorem map {j : Job α} (h : WritesLast fresh fs path j) (g : α → β) :
    WritesLast fresh fs path (j >>= fun a => pure (g a)) := by
  constructor
  · intro state hstate
    rcases Script.shows_bind hstate with hfirst | ⟨answer, mid, hends, hlast⟩
    · exact h.shows state hfirst
    · obtain rfl : state = mid := by
        cases answer with
        | ok a => exact hlast
        | error e => exact hlast
      exact h.shows state (Script.shows_of_ends hends)
  · intro e after hend
    obtain ⟨first, hfirst, herror⟩ := Job.ends_map.mp hend
    cases first with
    | ok a => cases herror
    | error e' =>
      obtain rfl := Except.error.inj herror
      exact h.fails e after hfirst

/-- After a failure every place is as it was, or is a directory that was missing above the
path. -/
theorem untouched {j : Job α} (h : WritesLast fresh fs path j) {e : Error} {after : FileSystem}
    (hend : j.run.Ends fresh fs (.error e) after) (place : Place) :
    Untouched fs path after place := by
  rcases h.fails e after hend with rfl | ⟨file, hreplace⟩
  · exact .inl rfl
  · have hover : Grown fs path none after := (keeps_replaceFile fresh fs path file).2 _ _ hreplace
    exact hover.entry place (by simp)

end WritesLast

end Files

variable {ε : Type} {reader : Bytes → Except ε Raster} {fresh : Place → Prop} {fs : FileSystem}

theorem Animation.writesLast_save (a : Animation) (path : Path) :
    WritesLast fresh fs path (a.save path) :=
  .of_bind fun _ _ => .of_bind fun file _ => .replace file

theorem Settings.writesLast_runOn (pool : Pool) (settings : Settings) (threading : Threading) :
    WritesLast fresh fs settings.output (settings.runOn reader pool threading) :=
  .of_bind fun _ _ => .read_bind fun _ => .of_bind fun made _ =>
    (made.1.writesLast_save settings.output).map _

theorem Settings.writesLast_preview (settings : Settings) (i : FrameIndex) (out : Path) :
    WritesLast fresh fs out (settings.previewWith reader i out) :=
  .of_bind fun _ _ => .read_bind fun _ => .of_bind fun _ _ => .of_bind fun file _ =>
    (WritesLast.replace file).map _

/-! ## §3 The stages of a run -/

/-- How a run of settings that pass the checks can end: the first stage that fails reports, and
if none does, the run ends as the replacement of the output. -/
inductive Settings.Outcome {ε : Type} (reader : Bytes → Except ε Raster) (fresh : Place → Prop)
    (fs : FileSystem) (pool : Pool) (settings : Settings) (threading : Threading) :
    Except Error Report → FileSystem → Prop where
  | unreadable (fault : FileSystem.ReadFault) :
    Outcome reader fresh fs pool settings threading
      (.error (.decode (.cannotRead settings.input fault.reason))) fs
  | undecodable {original : Bytes} {fault : DecodeFault} :
    fs.read settings.input = .ok original →
    Source.decodeFile reader settings.input original = .error (.decode fault) →
    Outcome reader fresh fs pool settings threading (.error (.decode fault)) fs
  | refused {original : Bytes} {source : Source} {fault : ValidationFault} :
    fs.read settings.input = .ok original →
    Source.decodeFile reader settings.input original = .ok source →
    animateOn pool source settings threading = .error (.validation fault) →
    Outcome reader fresh fs pool settings threading (.error (.validation fault)) fs
  | written {original : Bytes} {source : Source} {a : Animation} {stats : Stats} {file : Bytes}
      {written : Except Error Unit} {after : FileSystem} :
    fs.read settings.input = .ok original →
    Source.decodeFile reader settings.input original = .ok source →
    animateOn pool source settings threading = .ok (a, stats) →
    a.encode = .ok file →
    (replaceFile settings.output file).run.Ends fresh fs written after →
    Outcome reader fresh fs pool settings threading
      (written.map fun _ => ⟨settings.output, a.canvas, stats⟩) after

/-- Saving an animation with a file is replacing it. -/
theorem Animation.save_eq {a : Animation} {path : Path} {file : Bytes}
    (hcontainer : Container.ofPath path = .ok .apng) (hfile : a.encode = .ok file) :
    a.save path = replaceFile path file := by
  rw [save, hcontainer, Job.of_ok_bind]
  show (Job.of a.encode >>= _) = _
  rw [hfile, Job.of_ok_bind]

theorem Settings.ends_runOn_iff {pool : Pool} {settings : Settings} {threading : Threading}
    (hvalid : settings.validate = .ok ()) {answer : Except Error Report} {after : FileSystem} :
    (settings.runOn reader pool threading).run.Ends fresh fs answer after ↔
      Outcome reader fresh fs pool settings threading answer after := by
  obtain ⟨-, ⟨container, hcontainer⟩, hmode⟩ := Settings.validate_eq_ok_iff.mp hvalid
  cases container
  have hstart : settings.runOn reader pool threading =
      Source.readWith reader settings.input >>= fun source =>
        Job.of (animateOn pool source settings threading) >>= fun made =>
          made.1.save settings.output >>= fun _ =>
            pure ⟨settings.output, made.1.canvas, made.2⟩ := by
    rw [runOn, hvalid]
    rfl
  rw [hstart, Source.ends_read_bind]
  constructor
  · rintro (⟨fault, rfl, rfl⟩ | ⟨original, hread, hrest⟩)
    · exact .unreadable fault
    · cases hdecode : Source.decodeFile reader settings.input original with
      | error e =>
        rw [hdecode, Job.of_error_bind] at hrest
        obtain ⟨rfl, rfl⟩ := hrest
        obtain ⟨fault, rfl⟩ := Source.decodeFile_eq_error hdecode
        exact .undecodable hread hdecode
      | ok source =>
        rw [hdecode, Job.of_ok_bind] at hrest
        cases hanimate : animateOn pool source settings threading with
        | error e =>
          rw [hanimate, Job.of_error_bind] at hrest
          obtain ⟨rfl, rfl⟩ := hrest
          obtain ⟨hpixels, -⟩ := Source.shape_of_decodeFile hdecode
          obtain ⟨fault, rfl⟩ := animateOn_eq_error hvalid hpixels hanimate
          exact .refused hread hdecode hanimate
        | ok made =>
          obtain ⟨a, stats⟩ := made
          obtain ⟨-, hexact⟩ := Source.shape_of_decodeFile hdecode
          have hfile := encode_of_animateOn hmode hexact hanimate
          rw [hanimate, Job.of_ok_bind, Animation.save_eq hcontainer hfile, Job.ends_map] at hrest
          obtain ⟨written, hwritten, rfl⟩ := hrest
          exact .written hread hdecode hanimate hfile hwritten
  · intro h
    cases h with
    | unreadable fault => exact .inl ⟨fault, rfl, rfl⟩
    | undecodable hread hdecode =>
      refine .inr ⟨_, hread, ?_⟩
      rw [hdecode, Job.of_error_bind]
      exact ⟨rfl, rfl⟩
    | refused hread hdecode hanimate =>
      refine .inr ⟨_, hread, ?_⟩
      rw [hdecode, Job.of_ok_bind, hanimate, Job.of_error_bind]
      exact ⟨rfl, rfl⟩
    | written hread hdecode hanimate hfile hwritten =>
      refine .inr ⟨_, hread, ?_⟩
      rw [hdecode, Job.of_ok_bind, hanimate, Job.of_ok_bind, Animation.save_eq hcontainer hfile,
        Job.ends_map]
      exact ⟨_, hwritten, rfl⟩

/-- The family of the failure says which stage has failed. -/
theorem Settings.Outcome.kind {pool : Pool} {settings : Settings} {threading : Threading}
    {e : Error} {after : FileSystem}
    (h : Outcome reader fresh fs pool settings threading (.error e) after) :
    e.kind = .decode ∨ e.kind = .validation ∨ e.kind = .encode ∨ e.kind = .other := by
  generalize hanswer : (Except.error e : Except Error Report) = answer at h
  cases h with
  | unreadable fault =>
    rw [Except.error.inj hanswer]
    exact .inl rfl
  | undecodable _ _ =>
    rw [Except.error.inj hanswer]
    exact .inl rfl
  | refused _ _ _ =>
    rw [Except.error.inj hanswer]
    exact .inr (.inl rfl)
  | @written _ _ _ _ _ written _ _ _ _ _ hwritten =>
    cases written with
    | ok u => cases hanswer
    | error e' =>
      rw [Except.error.inj hanswer]
      exact .inr (.inr (Files.kind_of_replaceFile hwritten))

/-! ## §4 What a failed job leaves -/

/-- A job that writes last and after a failure leaves every place as it was, up to directories
that were missing above its path. -/
structure Files.FailsClean {α : Type} (fresh : Place → Prop) (fs : FileSystem) (path : Path)
    (j : Job α) : Prop extends WritesLast fresh fs path j where
  untouched : ∀ e after, j.run.Ends fresh fs (.error e) after →
    ∀ place, Untouched fs path after place

theorem Files.WritesLast.failsClean {α : Type} {path : Path} {j : Job α}
    (h : WritesLast fresh fs path j) : FailsClean fresh fs path j :=
  ⟨h, fun _ _ hend place => h.untouched hend place⟩

/-- A run of settings that do not pass the checks ends with what the checks report. -/
theorem Settings.ends_runOn_of_invalid {pool : Pool} {settings : Settings} {threading : Threading}
    {e : Error} (hinvalid : settings.validate = .error e) {answer : Except Error Report}
    {after : FileSystem} :
    (settings.runOn reader pool threading).run.Ends fresh fs answer after ↔
      answer = .error e ∧ after = fs := by
  rw [runOn, hinvalid, Job.of_error_bind]
  exact Iff.rfl

/-- **The first stage that fails reports, and no later one has acted.** Settings that do not pass
the checks end the run with the checks' own report, whatever else is wrong; after settings that
pass them, no failure is of that family, and the run ends as its first failing stage says. What
a run, a preview and a save do to the files is one replacement of the destination, in the last
stage: a failure before it leaves the file system as it was, and a failure of it leaves every
place as it was, up to directories that were missing above the destination. -/
theorem Settings.runOn_reports_first_failure (reader : Bytes → Except ε Raster)
    (fresh : Place → Prop) (fs : FileSystem) (pool : Pool) (settings : Settings)
    (threading : Threading) :
    (∀ e, settings.validate = .error e → e.kind = .config ∧ ∀ answer after,
      (settings.runOn reader pool threading).run.Ends fresh fs answer after ↔
        answer = .error e ∧ after = fs) ∧
    (settings.validate = .ok () → ∀ answer after,
      ((settings.runOn reader pool threading).run.Ends fresh fs answer after ↔
        Outcome reader fresh fs pool settings threading answer after) ∧
      ∀ e, answer = .error e →
        (settings.runOn reader pool threading).run.Ends fresh fs answer after → e.kind ≠ .config) ∧
    (∀ path file e after, (replaceFile path file).run.Ends fresh fs (.error e) after →
      e.kind = .encode ∨ e.kind = .other) ∧
    FailsClean fresh fs settings.output (settings.runOn reader pool threading) ∧
    (∀ i out, FailsClean fresh fs out (settings.previewWith reader i out)) ∧
    (∀ (a : Animation) path, FailsClean fresh fs path (a.save path)) := by
  refine ⟨fun e hinvalid => ⟨kind_of_validate hinvalid, fun _ _ =>
      ends_runOn_of_invalid hinvalid⟩, ?_, fun _ _ _ _ h => kind_of_replaceFile h,
    (writesLast_runOn pool settings threading).failsClean,
    fun i out => (writesLast_preview settings i out).failsClean,
    fun a path => (a.writesLast_save path).failsClean⟩
  intro hvalid answer after
  refine ⟨ends_runOn_iff hvalid, ?_⟩
  rintro e rfl hend
  rcases ((ends_runOn_iff hvalid).mp hend).kind with h | h | h | h <;> rw [h] <;> decide

/-- Settings that pass the checks with a missing input, and settings with a rate of zero as well:
the input is reported in the first case only, and in neither is anything made. -/
theorem Settings.runOn_reports_first_failure_missing_input :
    let path : Path := ⟨[0x6F, 0x2E, 0x70, 0x6E, 0x67]⟩
    let valid : Settings := ⟨path, path, 1, 1.0, 0.0, 0.0, .infinite⟩
    let invalid : Settings := ⟨path, path, 0, 1.0, 0.0, 0.0, .infinite⟩
    let fs : FileSystem := ⟨[], []⟩
    let threading : Threading := ⟨true, some 0, true⟩
    valid.validate = .ok () ∧
    (∀ e after, (valid.runOn Png.reader Pool.inOrder threading).run.Ends (fun _ => True) fs
      (.error e) after → e.kind = .decode ∧ after = fs) ∧
    (valid.runOn Png.reader Pool.inOrder threading).run.run fs =
      (.error (.decode (.cannotRead path .notFound)), fs) ∧
    ∃ e, invalid.validate = .error e ∧ e.kind = .config ∧
      (invalid.runOn Png.reader Pool.inOrder threading).run.run fs = (.error e, fs) := by
  intro path valid invalid fs threading
  have hvalid : valid.validate = .ok () := validate_eq_ok_iff.mpr
    ⟨⟨_, schedule_one_frame path path .infinite⟩, ⟨_, Container.ofPath_png⟩, by decide⟩
  have hread (original : Bytes) : fs.read path ≠ .ok original := nofun
  refine ⟨hvalid, fun e after hend => ?_, ?_, ?_⟩
  · have houtcome := (((runOn_reports_first_failure Png.reader (fun _ => True) fs Pool.inOrder
      valid threading).2.1 hvalid _ after).1).mp hend
    generalize hanswer : (Except.error e : Except Error Report) = answer at houtcome
    cases houtcome with
    | unreadable fault => exact ⟨by rw [Except.error.inj hanswer]; rfl, rfl⟩
    | undecodable h => exact absurd h (hread _)
    | refused h => exact absurd h (hread _)
    | written h => exact absurd h (hread _)
  · rw [runOn, hvalid]
    rfl
  · obtain ⟨e, hinvalid⟩ : ∃ e, invalid.validate = .error e := ⟨_, rfl⟩
    obtain ⟨hkind, hends⟩ := (runOn_reports_first_failure Png.reader (fun _ => True) fs
      Pool.inOrder invalid threading).1 e hinvalid
    have hrun := Script.ends_run (invalid.runOn Png.reader Pool.inOrder threading).run fs
    obtain ⟨hanswer, hafter⟩ := (hends _ _).mp hrun
    exact ⟨e, hinvalid, hkind, Prod.ext hanswer hafter⟩

/-- A path that goes up from a missing directory of its own name: the replacement makes that
directory and then cannot take its place. -/
theorem Files.replaceFile_above_itself (content : Bytes) :
    (replaceFile ⟨[0x62, 0x2E, 0x70, 0x6E, 0x67, 0x2F, 0x2E, 0x2E, 0x2F, 0x62, 0x2E, 0x70, 0x6E,
        0x67]⟩ content).run.run ⟨[], []⟩ =
      (.error (.encode (.cannotReplace ⟨[0x62, 0x2E, 0x70, 0x6E, 0x67, 0x2F, 0x2E, 0x2E, 0x2F,
        0x62, 0x2E, 0x70, 0x6E, 0x67]⟩ .isDirectory)),
        ⟨[([[0x62, 0x2E, 0x70, 0x6E, 0x67]], .directory)], []⟩) := rfl

/-- A destination that goes up from a missing directory of its own name: the save fails, and the
destination, which led to nothing, leads to a directory. -/
theorem Animation.save_makes_its_own_path :
    let frame : Image := ⟨⟨⟨1, 1⟩, #[⟨200, 0, 0, 128⟩], rfl⟩, []⟩
    let path : Path :=
      ⟨[0x62, 0x2E, 0x70, 0x6E, 0x67, 0x2F, 0x2E, 0x2E, 0x2F, 0x62, 0x2E, 0x70, 0x6E, 0x67]⟩
    let fs : FileSystem := ⟨[], []⟩
    ∃ a : Animation, Animation.make [frame] ⟨1, 10⟩ .infinite = .ok a ∧
      (a.save path).run.run fs =
        (.error (.encode (.cannotReplace path .isDirectory)),
          ⟨[([[0x62, 0x2E, 0x70, 0x6E, 0x67]], .directory)], []⟩) ∧
      fs.read path = .error (.cannotOpen .notFound) ∧
      FileSystem.read ((a.save path).run.run fs).2 path = .error (.cannotRead .isDirectory) := by
  intro frame path fs
  have hcanvas : ∀ f ∈ [frame], f.canvas = (⟨1, 1⟩ : Canvas) := by
    intro f hf
    rw [List.mem_singleton.mp hf]
  have hden : (⟨1, 10⟩ : FrameDelay).den ≠ 0 := by decide
  obtain ⟨a, ha⟩ := Animation.make_isOk .infinite (List.cons_ne_nil _ _) hcanvas (by decide) hden
  obtain ⟨hframes, -, hmode⟩ := Animation.make_eq_ok ha
  have hlength : a.length < 0x100000000 := by
    rw [Animation.length, hframes]
    decide
  have hfile := Animation.encode_eq_ok (by rw [hmode]; decide) hlength
    (by rw [hframes]; simp [frame])
  have hcontainer : Container.ofPath path = .ok .apng := by
    have htext : Path.textExtension? path = some "png" := by decide +kernel
    rw [Container.ofPath, htext]
    rfl
  have hsaved := Files.replaceFile_above_itself (a.movie a.loopMode.count).encode
  rw [← Animation.save_eq hcontainer hfile] at hsaved
  refine ⟨a, ha, hsaved, rfl, ?_⟩
  rw [hsaved]
  rfl

end HueCycle
