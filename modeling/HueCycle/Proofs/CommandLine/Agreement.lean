/-
HueCycle.Proofs.CommandLine.Agreement — the subcommands agree with each
other.

All of them start from the same settings, so for the same options the table,
the preview of a frame and the animation come from one schedule and one
source. An animation that was made has shown that both are there: then the
table can be printed and has as many lines as the animation has frames, and a
preview is the frame of its position, or fails if there is none.
-/
import Mathlib
import HueCycle.Proofs.Acceptance
import HueCycle.Proofs.CommandLine.Lines
import HueCycle.Proofs.CommandLine.Overridden
import HueCycle.Proofs.Files.Directories
import HueCycle.Proofs.Files.Preview
import HueCycle.Proofs.Timing.FrameRange

namespace HueCycle

open Files Render

/-! ## §1 Lines of the table -/

section Table

theorem not_mem_digits (n : Nat) : '\n' ∉ Decimal.digits n := fun h =>
  absurd (Json.allDigits_digits n _ h) (by decide)

/-- A number with a fixed number of places stays on its line. -/
theorem Decimal.not_mem_fixed (places : Nat) (x : Float) : '\n' ∉ (fixed places x).toList := by
  have hzeros (n : Nat) : '\n' ∉ zeros n := fun h => absurd (List.eq_of_mem_replicate h) (by decide)
  have hfull (n : Numeral) : '\n' ∉ positionalText false n := by
    have hdigits := not_mem_digits n.significand
    have htake (k : Nat) : '\n' ∉ (digits n.significand).take k :=
      fun h => hdigits (List.mem_of_mem_take h)
    have hdrop (k : Nat) : '\n' ∉ (digits n.significand).drop k :=
      fun h => hdigits (List.mem_of_mem_drop h)
    unfold positionalText
    split
    · simp [hdigits, hzeros]
    · dsimp only
      split <;> simp [hdigits, hzeros, htake, hdrop]
  unfold fixed
  split
  · rename_i p _
    rw [String.toList_ofList]
    split <;> simp [hfull]
  · rename_i hparts
    rw [Style.text, Style.chars, hparts, String.toList_ofList]
    dsimp only
    split
    · decide
    · split <;> decide

namespace CommandLine

/-- A table of frames: its heading, and then one line for each position in order. -/
structure Tabulates (frames : Nat) (out : List String) : Prop where
  lines : ∃ lines, out = "frame elapsed_s hue brightness" :: lines ∧ lines.length = frames ∧
    ∀ (i : Nat) line, lines[i]? = some line → ∃ rest, line = toString i ++ " " ++ rest
  unbroken : ∀ line ∈ out, '\n' ∉ line.toList

theorem scheduleLine_eq (cue : Cue) :
    ∃ rest, scheduleLine cue = toString cue.index.toNat ++ " " ++ rest ∧ '\n' ∉ rest.toList := by
  refine ⟨Decimal.fixed 6 cue.elapsed ++ (" " ++ (Decimal.fixed 6 cue.hue ++
    (" " ++ Decimal.fixed 6 cue.brightness))), ?_, ?_⟩
  · simp only [scheduleLine, toString, String.append_assoc]
  · simp [String.toList_append, Decimal.not_mem_fixed]

/-- **The table of a schedule has one line for each of its frames.** -/
theorem tabulates_scheduleTable (plan : Schedule) :
    Tabulates plan.frameCount.toNat (scheduleTable plan) := by
  have hlength : plan.range.length = plan.frameCount.toNat := Nat.sub_zero _
  have hcues : plan.cues = (List.range plan.frameCount.toNat).map
      fun k => plan.cue (UInt64.ofNat (0 + k)) := by
    rw [Schedule.cues, FrameRange.indices_eq, hlength, List.map_map]
    rfl
  refine ⟨⟨plan.cues.map scheduleLine, rfl, by rw [hcues]; simp, ?_⟩, ?_⟩
  · intro i line hline
    rw [hcues, List.map_map, List.getElem?_map, Option.map_eq_some_iff] at hline
    obtain ⟨k, hk, rfl⟩ := hline
    obtain ⟨hi, rfl⟩ := List.getElem?_eq_some_iff.mp hk
    rw [List.length_range] at hi
    obtain ⟨rest, hrest, -⟩ := scheduleLine_eq (plan.cue (UInt64.ofNat (0 + i)))
    have hindex : (plan.cue (UInt64.ofNat (0 + i))).index.toNat = i :=
      (plan.range.toNat_index (hlength ▸ hi)).trans (Nat.zero_add i)
    rw [hindex] at hrest
    rw [List.getElem_range]
    exact ⟨rest, hrest⟩
  · intro line hline
    rw [scheduleTable, List.mem_cons, List.mem_map] at hline
    rcases hline with rfl | ⟨cue, -, rfl⟩
    · decide
    · obtain ⟨rest, hrest, hunbroken⟩ := scheduleLine_eq cue
      have hnumber : '\n' ∉ Nat.toDigits 10 cue.index.toNat := not_mem_digits _
      rw [hrest]
      simp [String.toList_append, hunbroken, hnumber]

end CommandLine

end Table

/-! ## §2 What the subcommands show -/

namespace CommandLine

variable {ε : Type} {reader : Bytes → Except ε Raster} {given given' : List (Key × Value)}
  {fs : FileSystem} {settings : Settings} {schedule : Schedule} {source : Source} {original : Bytes}

/-- Some file can be put at a path. -/
def Writable (fs : FileSystem) (out : Path) : Prop :=
  ∃ content after, (replaceFile out content).run.run fs = (.ok (), after)

/-- What can be put at a path does not depend on its contents, and then is there. -/
theorem Writable.replace {out : Path} (h : Writable fs out) (file : Bytes) :
    ∃ after, (replaceFile out file).run.run fs = (.ok (), after) ∧ after.read out = .ok file := by
  obtain ⟨content, after, hcontent⟩ := h
  have hanswer := ((alike_replaceFile out content file).run (.refl fs)).1
  rw [hcontent] at hanswer
  generalize hrun : (replaceFile out file).run.run fs = ended at hanswer
  have hends := Script.ends_run (replaceFile out file).run fs
  rw [hrun, hanswer] at hends
  have hover : Replaced fs out file ended.2 := (keeps_replaceFile _ fs out file).2 _ _ hends
  exact ⟨ended.2, Prod.ext hanswer rfl, hover.read⟩

/-- The table is that of the schedule. -/
theorem run_schedule (hschedule : settings.schedule = .ok schedule) :
    (performWith reader .schedule given settings).run.run fs =
      (.ok ⟨scheduleTable schedule, []⟩, fs) := by
  rw [performWith, hschedule]
  rfl

/-- Asking for a frame ends as its preview does. -/
theorem run_frame_eq (fs : FileSystem) (settings : Settings) {i : Nat}
    (hindex : wholeOf given .frame = some i) {out : Path}
    (hout : pathOf given .out = some out) :
    ∃ (context : Error → Error) (printed : Printed),
      (performWith reader .frame given settings).run.run fs =
        (((((settings.previewWith reader (UInt64.ofNat i) out).run.run fs).1.mapError context).map
          fun _ => printed), ((settings.previewWith reader (UInt64.ofNat i) out).run.run fs).2) := by
  refine ⟨fun e => .noted s!"render frame {i} to '{out.text}'" (e.message :: e.causes),
    ⟨[], [s!"wrote {out.text}"]⟩, ?_⟩
  rw [performWith, hindex, hout, Option.getD_some, Option.getD_some]
  refine (Job.run_map _ _ fs).trans ?_
  rw [run_withContext]

/-- A frame beyond the schedule is refused, -/
theorem run_frame_outside (hschedule : settings.schedule = .ok schedule)
    (hread : fs.read settings.input = .ok original)
    (hdecode : Source.decodeFile reader settings.input original = .ok source) {i : Nat}
    (hindex : wholeOf given .frame = some i) (hi : i < 2 ^ 64)
    (hbeyond : schedule.frameCount.toNat ≤ i) {out : Path}
    (hout : pathOf given .out = some out) :
    ∃ e, (performWith reader .frame given settings).run.run fs = (.error e, fs) := by
  have hrefused := Renderer.frame_eq_error (r := source.renderer schedule) (i := UInt64.ofNat i)
    (by rwa [UInt64.le_iff_toNat_le, UInt64.toNat_ofNat_of_lt' hi])
  have hpreview : (settings.previewWith reader (UInt64.ofNat i) out).run.run fs =
      (.error (.validation (.frameOutside (UInt64.ofNat i) schedule.frameCount)), fs) := by
    rw [Settings.preview_eq hschedule, Source.run_read_bind _ hread hdecode, hrefused,
      Job.of_error_bind]
    rfl
  obtain ⟨context, printed, hrun⟩ := run_frame_eq fs settings hindex hout
  rw [hpreview] at hrun
  exact ⟨_, hrun⟩

/-- and any other is written. -/
theorem run_frame {pool : Pool} {threading : Threading} {a : Animation} {stats : Stats}
    {rendered : Settings} (hschedule : settings.schedule = .ok schedule)
    (hread : fs.read settings.input = .ok original)
    (hdecode : Source.decodeFile reader settings.input original = .ok source)
    (hanimate : animateOn pool source rendered threading = .ok (a, stats))
    (hsame : rendered.schedule = .ok schedule) {i : Nat}
    (hindex : wholeOf given .frame = some i) (hi : i < schedule.frameCount.toNat) {out : Path}
    (hout : pathOf given .out = some out) (hwritable : Writable fs out) :
    ∃ printed after image file,
      (performWith reader .frame given settings).run.run fs = (.ok printed, after) ∧
      a.frames[i]? = some image ∧ after.read out = .ok file ∧
      Png.decodeStill file = .ok image.toBitmap := by
  have hindex64 : (UInt64.ofNat i).toNat = i :=
    UInt64.toNat_ofNat_of_lt' (hi.trans schedule.frameCount.toNat_lt)
  have hwithin : UInt64.ofNat i < schedule.frameCount := by
    rwa [UInt64.lt_iff_toNat_lt, hindex64]
  obtain ⟨frame, hframe, himage⟩ := frame_of_animateOn hanimate hsame hwithin
  rw [hindex64] at himage
  have hpixels : frame.image.canvas.hasPixels = true := by
    rw [a.canvas_eq _ (List.mem_of_getElem? himage)]
    exact a.hasPixels
  obtain ⟨after, hreplace, hwritten⟩ := hwritable.replace (Png.encodeStill frame.image.toBitmap)
  have hpreview : (settings.previewWith reader (UInt64.ofNat i) out).run.run fs =
      (.ok frame, after) := by
    rw [Settings.preview_eq hschedule, Source.run_read_bind _ hread hdecode, hframe,
      Job.of_ok_bind, Image.png_eq_ok hpixels, Job.of_ok_bind, Job.run_map, hreplace]
    rfl
  obtain ⟨context, printed, hrun⟩ := run_frame_eq fs settings hindex hout
  rw [hpreview] at hrun
  exact ⟨printed, after, frame.image, _, hrun, himage, hwritten,
    Png.decodeStill_encodeStill hpixels⟩

/-! ## §3 Agreement -/

/-- What the other subcommands show of an animation with these frames, for the same options: a
table with a line for each frame, and the pixels of each frame, but of no other. -/
structure Shown (reader : Bytes → Except ε Raster) (fs : FileSystem) (given : List (Key × Value))
    (frames : List Png.MovieFrame) : Prop where
  table : ∀ arguments' given', read arguments' = .perform .schedule given' →
    SameCommon given given' → ∃ out,
      (runWith reader arguments').run fs = (.finished ⟨out, []⟩, fs) ∧ Tabulates frames.length out
  frame : ∀ arguments' given', read arguments' = .perform .frame given' →
    SameCommon given given' → ∃ i out, i < 2 ^ 64 ∧
      valueOf given' .frame = some (.whole i) ∧ valueOf given' .out = some (.path out) ∧
      (∀ stored, frames[i]? = some stored → Writable fs out → ∃ printed after file,
        (runWith reader arguments').run fs = (.finished printed, after) ∧ after.read out = .ok file ∧
        Png.decodeStill file = .ok stored.image) ∧
      (frames.length ≤ i → ∃ report, (runWith reader arguments').run fs = (.failed report, fs))

variable {fresh : Place → Prop} {after : FileSystem} {base : Option Path} {g : Settings.Given}

/-- A line for the whole animation finishes where the run of its settings does. -/
theorem ends_render {arguments : List Bytes} (hread : read arguments = .perform .render given)
    (hconfigured : Configured fs given base g) {report : Report}
    (h : ((renderSettings given (effective given base g)).runOn reader Pool.inOrder
      ⟨isGiven given .parallel, wholeOf given .threads, isGiven given .elide⟩).run.Ends
        (fun _ => True) fs (.ok report) after) :
    ∃ printed, (runWith reader arguments).Ends (fun _ => True) fs (.finished printed) after :=
  ⟨_, ends_run_of_configured hread hconfigured (Job.ends_bind_ok.mpr ⟨report, after, h, rfl, rfl⟩)⟩

/-- **An animation that was made is what the other subcommands show.** -/
theorem shown_of_render (hconfigured : Configured fs given base g) {printed : Printed}
    (h : (performWith reader .render given (effective given base g)).run.Ends fresh fs (.ok printed)
      after) :
    ∃ written movie,
      after.read (renderSettings given (effective given base g)).output = .ok written ∧
      Png.Movie.decode written = .ok movie ∧ Shown reader fs given movie.frames := by
  obtain ⟨report, _, hrun, -, rfl⟩ := Job.ends_bind_ok.mp h
  obtain ⟨original, _, plain, a, stats, written, hread, hplain, rfl, hanimate, hencode, hwritten,
    -⟩ := Settings.ends_runOn_ok hrun
  obtain ⟨schedule, hschedule, -⟩ := animateOn_eq_ok hanimate
  have hlength : a.frames.length = schedule.frameCount.toNat :=
    length_of_animateOn hanimate hschedule
  have hdecode : Source.decodeFile reader (effective given base g).input original =
      .ok { plain with path := some (effective given base g).input } := by
    rw [Source.decodeFile, hplain]
  -- the timing and the source are not what the animation has for itself
  have htimed : (effective given base g).schedule = .ok schedule := hschedule
  have hrun' {s : Subcommand} {arguments' : List Bytes} {given' : List (Key × Value)}
      (hread' : read arguments' = .perform s given') (hsame : SameCommon given given') :
      (runWith reader arguments').run fs =
        (.of ((performWith reader s given' (effective given base g)).run.run fs).1,
          ((performWith reader s given' (effective given base g)).run.run fs).2) := by
    rw [run_of_configured hread' (hconfigured.congr hsame), effective_congr hsame]
  refine ⟨written, _, hwritten, Animation.decode_of_encode hencode, ⟨?_, ?_⟩⟩
  · intro arguments' given' hread' hsame
    refine ⟨scheduleTable schedule, ?_, ?_⟩
    · rw [hrun' hread' hsame, run_schedule htimed]
      rfl
    · rw [Animation.frames_movie, List.length_map, hlength]
      exact tabulates_scheduleTable schedule
  · intro arguments' given' hread' hsame
    obtain ⟨i, out, hi, -, hindex, hout⟩ := exists_frame_of_read hread'
    have hwhole : wholeOf given' .frame = some i := by rw [wholeOf, hindex]
    have hpath : pathOf given' .out = some ⟨out⟩ := by rw [pathOf, hout]
    refine ⟨i, ⟨out⟩, hi, hindex, hout, fun stored hstored hwritable => ?_, fun hbeyond => ?_⟩
    · rw [Animation.frames_movie, List.getElem?_map, Option.map_eq_some_iff] at hstored
      obtain ⟨image, himage, rfl⟩ := hstored
      have hwithin : i < schedule.frameCount.toNat :=
        hlength ▸ (List.getElem?_eq_some_iff.mp himage).1
      obtain ⟨printed, after', image', file, hdone, himage', hthere, hfile⟩ :=
        run_frame htimed hread hdecode hanimate hschedule hwhole hwithin hpath hwritable
      obtain rfl := Option.some.inj (himage.symm.trans himage')
      refine ⟨printed, after', file, ?_, hthere, hfile⟩
      rw [hrun' hread' hsame, hdone]
      rfl
    · rw [Animation.frames_movie, List.length_map, hlength] at hbeyond
      obtain ⟨e, hfails⟩ := run_frame_outside htimed hread hdecode hwhole hi hbeyond hpath
      refine ⟨failureReport e, ?_⟩
      rw [hrun' hread' hsame, hfails]
      rfl

/-- **The subcommands agree on one configuration.** Every subcommand goes on with settings whose
fields come from their options, else from the configuration file, else from the defaults; a file
also moves the paths that it lists and the default paths, which are then read from its directory,
but no path that an option gives. A file that cannot be read or parsed makes every subcommand
fail; another text in its place that lists the same for the fields without an option makes no
difference, as long as the reader of pictures tells pictures from JSON. The options that all
subcommands have can be given to each of them. Whenever the whole animation is made, of a picture
in any format, the same options on the files as they were before give a table with a line for each
frame of the animation that was written, counted from zero, and previews with the pixels of just
these frames. -/
theorem subcommands_agree (reader : Bytes → Except ε Raster) (fs : FileSystem)
    {arguments : List Bytes} {s : Subcommand} (hread : read arguments = .perform s given) :
    -- the settings
    (∀ base g, Configured fs given base g → (runWith reader arguments).run fs =
      (.of ((performWith reader s given (effective given base g)).run.run fs).1,
        ((performWith reader s given (effective given base g)).run.run fs).2)) ∧
    ((∀ base g, ¬ Configured fs given base g) →
      ∃ report, (runWith reader arguments).run fs = (.failed report, fs)) ∧
    (fs.Rooted → ∀ path text, pathOf given .config = some path → fs.read path = .ok text →
      ∀ p, fs.placeOf ((Settings.baseOf path).join p) =
        FileSystem.placeOf { fs with cwd := (fs.placeOf path).dropLast } p) ∧
    -- fields that are overridden
    (Source.Sniffs reader → ∀ path text text' g g', pathOf given .config = some path →
      fs.read path = .ok text → Settings.listed text = .ok g → Settings.listed text' = .ok g' →
      AgreeBeside s given g g' →
      ((runWith reader arguments).run (fs.refill (fs.placeOf path) text')).1 =
        ((runWith reader arguments).run fs).1 ∧
      FileSystem.SameBut (fs.placeOf path) ((runWith reader arguments).run fs).2
        ((runWith reader arguments).run (fs.refill (fs.placeOf path) text')).2) ∧
    -- the same options for other subcommands
    (∃ arguments' given', read arguments' = .perform .schedule given' ∧
      SameCommon given given') ∧
    (∀ i < 2 ^ 64, ∀ out ≠ [], ∃ arguments' given', read arguments' = .perform .frame given' ∧
      SameCommon given given' ∧ valueOf given' .frame = some (.whole i) ∧
      valueOf given' .out = some (.path ⟨out⟩)) ∧
    -- what they show of an animation
    (s = .render → ∀ fresh printed after,
      (runWith reader arguments).Ends fresh fs (.finished printed) after →
      ∃ base g written movie, Configured fs given base g ∧
        after.read (renderSettings given (effective given base g)).output = .ok written ∧
        Png.Movie.decode written = .ok movie ∧ Shown reader fs given movie.frames) := by
  refine ⟨fun base g hconfigured => run_of_configured hread hconfigured,
    run_of_not_configured hread, fun hrooted path text hpath hfile p => ?_,
    fun hsniffs path text text' g g' hpath hfile hlisted hlisted' hagree =>
      run_refill hsniffs hread hpath hfile hlisted hlisted' hagree,
    exists_schedule_line hread, fun i hi out hout => exists_frame_line hread hi hout, ?_⟩
  · obtain ⟨parent, hparent, hplaces⟩ := hrooted.placeOf_join_parent hfile
    rw [Settings.baseOf, hparent]
    exact hplaces p
  · rintro rfl fresh printed after hends
    obtain ⟨base, g, hconfigured, hperform⟩ := ends_run_finished hread hends
    obtain ⟨written, movie, hwritten, hmovie, hshown⟩ := shown_of_render hconfigured hperform
    exact ⟨base, g, written, movie, hconfigured, hwritten, hmovie, hshown⟩

/-- A line for an animation of one frame finishes where its picture is there and its file can be
written. -/
theorem ends_render_one_frame {arguments : List Bytes}
    (hread : read arguments = .perform .render given) (hconfigured : Configured fs given base g)
    {input output : Path} (hrendered : renderSettings given (effective given base g) =
      ⟨input, output, 1, 1.0, 0.0, 0.0, .infinite⟩)
    (hparallel : isGiven given .parallel = false) {image : Bitmap}
    (hpixels : image.canvas.hasPixels = true) (hinput : fs.read input = .ok (Png.encodeStill image))
    (hcontainer : Container.ofPath output = .ok .apng) (hwritable : Writable fs output) :
    ∃ printed after written movie,
      (run arguments).Ends (fun _ => True) fs (.finished printed) after ∧
      after.read output = .ok written ∧ Png.Movie.decode written = .ok movie ∧
      movie.frames.length = 1 := by
  have hplays : LoopMode.infinite ≠ .finite 0 := by decide
  have hplan := Settings.schedule_one_frame input output .infinite
  have hvalid : Settings.validate ⟨input, output, 1, 1.0, 0.0, 0.0, .infinite⟩ = .ok () :=
    Settings.validate_eq_ok_iff.mpr ⟨⟨_, hplan⟩, ⟨_, hcontainer⟩, hplays⟩
  have hsource : Source.decode (Png.encodeStill image) = .ok ⟨none, image.toImage⟩ :=
    Source.decode_encodeStill hpixels
  obtain ⟨a, stats, hanimate⟩ := animateOn_one_frame Pool.inOrder ⟨some input, image.toImage⟩ input
    output .infinite ⟨isGiven given .parallel, wholeOf given .threads, isGiven given .elide⟩ hpixels
    fun hset => absurd (hset.symm.trans hparallel) (by decide)
  obtain ⟨_, -, -, -, hmode, -⟩ := animateOn_eq_ok hanimate
  have hlength : a.length = 1 := length_of_animateOn hanimate hplan
  have hencode : a.encode = .ok (a.movie a.loopMode.count).encode :=
    Animation.encode_eq_ok (hmode ▸ hplays) (by omega) (surplus_of_animateOn hanimate)
  obtain ⟨after, hreplace, hwritten⟩ := hwritable.replace (a.movie a.loopMode.count).encode
  have hends := Script.ends_run (replaceFile output (a.movie a.loopMode.count).encode).run fs
  rw [hreplace] at hends
  have hdone := Settings.ends_runOn hvalid hinput hsource hanimate hcontainer hencode hends
  rw [← hrendered] at hdone
  obtain ⟨printed, hfinished⟩ := ends_render hread hconfigured hdone
  refine ⟨printed, after, _, _, hfinished, hwritten, Animation.decode_of_encode hencode, ?_⟩
  rw [Animation.frames_movie, List.length_map]
  exact hlength

/-- A file in a directory that lists a picture beside it and a rate, which an option overrides: the
animation of one frame is made, without the rate as well, and has a table of one line and a preview
of the first frame, but none of a second. -/
theorem subcommands_agree_one_frame :
    let config : Path := ⟨[0x64, 0x2F, 0x63]⟩
    let output : Path := ⟨[0x6F, 0x2E, 0x70, 0x6E, 0x67]⟩
    let text : Bytes := Utf8.encode "\x7b\"input_path\":\"p\",\"frame_rate\":7\x7d"
    let text' : Bytes := Utf8.encode "\x7b\"input_path\":\"p\"\x7d"
    let image : Bitmap := ⟨⟨1, 1⟩, #[⟨200, 10, 30, 128⟩], rfl⟩
    let fs : FileSystem := ⟨[([[0x64]], .directory), ([[0x64], [0x63]], .file text),
      ([[0x64], [0x70]], .file (Png.encodeStill image))], []⟩
    let arguments := lineOf .render [(.config, config.bytes), (.fps, [0x31]), (.duration, [0x31]),
      (.shifts, [0x30]), (.blinks, [0x30]), (.out, output.bytes)]
    ∃ given printed after written movie stored, read arguments = .perform .render given ∧
      (run arguments).Ends (fun _ => True) fs (.finished printed) after ∧
      after.read output = .ok written ∧ Png.Movie.decode written = .ok movie ∧
      movie.frames = [stored] ∧
      ((run arguments).run (fs.refill [[0x64], [0x63]] text')).1 = ((run arguments).run fs).1 ∧
      (∃ arguments' given' line, read arguments' = .perform .schedule given' ∧
        SameCommon given given' ∧ (run arguments').run fs =
          (.finished ⟨["frame elapsed_s hue brightness", line], []⟩, fs)) ∧
      (∃ arguments' given' shown there file, read arguments' = .perform .frame given' ∧
        SameCommon given given' ∧ valueOf given' .frame = some (.whole 0) ∧
        (run arguments').run fs = (.finished shown, there) ∧ there.read output = .ok file ∧
        Png.decodeStill file = .ok stored.image) ∧
      ∃ arguments' given' report, read arguments' = .perform .frame given' ∧
        SameCommon given given' ∧ valueOf given' .frame = some (.whole 1) ∧
        (run arguments').run fs = (.failed report, fs) := by
  intro config output text text' image fs arguments
  -- the line, the files and the settings that come of them
  have hnumber : readValue? .number [0x31] = some (.number 1.0) := by
    have hnearest : Decimal.nearest 1 0 = 1.0 := by decide +kernel
    rw [← hnearest]
    rfl
  have hrate : readValue? (.integer 32) [0x31] = some (.whole 1) := by
    have hinteger : (textOf? [0x31]).bind Decimal.readInteger? = some 1 := rfl
    rw [readValue?, hinteger]
    exact if_pos (by decide)
  obtain ⟨given, hgiven⟩ : ∃ given : List (Key × Value), given = [(.config, .path config),
      (.fps, .whole 1), (.duration, .number 1.0), (.shifts, .number 0.0), (.blinks, .number 0.0),
      (.out, .path output)] := ⟨_, rfl⟩
  have hline : read arguments = .perform .render given := by
    have hkeys : given.map Prod.fst = [.config, .fps, .duration, .shifts, .blinks, .out] :=
      hgiven ▸ rfl
    refine read_lineOf (hgiven ▸ .cons ⟨rfl, by decide, rfl⟩ (.cons ⟨rfl, by decide, hrate⟩
      (.cons ⟨rfl, by decide, hnumber⟩ (.cons ⟨rfl, by decide, rfl⟩ (.cons ⟨rfl, by decide, rfl⟩
      (.cons ⟨rfl, by decide, rfl⟩ .nil)))))) ?_ ?_ ?_
    · rw [hkeys]
      decide
    · rw [hkeys]
      decide
    · rw [hkeys]
      decide
  have hlisted : Settings.listed text =
      .ok { Settings.Given.nothing with input := some ⟨[0x70]⟩, frameRate := some 7 } := rfl
  have hlisted' : Settings.listed text' =
      .ok { Settings.Given.nothing with input := some ⟨[0x70]⟩ } := rfl
  have hfile : fs.read config = .ok text := rfl
  have hpath : pathOf given .config = some config := hgiven ▸ rfl
  have hconfigured := Configured.file hpath hfile hlisted
  have hrendered : renderSettings given (effective given (some (Settings.baseOf config))
      { Settings.Given.nothing with input := some ⟨[0x70]⟩, frameRate := some 7 }) =
      ⟨⟨[0x64, 0x2F, 0x70]⟩, output, 1, 1.0, 0.0, 0.0, .infinite⟩ := hgiven ▸ rfl
  -- the animation
  have hreplaced (old old' new : Bytes) : (replaceFile ⟨[0x6F, 0x2E, 0x70, 0x6E, 0x67]⟩ new).run.run
      ⟨[([[0x64]], .directory), ([[0x64], [0x63]], .file old), ([[0x64], [0x70]], .file old')], []⟩ =
        (.ok (), ⟨[([[0x6F, 0x2E, 0x70, 0x6E, 0x67]], .file new), ([[0x64]], .directory),
          ([[0x64], [0x63]], .file old), ([[0x64], [0x70]], .file old')], []⟩) := rfl
  have hwritable : Writable fs output := ⟨[], _, hreplaced _ _ _⟩
  have hinput : fs.read ⟨[0x64, 0x2F, 0x70]⟩ = .ok (Png.encodeStill image) := rfl
  have hparallel : isGiven given .parallel = false := hgiven ▸ rfl
  have hpixels : image.canvas.hasPixels = true := by decide
  obtain ⟨printed, after, written, movie, hfinished, hwritten, hmovie, hlength⟩ :=
    ends_render_one_frame hline hconfigured hrendered hparallel hpixels hinput
      Container.ofPath_png hwritable
  obtain ⟨stored, hone⟩ := List.length_eq_one_iff.mp hlength
  -- what the theorem says of it
  obtain ⟨-, -, -, hoverridden, htable, hframe, hshown⟩ := subcommands_agree Png.reader fs hline
  obtain ⟨base, g, written', movie', hsame, hwritten', hmovie', hshows⟩ :=
    hshown rfl _ _ _ hfinished
  have houtput : (renderSettings given (effective given base g)).output = output := hgiven ▸ rfl
  rw [houtput] at hwritten'
  obtain rfl := Except.ok.inj (hwritten.symm.trans hwritten')
  obtain rfl := Except.ok.inj (hmovie.symm.trans hmovie')
  refine ⟨given, printed, after, written, movie, stored, hline, hfinished, hwritten, hmovie, hone,
    ?_, ?_, ?_, ?_⟩
  · refine (hoverridden Source.sniffs_reader config text text' _ _ hpath hfile hlisted hlisted' ?_).1
    refine ⟨fun _ => rfl, fun hnone => ?_, fun _ => rfl, fun _ => rfl, fun _ => rfl, fun _ _ => rfl,
      fun _ _ => rfl⟩
    rw [hgiven] at hnone
    cases hnone
  · obtain ⟨arguments', given', hread', hsame'⟩ := htable
    obtain ⟨out, hrun', ⟨lines, rfl, hlines, -⟩, -⟩ := hshows.table _ _ hread' hsame'
    rw [hone] at hlines
    obtain ⟨line, rfl⟩ := List.length_eq_one_iff.mp hlines
    exact ⟨arguments', given', line, hread', hsame', hrun'⟩
  · obtain ⟨arguments', given', hread', hsame', hindex, hout⟩ := hframe 0 (by decide) output.bytes
      (by decide)
    obtain ⟨i, out, -, hindex', hout', hwithin, -⟩ := hshows.frame _ _ hread' hsame'
    obtain rfl := Value.whole.inj (Option.some.inj (hindex.symm.trans hindex'))
    obtain rfl := Value.path.inj (Option.some.inj (hout.symm.trans hout'))
    obtain ⟨shown, there, file, hrun', hthere, hfile'⟩ := hwithin stored (by rw [hone]; rfl)
      hwritable
    exact ⟨arguments', given', shown, there, file, hread', hsame', hindex, hrun', hthere, hfile'⟩
  · obtain ⟨arguments', given', hread', hsame', hindex, hout⟩ := hframe 1 (by decide) output.bytes
      (by decide)
    obtain ⟨i, out, -, hindex', -, -, hbeyond⟩ := hshows.frame _ _ hread' hsame'
    obtain rfl := Value.whole.inj (Option.some.inj (hindex.symm.trans hindex'))
    obtain ⟨report, hrun'⟩ := hbeyond (by rw [hone]; rfl)
    exact ⟨arguments', given', report, hread', hsame', hindex, hrun'⟩

/-- A default path is moved, too: with a file in a directory that lists nothing, and no option for
the picture, the settings name a picture beside that file, which is not there, in place of the one
in the working directory, which is. -/
theorem effectiveSettings_moves_default_path :
    let config : Path := .ofString "sub/c.json"
    let image : Bitmap := ⟨⟨1, 1⟩, #[⟨200, 10, 30, 128⟩], rfl⟩
    let fs : FileSystem := ⟨[([Utf8.encode "sub"], .directory),
      ([Utf8.encode "sub", Utf8.encode "c.json"], .file (Utf8.encode "\x7b\x7d")),
      ([Utf8.encode "logo.png"], .file (Png.encodeStill image))], []⟩
    ∃ given settings,
      read [Utf8.encode "frame", Utf8.encode "--config", config.bytes, Utf8.encode "--frame",
        Utf8.encode "0", Utf8.encode "--out", Utf8.encode "f.png"] = .perform .frame given ∧
      pathOf given .config = some config ∧ pathOf given .input = none ∧
      fs.read config = .ok (Utf8.encode "\x7b\x7d") ∧
      Settings.listed (Utf8.encode "\x7b\x7d") = .ok .nothing ∧
      (effectiveSettings given).run.run fs = (.ok settings, fs) ∧
      settings.input ≠ Settings.default.input ∧
      fs.read settings.input = .error (.cannotOpen .notFound) ∧
      fs.read Settings.default.input = .ok (Png.encodeStill image) := by
  intro config image fs
  have hreads (file : Bytes) :
      let fs : FileSystem := ⟨[([Utf8.encode "sub"], .directory),
        ([Utf8.encode "sub", Utf8.encode "c.json"], .file (Utf8.encode "\x7b\x7d")),
        ([Utf8.encode "logo.png"], .file file)], []⟩
      fs.read config = .ok (Utf8.encode "\x7b\x7d") ∧
        fs.read (.ofString "sub/logo.png") = .error (.cannotOpen .notFound) ∧
        fs.read Settings.default.input = .ok file := ⟨rfl, rfl, rfl⟩
  have hlisted : Settings.listed (Utf8.encode "\x7b\x7d") = .ok .nothing := rfl
  obtain ⟨hconfig, hmoved, hdefault⟩ := hreads (Png.encodeStill image)
  obtain ⟨given, hgiven⟩ : ∃ given : List (Key × Value), given =
    [(.config, .path config), (.frame, .whole 0), (.out, .path (.ofString "f.png"))] := ⟨_, rfl⟩
  have hpath : pathOf given .config = some config := hgiven ▸ rfl
  have hnone : pathOf given .input = none := hgiven ▸ rfl
  have hinput : (effective given (some (Settings.baseOf config)) .nothing).input =
      .ofString "sub/logo.png" := by
    rw [effective, hnone]
    rfl
  refine ⟨given, _, hgiven ▸ rfl, hpath, hnone, hconfig, hlisted,
    run_effectiveSettings (.file hpath hconfig hlisted), ?_, ?_, hdefault⟩
  · rw [hinput]
    decide
  · rw [hinput]
    exact hmoved

end CommandLine

end HueCycle
