/-
HueCycle.Proofs.Files.Jobs — what a finished run leaves in its output file.

A run that succeeds has succeeded in each of its stages: it has read and
decoded the source, made the animation, encoded it and put the file in
place. The file is read back by the round trip of animated PNG files, and
the frames in it are those of the renderer.
-/
import Mathlib
import HueCycle.Files.Jobs
import HueCycle.Proofs.Animate
import HueCycle.Proofs.AnimationFile
import HueCycle.Proofs.Files.Replacement
import HueCycle.Proofs.Schedule

namespace HueCycle

open Files Render

variable {ε : Type} {reader : Bytes → Except ε Raster} {fresh : Place → Prop}
  {fs after : FileSystem}

/-! ## §1 Reading and writing -/

/-- A source that was read is what its file holds, and reading changes nothing. -/
theorem Source.ends_read_ok {path : Path} {source : Source}
    (h : (Source.readWith reader path).run.Ends fresh fs (.ok source) after) :
    after = fs ∧
      ∃ file, fs.read path = .ok file ∧ Source.decodeFile reader path file = .ok source := by
  obtain ⟨answer, mid, ⟨rfl, hanswer⟩, hrest⟩ := Job.ends_ask.mp h
  cases answer with
  | error fault => cases hrest.1
  | ok file =>
    obtain ⟨hdecode, rfl⟩ := Job.ends_of.mp hrest
    refine ⟨rfl, file, ?_, hdecode.symm⟩
    rcases hanswer with hread | ⟨fault, hfault⟩
    · exact hread.symm
    · cases hfault

/-- A job that reads a source ends with a fault of the machine, or goes on with what the file
holds. -/
theorem Source.ends_read_bind {α : Type} {path : Path} {f : Source → Job α}
    {answer : Except Error α} :
    (Source.readWith reader path >>= f).run.Ends fresh fs answer after ↔
      (∃ fault : FileSystem.ReadFault,
        answer = .error (.decode (.cannotRead path fault.reason)) ∧ after = fs) ∨
      ∃ file, fs.read path = .ok file ∧
        (Job.of (Source.decodeFile reader path file) >>= f).run.Ends fresh fs answer after := by
  constructor
  · rintro ⟨contents, _, ⟨rfl, hcontents⟩, hrest⟩
    cases contents with
    | error fault => exact .inl ⟨fault, hrest⟩
    | ok file =>
      rcases hcontents with hfile | ⟨fault, hfault⟩
      · exact .inr ⟨file, hfile.symm, hrest⟩
      · cases hfault
  · rintro (⟨fault, hfault⟩ | ⟨file, hfile, hrest⟩)
    · exact ⟨.error fault, fs, ⟨rfl, .inr ⟨fault, rfl⟩⟩, hfault⟩
    · exact ⟨.ok file, fs, ⟨rfl, .inl hfile.symm⟩, hrest⟩

/-- The source of a file is what the octets of the file hold, with the path noted. -/
theorem Source.decode_of_decodeFile {path : Path} {file : Bytes} {source : Source}
    (h : Source.decodeFile reader path file = .ok source) :
    ∃ plain, Source.decodeWith reader file = .ok plain ∧
      source = { plain with path := some path } := by
  unfold decodeFile at h
  split at h
  · rename_i plain hplain
    exact ⟨plain, hplain, (Except.ok.inj h).symm⟩
  · cases h
  · cases h

/-- An animation that was saved is in its file. -/
theorem Animation.ends_save_ok {a : Animation} {path : Path}
    (h : (a.save path).run.Ends fresh fs (.ok ()) after) :
    ∃ file, a.encode = .ok file ∧ after.read path = .ok file := by
  obtain ⟨container, _, hcontainer, hrest⟩ := Job.ends_bind_ok.mp h
  obtain ⟨-, rfl⟩ := Job.ends_of.mp hcontainer
  obtain ⟨file, _, hfile, hreplace⟩ := Job.ends_bind_ok.mp hrest
  obtain ⟨hencode, rfl⟩ := Job.ends_of.mp hfile
  cases container with
  | apng =>
    have hover : Replaced _ path file after := (keeps_replaceFile fresh _ path file).2 _ _ hreplace
    exact ⟨file, hencode.symm, hover.read⟩

/-! ## §2 A whole run -/

/-- What the stages of a run that succeeds have handed over. -/
theorem Settings.ends_runOn_ok {pool : Pool} {settings : Settings} {threading : Threading}
    {report : Report}
    (h : (settings.runOn reader pool threading).run.Ends fresh fs (.ok report) after) :
    ∃ original source plain a stats written,
      fs.read settings.input = .ok original ∧ Source.decodeWith reader original = .ok plain ∧
      source = { plain with path := some settings.input } ∧
      animateOn pool source settings threading = .ok (a, stats) ∧
      a.encode = .ok written ∧ after.read settings.output = .ok written ∧
      report = ⟨settings.output, a.canvas, stats⟩ := by
  obtain ⟨_, _, hvalid, hreading⟩ := Job.ends_bind_ok.mp h
  obtain ⟨-, rfl⟩ := Job.ends_of.mp hvalid
  obtain ⟨source, _, hsource, hmaking⟩ := Job.ends_bind_ok.mp hreading
  obtain ⟨rfl, original, hread, hdecode⟩ := Source.ends_read_ok hsource
  obtain ⟨plain, hplain, hnoted⟩ := Source.decode_of_decodeFile hdecode
  obtain ⟨⟨a, stats⟩, _, hanimate, hsaving⟩ := Job.ends_bind_ok.mp hmaking
  obtain ⟨hmade, rfl⟩ := Job.ends_of.mp hanimate
  obtain ⟨_, last, hsave, hlast⟩ := Job.ends_bind_ok.mp hsaving
  obtain ⟨written, hencode, hwritten⟩ := Animation.ends_save_ok hsave
  obtain ⟨hreport, rfl⟩ : Except.ok report = .ok ⟨settings.output, a.canvas, stats⟩ ∧ after = last :=
    hlast
  exact ⟨original, source, plain, a, stats, written, hread, hplain, hnoted, hmade.symm, hencode,
    hwritten, Except.ok.inj hreport⟩

/-- A run succeeds if each of its stages does. -/
theorem Settings.ends_runOn {pool : Pool} {settings : Settings} {threading : Threading}
    {original file : Bytes} {plain : Source} {a : Animation} {stats : Stats}
    (hvalid : settings.validate = .ok ()) (hread : fs.read settings.input = .ok original)
    (hdecode : Source.decodeWith reader original = .ok plain)
    (hanimate : animateOn pool { plain with path := some settings.input } settings threading =
      .ok (a, stats))
    (hcontainer : Container.ofPath settings.output = .ok .apng) (hencode : a.encode = .ok file)
    (hreplace : (replaceFile settings.output file).run.Ends fresh fs (.ok ()) after) :
    (settings.runOn reader pool threading).run.Ends fresh fs
      (.ok ⟨settings.output, a.canvas, stats⟩) after := by
  have hsource : (Source.readWith reader settings.input).run.Ends fresh fs
      (.ok { plain with path := some settings.input }) fs := by
    refine Job.ends_ask.mpr ⟨.ok original, fs, ⟨rfl, .inl hread.symm⟩, Job.ends_of.mpr ⟨?_, rfl⟩⟩
    rw [Source.decodeFile, hdecode]
  have hsave : (a.save settings.output).run.Ends fresh fs (.ok ()) after :=
    Job.ends_bind_ok.mpr ⟨_, fs, Job.ends_of.mpr ⟨hcontainer.symm, rfl⟩,
      Job.ends_bind_ok.mpr ⟨file, fs, Job.ends_of.mpr ⟨hencode.symm, rfl⟩, hreplace⟩⟩
  refine Job.ends_bind_ok.mpr ⟨(), fs, Job.ends_of.mpr ⟨hvalid.symm, rfl⟩, ?_⟩
  refine Job.ends_bind_ok.mpr ⟨_, fs, hsource, ?_⟩
  refine Job.ends_bind_ok.mpr ⟨(a, stats), fs, Job.ends_of.mpr ⟨hanimate.symm, rfl⟩, ?_⟩
  exact Job.ends_bind_ok.mpr ⟨(), after, hsave, rfl, rfl⟩

/-- **A run that succeeds leaves the animation of its source.** The output file decodes to one
frame for each position of the schedule; each has the pixels of the rendered frame, the alpha
of the source and a delay of one over the frame rate; and the report states the canvas, the
number of frames and the path. It does not matter which formats the reader knows, how the jobs
were shared among workers, what the machine answered on the way, or whether input and output are
the same file. -/
theorem Settings.runOn_leaves_rendered_frames {pool : Pool} {settings : Settings}
    {threading : Threading} {report : Report}
    (h : (settings.runOn reader pool threading).run.Ends fresh fs (.ok report) after) :
    ∃ schedule original source written movie,
      settings.schedule = .ok schedule ∧
      fs.read settings.input = .ok original ∧ Source.decodeWith reader original = .ok source ∧
      after.read settings.output = .ok written ∧ Png.Movie.decode written = .ok movie ∧
      movie.frames.length = schedule.frameCount.toNat ∧
      (∀ i stored, movie.frames[i]? = some stored →
        ∃ f, (source.renderer schedule).frame (UInt64.ofNat i) = .ok f ∧
          stored.image.toImage = f.image ∧
          (∀ k : Nat, stored.image.pixels[k]?.map Pixel.alpha
            = source.image.pixels[k]?.map Pixel.alpha) ∧
          stored.control.covers source.canvas = true ∧
          stored.control.delay.num = 1 ∧
          stored.control.delay.den.toNat = settings.frameRate.toNat) ∧
      movie.plays = settings.loopMode.count ∧
      report.canvas = source.canvas ∧ report.stats.total = schedule.frameCount.toNat ∧
      report.output = settings.output := by
  obtain ⟨original, _, source, a, stats, written, hread, hdecode, rfl, hanimate, hencode, hwritten,
    rfl⟩ := Settings.ends_runOn_ok h
  obtain ⟨schedule, hschedule, -, hdelay, hmode, htotal⟩ := animateOn_eq_ok hanimate
  have hmovie := Animation.decode_of_encode hencode
  obtain ⟨-, hexact, -⟩ := Animation.of_encode hencode
  -- the renderer looks at the image of the source alone, not at its path
  have hframe : ∀ i image, a.frames[i]? = some image →
      ∃ f, (source.renderer schedule).frame (UInt64.ofNat i) = .ok f ∧ image = f.image :=
    fun i image himage => rendered_of_animateOn hanimate hschedule himage
  have hcanvas : a.canvas = source.canvas := by
    refine Animation.canvas_eq_of_frames ?_
    intro image hmem
    obtain ⟨i, hi⟩ := List.getElem?_of_mem hmem
    obtain ⟨f, hf, rfl⟩ := hframe i image hi
    exact (Source.frame_keeps hf).1
  obtain ⟨hnum, hden⟩ := Settings.delay_of_schedule hschedule
  refine ⟨schedule, original, source, written, _, hschedule, hread, hdecode, hwritten, hmovie, ?_,
    fun i stored hstored => ?_, by rw [← hmode]; rfl, hcanvas, htotal, rfl⟩
  · rw [Animation.frames_movie, List.length_map]
    exact length_of_animateOn hanimate hschedule
  · rw [Animation.frames_movie, List.getElem?_map, Option.map_eq_some_iff] at hstored
    obtain ⟨image, himage, rfl⟩ := hstored
    have hsame := Image.toImage_toBitmap (hexact image (List.mem_of_getElem? himage))
    obtain ⟨f, hf, rfl⟩ := hframe i image himage
    refine ⟨f, hf, hsame, (Source.frame_keeps hf).2.2, ?_, ?_, ?_⟩
    · rw [← hcanvas]
      exact Png.FrameControl.covers_full _ _
    · show a.delay.num = 1
      rw [hdelay, hnum]
    · show a.delay.den.toNat = settings.frameRate.toNat
      rw [hdelay, hden]

/-- A run over its own source: one frame a second for one second, played twice, on two
workers. -/
theorem Settings.runOn_leaves_rendered_frames_in_place :
    let path : Path := ⟨[0x6F, 0x2E, 0x70, 0x6E, 0x67]⟩
    let settings : Settings := ⟨path, path, 1, 1.0, 0.0, 1.0, .finite 2⟩
    let image : Bitmap := ⟨⟨1, 1⟩, #[⟨200, 10, 30, 128⟩], rfl⟩
    let fs : FileSystem := ⟨[([path.bytes], .file (Png.encodeStill image))], []⟩
    ∃ report after, (settings.runOn Png.reader Pool.inOrder ⟨true, some 2, true⟩).run.Ends
        (fun _ => True) fs (.ok report) after ∧
      ∃ written movie stored, after.read path = .ok written ∧
        Png.Movie.decode written = .ok movie ∧ movie.frames = [stored] ∧ movie.plays = 2 ∧
        stored.image.pixels[0]?.map Pixel.alpha = some 128 ∧
        stored.control.delay.num = 1 ∧ stored.control.delay.den.toNat = 1 := by
  intro path settings image fs
  have hpixels : image.canvas.hasPixels = true := by decide
  have hsource : Source.decode (Png.encodeStill image) = .ok ⟨none, image.toImage⟩ :=
    Source.decode_encodeStill hpixels
  have hcount : Schedule.countFrames ⟨1, 1⟩ 1.0 = .ok 1 := by
    have hproduct : (FrameRate.value ⟨1, 1⟩ : Float) * 1.0 = 1.0 := by decide +kernel
    have hround : Binary64.round 1.0 = 1.0 := by decide +kernel
    rw [Schedule.countFrames, hproduct, hround, if_neg (by decide +kernel), if_neg (by decide),
      if_neg (by decide)]
    exact congrArg Except.ok (by decide +kernel)
  have hdelay : FrameRate.delay ⟨1, 1⟩ = .ok ⟨1, 1⟩ := by
    simp [FrameRate.delay, FrameRate.narrow?]
  have hschedule : settings.schedule = .ok ⟨⟨1, 1⟩, 1.0, 0.0, 1.0, 1, ⟨1, 1⟩⟩ :=
    Schedule.plan_eq_ok_iff.mpr ⟨by decide, by decide, by decide, 1, ⟨1, 1⟩, hcount, hdelay, rfl⟩
  have hcontainer : Container.ofPath path = .ok .apng := by
    have htext : path.textExtension? = some "png" := by decide +kernel
    rw [Container.ofPath, htext]
    rfl
  have hvalid : settings.validate = .ok () := by
    unfold Settings.validate
    rw [hschedule]
    change (Container.ofPath path >>= _) = _
    rw [hcontainer]
    rfl
  have hcheck : ∀ i < (1 : UInt64), Image.checkRecolor
      (Schedule.cue ⟨⟨1, 1⟩, 1.0, 0.0, 1.0, 1, ⟨1, 1⟩⟩ i).hue
      (Schedule.cue ⟨⟨1, 1⟩, 1.0, 0.0, 1.0, 1, ⟨1, 1⟩⟩ i).brightness = .ok () := by
    intro i hi
    obtain rfl : i = 0 := by
      rw [UInt64.lt_iff_toNat_lt] at hi
      exact UInt64.toNat_inj.mp (by simpa using hi)
    exact Schedule.checkRecolor_cue _ 0 (by decide +kernel) (by decide +kernel)
  have hanimated : ∃ a stats, animateOn Pool.inOrder ⟨some path, image.toImage⟩ settings
      ⟨true, some 2, true⟩ = .ok (a, stats) :=
    animateOn_isOk hschedule (by decide) hcheck hpixels (by decide)
  obtain ⟨a, stats, hanimate⟩ := hanimated
  obtain ⟨_, -, -, -, hmode, -⟩ := animateOn_eq_ok hanimate
  have hlength : a.length = 1 := length_of_animateOn hanimate hschedule
  have hencode : a.encode = .ok (a.movie a.loopMode.count).encode := by
    refine Animation.encode_eq_ok ?_ (by omega) (surplus_of_animateOn hanimate)
    rw [hmode]
    decide
  have hread (old : Bytes) : FileSystem.read ⟨[([path.bytes], .file old)], []⟩ path = .ok old := rfl
  have hreplaced (old new : Bytes) :
      (replaceFile ⟨[0x6F, 0x2E, 0x70, 0x6E, 0x67]⟩ new).run.run
          ⟨[([[0x6F, 0x2E, 0x70, 0x6E, 0x67]], .file old)], []⟩ =
        (.ok (), ⟨[([[0x6F, 0x2E, 0x70, 0x6E, 0x67]], .file new)], []⟩) := rfl
  have hends := Script.ends_run (replaceFile path (a.movie a.loopMode.count).encode).run fs
  rw [hreplaced] at hends
  have hrun := Settings.ends_runOn hvalid (hread _) hsource hanimate hcontainer hencode hends
  refine ⟨_, _, hrun, ?_⟩
  obtain ⟨schedule, original, source, written, movie, hplanned, horiginal, hdecode, hwritten,
    hmovie, hcounted, hstored, hplays, -⟩ := Settings.runOn_leaves_rendered_frames hrun
  obtain rfl := Except.ok.inj (hschedule.symm.trans hplanned)
  obtain rfl := Except.ok.inj ((hread _).symm.trans horiginal)
  obtain rfl := Except.ok.inj (hsource.symm.trans hdecode)
  obtain ⟨stored, hone⟩ := List.length_eq_one_iff.mp hcounted
  obtain ⟨f, -, -, halpha, -, hnum, hden⟩ := hstored 0 stored (by rw [hone]; rfl)
  exact ⟨written, movie, stored, hwritten, hmovie, hone, hplays, halpha 0, hnum, hden⟩

end HueCycle
