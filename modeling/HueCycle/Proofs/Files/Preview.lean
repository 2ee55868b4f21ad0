/-
HueCycle.Proofs.Files.Preview — the preview of a frame is that frame of the
animation.

A preview plans the schedule as the animation does, but it renders its frame
alone and writes it as a still image. The animation has the frames that the
renderer gives one by one, however its own are planned and shared, so both
show the same pixels; and a position is refused by the renderer exactly where
the animation has no frame.
-/
import Mathlib
import HueCycle.Proofs.Files.Jobs
import HueCycle.Proofs.Png.StillFile

namespace HueCycle

open Files Render

variable {settings : Settings} {schedule : Schedule}

/-! ## §1 Frames -/

/-- A frame that was rendered is the one of its position. -/
theorem Render.Renderer.frame_eq_ok {r : Renderer} {i : FrameIndex} {f : Frame}
    (h : r.frame i = .ok f) : f.index = i ∧ f.cue = r.schedule.cue i := by
  unfold frame at h
  split at h
  · obtain ⟨image, -, hmade⟩ := bind_eq_ok.mp h
    obtain rfl := Except.ok.inj hmade
    exact ⟨rfl, rfl⟩
  · cases h

/-- There is no frame beyond the schedule. -/
theorem Render.Renderer.frame_eq_error {r : Renderer} {i : FrameIndex}
    (h : r.schedule.frameCount ≤ i) :
    r.frame i = .error (.validation (.frameOutside i r.schedule.frameCount)) := by
  have hout : r.schedule.range.contains i = false := by
    simp [FrameRange.contains, Schedule.range, UInt64.not_lt.mpr h]
  rw [frame, hout]
  rfl

/-- Each position of an animation has the frame that the renderer gives for it alone. -/
theorem frame_of_animateOn {pool : Pool} {source : Source} {threading : Threading} {a : Animation}
    {stats : Stats} (h : animateOn pool source settings threading = .ok (a, stats))
    (hschedule : settings.schedule = .ok schedule) {i : FrameIndex} (hi : i < schedule.frameCount) :
    ∃ f, (source.renderer schedule).frame i = .ok f ∧ a.frames[i.toNat]? = some f.image := by
  have hwithin : i.toNat < a.frames.length :=
    (UInt64.lt_iff_toNat_lt.mp hi).trans_eq (length_of_animateOn h hschedule).symm
  have himage := List.getElem?_eq_getElem hwithin
  obtain ⟨f, hf, hsame⟩ := rendered_of_animateOn h hschedule himage
  rw [UInt64.ofNat_toNat] at hf
  exact ⟨f, hf, hsame ▸ himage⟩

/-- An image with pixels has a file. -/
theorem Image.png_eq_ok {image : Image} (h : image.canvas.hasPixels = true) :
    image.png = .ok (Png.encodeStill image.toBitmap) := by
  obtain ⟨hwidth, hheight⟩ : image.canvas.width ≠ 0 ∧ image.canvas.height ≠ 0 := by
    simpa [Canvas.hasPixels] using h
  rw [png, if_neg hwidth, if_neg hheight]

/-! ## §2 Previews -/

variable {ε : Type} {reader : Bytes → Except ε Raster} {fs : FileSystem} {original : Bytes}
  {source : Source} {i : FrameIndex}

/-- A preview reads the source, renders the frame, and writes it. -/
theorem Settings.preview_eq (hschedule : settings.schedule = .ok schedule) (i : FrameIndex)
    (out : Path) :
    settings.previewWith reader i out = Source.readWith reader settings.input >>= fun source =>
      Job.of ((source.renderer schedule).frame i) >>= fun rendered =>
        Job.of rendered.image.png >>= fun file =>
          replaceFile out file >>= fun _ => pure rendered := by
  rw [previewWith, hschedule]
  rfl

/-- Reading a source on a value goes on with what the file holds. -/
theorem Source.run_read_bind {α : Type} {path : Path} (f : Source → Job α)
    (hread : fs.read path = .ok original)
    (hdecode : Source.decodeFile reader path original = .ok source) :
    (Source.readWith reader path >>= f).run.run fs = (f source).run.run fs := by
  obtain ⟨goOn, hgoOn, hok⟩ : ∃ goOn : Except FileSystem.ReadFault Bytes → Job Source,
      Source.readWith reader path = Job.ask (.read path) >>= goOn ∧
        ∀ file, goOn (.ok file) = Job.of (Source.decodeFile reader path file) :=
    ⟨_, rfl, fun _ => rfl⟩
  have hrun : (Source.readWith reader path >>= f).run.run fs =
      (goOn (fs.read path) >>= f).run.run fs := by
    rw [hgoOn]
    rfl
  rw [hrun, hread, hok, hdecode]
  rfl

/-- **The preview of a frame is that frame of the animation**, of a source in any format that the
reader decodes. A position beyond the schedule is refused and nothing is written. At any other, if
the animation of the same source can be made, on whatever workers, the preview has the cue of the
schedule; its file decodes to the pixels of the animation there; and the preview ends as the
writing of this file does, unless the machine cannot read the source. -/
theorem Settings.preview_agrees_with_animation (hschedule : settings.schedule = .ok schedule)
    (hread : fs.read settings.input = .ok original)
    (hdecode : Source.decodeFile reader settings.input original = .ok source) (i : FrameIndex)
    (out : Path) :
    (schedule.frameCount ≤ i →
      (settings.previewWith reader i out).run.run fs =
        (.error (.validation (.frameOutside i schedule.frameCount)), fs) ∧
      ∀ fresh answer after, (settings.previewWith reader i out).run.Ends fresh fs answer after ↔
        (answer = .error (.validation (.frameOutside i schedule.frameCount)) ∨
          ∃ fault : FileSystem.ReadFault,
            answer = .error (.decode (.cannotRead settings.input fault.reason))) ∧ after = fs) ∧
    (i < schedule.frameCount → ∀ pool threading a stats,
      animateOn pool source settings threading = .ok (a, stats) →
      ∃ frame file, frame.index = i ∧ frame.cue = schedule.cue i ∧
        a.frames[i.toNat]? = some frame.image ∧ Png.decodeStill file = .ok frame.image.toBitmap ∧
        (∀ written after, (replaceFile out file).run.run fs = (written, after) →
          (settings.previewWith reader i out).run.run fs = (written.map fun _ => frame, after)) ∧
        ∀ fresh,
          (∀ answer after, (settings.previewWith reader i out).run.Ends fresh fs answer after ↔
            (∃ written, (replaceFile out file).run.Ends fresh fs written after ∧
              answer = written.map fun _ => frame) ∨
            ∃ fault : FileSystem.ReadFault,
              answer = .error (.decode (.cannotRead settings.input fault.reason)) ∧ after = fs) ∧
          ∀ after, (settings.previewWith reader i out).run.Ends fresh fs (.ok frame) after →
            after.read out = .ok file) := by
  have hgoes {α : Type} {f : Source → Job α} {fresh answer after} :
      (Source.readWith reader settings.input >>= f).run.Ends fresh fs answer after ↔
        (∃ fault : FileSystem.ReadFault,
          answer = .error (.decode (.cannotRead settings.input fault.reason)) ∧ after = fs) ∨
        (f source).run.Ends fresh fs answer after := by
    rw [Source.ends_read_bind]
    refine or_congr_right ⟨?_, fun h => ⟨original, hread, ?_⟩⟩
    · rintro ⟨file, hfile, hrest⟩
      obtain rfl := Except.ok.inj (hread.symm.trans hfile)
      rwa [hdecode, Job.of_ok_bind] at hrest
    · rwa [hdecode, Job.of_ok_bind]
  rw [Settings.preview_eq hschedule]
  refine ⟨fun hout => ?_, fun hi pool threading a stats hanimate => ?_⟩
  · have hrefused := Renderer.frame_eq_error (r := source.renderer schedule) hout
    constructor
    · rw [Source.run_read_bind _ hread hdecode, hrefused, Job.of_error_bind]
      rfl
    · intro fresh answer after
      rw [hgoes, hrefused, Job.of_error_bind, Job.ends_throw]
      constructor
      · rintro (⟨fault, hfault, rfl⟩ | ⟨rfl, rfl⟩)
        · exact ⟨.inr ⟨fault, hfault⟩, rfl⟩
        · exact ⟨.inl rfl, rfl⟩
      · rintro ⟨rfl | ⟨fault, hfault⟩, rfl⟩
        · exact .inr ⟨rfl, rfl⟩
        · exact .inl ⟨fault, hfault, rfl⟩
  · obtain ⟨frame, hframe, himage⟩ := frame_of_animateOn hanimate hschedule hi
    obtain ⟨hindex, hcue⟩ := Renderer.frame_eq_ok hframe
    have hpixels : frame.image.canvas.hasPixels = true := by
      rw [a.canvas_eq _ (List.mem_of_getElem? himage)]
      exact a.hasPixels
    have hpng := Image.png_eq_ok hpixels
    refine ⟨frame, Png.encodeStill frame.image.toBitmap, hindex, hcue, himage,
      Png.decodeStill_encodeStill hpixels, ?_, ?_⟩
    · intro written after hwritten
      rw [Source.run_read_bind _ hread hdecode, hframe, Job.of_ok_bind, hpng, Job.of_ok_bind,
        Job.run_map, hwritten]
    · intro fresh
      have hends : ∀ answer after, (Source.readWith reader settings.input >>= fun source =>
          Job.of ((source.renderer schedule).frame i) >>= fun rendered =>
            Job.of rendered.image.png >>= fun file =>
              replaceFile out file >>= fun _ => pure rendered).run.Ends fresh fs answer after ↔
          (∃ written, (replaceFile out (Png.encodeStill frame.image.toBitmap)).run.Ends fresh fs
            written after ∧ answer = written.map fun _ => frame) ∨
          ∃ fault : FileSystem.ReadFault,
            answer = .error (.decode (.cannotRead settings.input fault.reason)) ∧ after = fs := by
        intro answer after
        rw [hgoes, hframe, Job.of_ok_bind, hpng, Job.of_ok_bind, Job.ends_map, or_comm]
      refine ⟨hends, fun after hend => ?_⟩
      rcases (hends _ _).mp hend with ⟨written, hwritten, hok⟩ | ⟨fault, hfault, -⟩
      · cases written with
        | error e => cases hok
        | ok u =>
          have hover : Replaced fs out (Png.encodeStill frame.image.toBitmap) after :=
            (keeps_replaceFile fresh fs out _).2 _ _ hwritten
          exact hover.read
      · cases hfault

/-- The only frame of an animation of one second, and none after it. -/
theorem Settings.preview_agrees_with_animation_one_frame :
    let input : Path := ⟨[0x6F, 0x2E, 0x70, 0x6E, 0x67]⟩
    let out : Path := ⟨[0x70, 0x2E, 0x70, 0x6E, 0x67]⟩
    let settings : Settings := ⟨input, input, 1, 1.0, 0.0, 0.0, .infinite⟩
    let image : Bitmap := ⟨⟨1, 1⟩, #[⟨200, 10, 30, 128⟩], rfl⟩
    let fs : FileSystem := ⟨[([input.bytes], .file (Png.encodeStill image))], []⟩
    ∃ schedule, settings.schedule = .ok schedule ∧
      fs.read settings.input = .ok (Png.encodeStill image) ∧
      Source.decodeFile Png.reader input (Png.encodeStill image) = .ok ⟨some input, image.toImage⟩ ∧
      ∃ a stats frame file after,
        animateOn Pool.inOrder ⟨some input, image.toImage⟩ settings ⟨true, some 2, true⟩ =
          .ok (a, stats) ∧
        a.frames[0]? = some frame.image ∧
        (settings.previewWith Png.reader 0 out).run.run fs = (.ok frame, after) ∧
        FileSystem.read after out = .ok file ∧ Png.decodeStill file = .ok frame.image.toBitmap ∧
        (settings.previewWith Png.reader 1 out).run.run fs =
          (.error (.validation (.frameOutside 1 1)), fs) := by
  intro input out settings image fs
  have hschedule : settings.schedule = _ := Settings.schedule_one_frame input input .infinite
  have hread : fs.read settings.input = .ok (Png.encodeStill image) := rfl
  have hpixels : image.canvas.hasPixels = true := by decide
  have hdecode : Source.decodeFile Png.reader input (Png.encodeStill image) =
      .ok ⟨some input, image.toImage⟩ := by
    have hsource := Source.decode_encodeStill hpixels
    rw [Source.decode] at hsource
    rw [Source.decodeFile, hsource]
  obtain ⟨a, stats, hanimate⟩ := animateOn_one_frame Pool.inOrder ⟨some input, image.toImage⟩ input
    input .infinite ⟨true, some 2, true⟩ (by decide) (by decide)
  have hpreview := Settings.preview_agrees_with_animation hschedule hread hdecode
  obtain ⟨frame, file, -, -, himage, hfile, hrun, hends⟩ :=
    (hpreview 0 out).2 (by decide) _ _ a stats hanimate
  have hwritten (old new : Bytes) :
      (replaceFile ⟨[0x70, 0x2E, 0x70, 0x6E, 0x67]⟩ new).run.run
          ⟨[([[0x6F, 0x2E, 0x70, 0x6E, 0x67]], .file old)], []⟩ =
        (.ok (), ⟨[([[0x70, 0x2E, 0x70, 0x6E, 0x67]], .file new),
          ([[0x6F, 0x2E, 0x70, 0x6E, 0x67]], .file old)], []⟩) := rfl
  have hdone := hrun _ _ (hwritten _ _)
  have hend := Script.ends_run (settings.previewWith Png.reader 0 out).run fs
  rw [hdone] at hend
  exact ⟨_, hschedule, hread, hdecode, a, stats, frame, file, _, hanimate, himage, hdone,
    (hends _).2 _ hend, hfile, ((hpreview 1 out).1 (by decide)).1⟩

end HueCycle
