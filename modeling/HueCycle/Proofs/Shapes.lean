/-
HueCycle.Proofs.Shapes — dimensions and buffers, from the octets of a file
to the animation.

A reader of image files may know any formats and may be given any octets.
Where it hands out a raster, the source has pixels and four samples for each
of them, and everything that is made of the source has its shape. So the four
faults that `Animation.make` looks for in its frames and its delay never
happen to rendered frames. Main statement: `animateOn_keeps_shape`.
-/
import Mathlib
import HueCycle.Proofs.Families
import HueCycle.Proofs.Png.Rows

namespace HueCycle

open Render

/-! ## §1 Images -/

namespace Image

/-- Two images with the same dimensions and buffers of the same length. -/
def SameShape (a b : Image) : Prop :=
  a.canvas = b.canvas ∧ a.samples.length = b.samples.length

/-- The length of a buffer follows from the dimensions and what is behind the pixels. -/
theorem sameShape_of_kept {a b : Image} (h : a.canvas = b.canvas ∧ a.surplus = b.surplus) :
    a.SameShape b :=
  ⟨h.1, by rw [length_samples, length_samples, h.1, h.2]⟩

end Image

/-! ## §2 Sources -/

namespace Source

variable {ε : Type}

/-- A source with pixels and a buffer that holds four samples for each of them. -/
structure WellShaped (source : Source) : Prop where
  width_pos : 0 < source.canvas.width.toNat
  height_pos : 0 < source.canvas.height.toNat
  length_eq : source.image.samples.length =
    4 * (source.canvas.width.toNat * source.canvas.height.toNat)

theorem wellShaped_of_hasPixels {source : Source} (h : source.canvas.hasPixels = true)
    (hexact : source.image.surplus = []) : source.WellShaped where
  width_pos := Png.toNat_width_pos h
  height_pos := by
    refine Nat.pos_of_ne_zero fun hzero => ?_
    have hheight : source.canvas.height = 0 := UInt32.toNat_inj.mp hzero
    simp [Canvas.hasPixels, hheight] at h
  length_eq := by
    rw [Image.length_samples, hexact]
    rfl

theorem WellShaped.hasPixels {source : Source} (h : source.WellShaped) :
    source.canvas.hasPixels = true := by
  have hwidth : source.canvas.width ≠ 0 := fun hzero =>
    h.width_pos.ne' (congrArg UInt32.toNat hzero)
  have hheight : source.canvas.height ≠ 0 := fun hzero =>
    h.height_pos.ne' (congrArg UInt32.toNat hzero)
  simp [Canvas.hasPixels, hwidth, hheight]

/-- A fault of decoding, or a source with pixels. -/
def FaultOrShaped (answer : Except Error Source) : Prop :=
  (∃ fault, answer = .error (.decode fault)) ∨ ∃ source, answer = .ok source ∧ source.WellShaped

/-- **Decoding any octets** with any reader. -/
theorem faultOrShaped_decodeWith (reader : Bytes → Except ε Raster) (file : Bytes) :
    FaultOrShaped (decodeWith reader file) :=
  (decodeWith_cases reader file).imp_right fun ⟨source, hsource, hpixels, hexact⟩ =>
    ⟨source, hsource, wellShaped_of_hasPixels hpixels hexact⟩

/-- The red baseline has the shape of its source. -/
theorem sameShape_baseline (source : Source) : source.baseline.SameShape source.image :=
  Image.sameShape_of_kept ⟨Image.canvas_map _ _, Image.surplus_map _ _⟩

end Source

/-! ## §3 The animation -/

/-- **The shape of a source goes all the way.** Any octets decode to a fault of decoding or to a
source with pixels and four samples for each of them, with the reader of PNG files and with any
other. Where the frames of a source are rendered, the baseline and every frame have its shape, an
animation is made of them, and its canvas is that of the source. Where no animation is made, the
reason is never that there are no frames, that a frame is empty or of another size, or that the
delay has no denominator. -/
theorem animateOn_keeps_shape {ε : Type} (reader : Bytes → Except ε Raster) :
    (∀ file, Source.FaultOrShaped (Source.decode file) ∧
      Source.FaultOrShaped (Source.decodeWith reader file)) ∧
    ∀ source : Source, source.WellShaped → ∀ pool settings threading,
      (∀ schedule frames stats, settings.schedule = .ok schedule →
        (source.renderer schedule).framesOn pool schedule.range threading = .ok (frames, stats) →
        source.baseline.SameShape source.image ∧ (∀ f ∈ frames, f.image.SameShape source.image) ∧
        ∃ a, Animation.make (frames.map Frame.image) schedule.delay settings.loopMode = .ok a ∧
          a.canvas = source.canvas ∧ animateOn pool source settings threading = .ok (a, stats)) ∧
      ∀ e, animateOn pool source settings threading = .error e →
        e ≠ .config .framesMissing ∧ (∀ canvas, e ≠ .config (.framesEmpty canvas)) ∧
        (∀ index got expected, e ≠ .config (.sizeMismatch index got expected)) ∧
        e ≠ .config .delayWithoutDenominator := by
  refine ⟨fun file => ⟨Source.faultOrShaped_decodeWith Png.reader file,
    Source.faultOrShaped_decodeWith reader file⟩, ?_⟩
  · intro source hshaped pool settings threading
    refine ⟨fun schedule frames stats hschedule hframes => ?_, fun e he => ?_⟩
    · have hkept := Source.kept_of_framesOn hframes
      refine ⟨source.sameShape_baseline, fun f hf => Image.sameShape_of_kept (hkept f hf), ?_⟩
      obtain ⟨a, hmake⟩ := Animation.make_of_framesOn hschedule
        (Settings.frameCount_ne_zero hschedule) hshaped.hasPixels hframes
      refine ⟨a, hmake, Animation.canvas_eq_of_frames fun image himage => ?_,
        animateOn_of_make hschedule hframes hmake⟩
      rw [(Animation.make_eq_ok hmake).1] at himage
      obtain ⟨f, hf, rfl⟩ := List.mem_map.mp himage
      exact (hkept f hf).1
    · have hother : ∀ fault : ConfigFault, fault.isTiming = false → e ≠ .config fault := by
        rintro fault hother rfl
        rcases animateOn_eq_error_family hshaped.hasPixels he with
          ⟨_, htiming, hsame⟩ | ⟨_, hvalidation⟩
        · cases hsame
          rw [hother] at htiming
          cases htiming
        · cases hvalidation
      exact ⟨hother _ rfl, fun _ => hother _ rfl, fun _ _ _ => hother _ rfl, hother _ rfl⟩

/-- One pixel, shown once. -/
theorem animateOn_keeps_shape_one_frame :
    let path : Path := ⟨[0x6F, 0x2E, 0x70, 0x6E, 0x67]⟩
    let settings : Settings := ⟨path, path, 1, 1.0, 0.0, 0.0, .infinite⟩
    let source : Source := ⟨none, ⟨⟨⟨1, 1⟩, #[⟨200, 10, 30, 128⟩], rfl⟩, []⟩⟩
    let threading : Threading := ⟨true, some 2, true⟩
    source.WellShaped ∧ ∃ schedule frames stats a, settings.schedule = .ok schedule ∧
      (source.renderer schedule).framesOn Pool.inOrder schedule.range threading =
        .ok (frames, stats) ∧
      (∀ f ∈ frames, f.image.SameShape source.image) ∧
      animateOn Pool.inOrder source settings threading = .ok (a, stats) ∧ a.canvas = ⟨1, 1⟩ := by
  intro path settings source threading
  have hpixels : source.canvas.hasPixels = true := by decide
  have hshaped := Source.wellShaped_of_hasPixels hpixels rfl
  obtain ⟨_, _, hanimate⟩ := animateOn_one_frame Pool.inOrder source path path .infinite threading
    hpixels (by decide)
  obtain ⟨schedule, hschedule, hrendering⟩ := bind_eq_ok.mp hanimate
  obtain ⟨⟨frames, stats⟩, hframes, -⟩ := bind_eq_ok.mp hrendering
  obtain ⟨-, hkeeps⟩ := animateOn_keeps_shape Png.reader
  obtain ⟨-, hsame, a, -, hcanvas, hmade⟩ :=
    (hkeeps source hshaped Pool.inOrder settings threading).1 schedule frames stats hschedule hframes
  exact ⟨hshaped, schedule, frames, stats, a, hschedule, hframes, hsame, hmade, hcanvas⟩

end HueCycle
