/-
HueCycle.Proofs.AnimationMaking — which frames make an animation, and why its
file cannot fail half-way.

An animation is made of frames of one size, with pixels, and a delay with a
denominator. Of frames that differ in size the first one is reported
(`firstMismatch?_eq_some_iff`). What was checked when an animation was made is
all that its encoder asks for later of frames with nothing behind their pixels:
a header with pixels, a number of frames above zero, and frames of as many
samples as the header says. So no step after the first two checks is refused,
by any encoder that keeps to what such encoders promise (`Encoder.Keeps`). The
invariant of the frame loop is that the stream has as many frames to come as
the animation has left.

  §1 Sizes    — the first frame of another size
  §2 Making   — what is accepted and what is reported
  §3 Encoders — what is relied on of an encoder
  §4 Steps    — the frame loop, and the whole file
  §5 Movies   — the encoder of movies
  §6 Animations — `Animation.made_of_one_size`
-/
import Mathlib
import HueCycle.Encoding
import HueCycle.Proofs.AnimationFile
import HueCycle.Proofs.Animate

namespace HueCycle

/-! ## §1 Sizes -/

/-- Position `k` holds the first frame whose size is not that of the frame at zero. -/
def FirstMismatch (frames : List Image) (k : ℕ) (got expected : Canvas) : Prop :=
  frames.head?.map (·.canvas) = some expected ∧ frames[k]?.map (·.canvas) = some got ∧
    got ≠ expected ∧ ∀ j < k, frames[j]?.map (·.canvas) = some expected

theorem firstMismatch?_eq_some_iff {expected got : Canvas} {frames : List Image} {index k : ℕ} :
    firstMismatch? expected index frames = some (k, got) ↔
      ∃ j, k = index + j ∧ frames[j]?.map (·.canvas) = some got ∧ got ≠ expected ∧
        ∀ i < j, frames[i]?.map (·.canvas) = some expected := by
  induction frames generalizing index with
  | nil => simp [firstMismatch?]
  | cons f rest ih =>
    rw [firstMismatch?]
    by_cases hf : f.canvas = expected
    · rw [if_pos hf, ih]
      constructor
      · rintro ⟨j, rfl, hgot, hne, hbefore⟩
        refine ⟨j + 1, by omega, hgot, hne, fun i hi => ?_⟩
        cases i with
        | zero => exact congrArg some hf
        | succ i => exact hbefore i (by omega)
      · rintro ⟨j, rfl, hgot, hne, hbefore⟩
        cases j with
        | zero => exact absurd (Option.some.inj hgot) (hf.trans_ne hne.symm)
        | succ j => exact ⟨j, by omega, hgot, hne, fun i hi => hbefore (i + 1) (by omega)⟩
    · rw [if_neg hf, Option.some.injEq, Prod.mk.injEq]
      constructor
      · rintro ⟨rfl, rfl⟩
        exact ⟨0, rfl, rfl, hf, fun i hi => absurd hi (Nat.not_lt_zero i)⟩
      · rintro ⟨j, rfl, hgot, hne, hbefore⟩
        cases j with
        | zero => exact ⟨rfl, Option.some.inj hgot⟩
        | succ j => exact absurd (Option.some.inj (hbefore 0 (Nat.succ_pos j))) hf

/-- Among the later frames, the first one of another size is the first mismatch. -/
theorem firstMismatch_cons_iff {first : Image} {rest : List Image} {k : ℕ} {got expected : Canvas} :
    FirstMismatch (first :: rest) k got expected ↔
      expected = first.canvas ∧ firstMismatch? first.canvas 1 rest = some (k, got) := by
  rw [firstMismatch?_eq_some_iff, FirstMismatch]
  constructor
  · rintro ⟨hexpected, hgot, hne, hbefore⟩
    obtain rfl : first.canvas = expected := Option.some.inj hexpected
    cases k with
    | zero => exact absurd (Option.some.inj hgot).symm hne
    | succ k => exact ⟨rfl, k, by omega, hgot, hne, fun i hi => hbefore (i + 1) (by omega)⟩
  · rintro ⟨rfl, j, rfl, hgot, hne, hbefore⟩
    rw [Nat.add_comm]
    refine ⟨rfl, hgot, hne, fun i hi => ?_⟩
    cases i with
    | zero => rfl
    | succ i => exact hbefore i (by omega)

/-! ## §2 Making -/

namespace Animation

variable {frames : List Image} {delay : FrameDelay} {mode : LoopMode}

theorem make_eq_error_iff {e : Error} : make frames delay mode = .error e ↔
    commonCanvas frames = .error e ∨ (∃ canvas, commonCanvas frames = .ok canvas) ∧
      delay.den = 0 ∧ e = .config .delayWithoutDenominator := by
  unfold make
  split
  · rename_i fault hfault
    constructor
    · intro h
      exact .inl (hfault.trans (congrArg _ (Except.error.inj h)))
    · rintro (h | ⟨⟨canvas, h⟩, -⟩)
      · exact congrArg _ (Except.error.inj (hfault.symm.trans h))
      · cases hfault.symm.trans h
  · rename_i canvas hcanvas
    constructor
    · intro h
      split at h
      · rename_i hden
        exact .inr ⟨⟨canvas, hcanvas⟩, hden, (Except.error.inj h).symm⟩
      · cases h
    · rintro (h | ⟨-, hden, rfl⟩)
      · cases hcanvas.symm.trans h
      · exact dif_pos hden

/-- **What is accepted**: at least one frame, the first one with pixels, all of its size, and a
delay with a denominator. -/
theorem make_isOk_iff : (∃ a, make frames delay mode = .ok a) ↔
    ∃ first, frames.head? = some first ∧ first.canvas.width ≠ 0 ∧ first.canvas.height ≠ 0 ∧
      (∀ f ∈ frames, f.canvas = first.canvas) ∧ delay.den ≠ 0 := by
  constructor
  · rintro ⟨a, ha⟩
    obtain ⟨rfl, rfl, -⟩ := make_eq_ok ha
    obtain ⟨first, rest, hframes⟩ := List.exists_cons_of_ne_nil a.frames_ne_nil
    have hfirst : first.canvas = a.canvas := a.canvas_eq first (hframes ▸ List.mem_cons_self)
    have hpixels := a.hasPixels
    rw [Canvas.hasPixels, Bool.and_eq_true, bne_iff_ne, bne_iff_ne] at hpixels
    rw [← hfirst] at hpixels
    exact ⟨first, by rw [hframes]; rfl, hpixels.1, hpixels.2,
      fun f hf => (a.canvas_eq f hf).trans hfirst.symm, a.den_ne_zero⟩
  · rintro ⟨first, hfirst, hwidth, hheight, hsame, hden⟩
    have hne : frames ≠ [] := by
      rintro rfl
      cases hfirst
    have hpixels : first.canvas.hasPixels = true := by
      rw [Canvas.hasPixels, Bool.and_eq_true, bne_iff_ne, bne_iff_ne]
      exact ⟨hwidth, hheight⟩
    exact make_isOk mode hne hsame hpixels hden

/-- **What is reported of frames that differ in size**: the first one that does, where the frame
that the others are compared with has pixels. -/
theorem make_eq_sizeMismatch_iff {k : ℕ} {got expected : Canvas} :
    make frames delay mode = .error (.config (.sizeMismatch k got expected)) ↔
      FirstMismatch frames k got expected ∧ expected.hasPixels = true := by
  rw [make_eq_error_iff]
  cases frames with
  | nil => simp [commonCanvas, FirstMismatch]
  | cons first rest =>
    rw [firstMismatch_cons_iff, commonCanvas]
    cases hpixels : first.canvas.hasPixels with
    | false =>
      simp only [Bool.not_false, if_true]
      constructor
      · rintro (h | ⟨⟨canvas, h⟩, -⟩) <;> cases h
      · rintro ⟨⟨rfl, -⟩, h⟩
        rw [hpixels] at h
        cases h
    | true =>
      simp only [Bool.not_true, Bool.false_eq_true, if_false]
      cases hmismatch : firstMismatch? first.canvas 1 rest with
      | none =>
        constructor
        · rintro (h | ⟨-, -, h⟩) <;> cases h
        · rintro ⟨⟨-, h⟩, -⟩
          cases h
      | some found =>
        obtain ⟨index, canvas⟩ := found
        constructor
        · rintro (h | ⟨⟨other, h⟩, -⟩)
          · obtain ⟨⟩ := h
            exact ⟨⟨rfl, rfl⟩, hpixels⟩
          · cases h
        · rintro ⟨⟨rfl, h⟩, -⟩
          obtain ⟨⟩ := h
          exact .inl rfl

/-- Frames that differ in size have a first one that does. -/
theorem exists_firstMismatch {first : Image} (hfirst : frames.head? = some first)
    (hdiffer : ∃ f ∈ frames, f.canvas ≠ first.canvas) :
    ∃ k got, FirstMismatch frames k got first.canvas := by
  obtain ⟨f, hf, hne⟩ := hdiffer
  cases frames with
  | nil => cases hfirst
  | cons g rest =>
    obtain rfl := Option.some.inj hfirst
    cases hmismatch : firstMismatch? g.canvas 1 rest with
    | some found => exact ⟨found.1, found.2, firstMismatch_cons_iff.mpr ⟨rfl, hmismatch⟩⟩
    | none =>
      rcases List.mem_cons.mp hf with rfl | hrest
      · exact absurd rfl hne
      · exact absurd (canvas_eq_of_firstMismatch? hmismatch f hrest) hne

/-- Every animation is one that can be made. -/
theorem make_self (a : Animation) : make a.frames a.delay a.loopMode = .ok a := by
  obtain ⟨made, hmade⟩ := make_isOk a.loopMode a.frames_ne_nil a.canvas_eq a.hasPixels a.den_ne_zero
  obtain ⟨hframes, hdelay, hmode⟩ := make_eq_ok hmade
  have hcanvas : made.canvas = a.canvas :=
    canvas_eq_of_frames fun f hf => a.canvas_eq f (hframes ▸ hf)
  rw [hmade]
  cases made
  cases a
  simp only [Except.ok.injEq, mk.injEq]
  exact ⟨hframes, hcanvas, hdelay, hmode⟩

end Animation

/-! ## §3 Encoders -/

namespace Png

/-- What an encoder has been told before the header. -/
structure Told where
  canvas : Canvas
  /-- The number of frames, if an animation is announced. -/
  frames : Option UInt32

/-- What a file is waiting for after its header. -/
structure Due where
  /-- The number of samples of each frame. -/
  samples : ℕ
  /-- The number of announced frames that have not come. -/
  frames : ℕ

/-- A setting of frames is taken where an animation is announced, and refused elsewhere. -/
def Encoder.SetsFrames {e : Encoder} (told : e.Draft → Told)
    (set : e.Draft → Except String e.Draft) : Prop :=
  ∀ d, ((told d).frames.isSome = true → ∃ d', set d = .ok d' ∧ told d' = told d) ∧
    ((told d).frames = none → ∃ reason, set d = .error reason)

/-- What is relied on of an encoder. An animation has at least one frame, only animations have
settings of frames, an image has pixels, and a frame has the samples that the header says. What
keeps to this is not refused, and the announced frames that have come can be closed. -/
structure Encoder.Keeps (e : Encoder) (told : e.Draft → Told) (due : e.Stream → Due) : Prop where
  create (canvas : Canvas) : told (e.create canvas) = ⟨canvas, none⟩
  setAnimated (frames plays : UInt32) (d : e.Draft) : frames ≠ 0 →
    ∃ d', e.setAnimated frames plays d = .ok d' ∧ told d' = ⟨(told d).canvas, some frames⟩
  setAnimated_zero (plays : UInt32) (d : e.Draft) : ∃ reason, e.setAnimated 0 plays d = .error reason
  setDelay (delay : FrameDelay) : SetsFrames told (e.setDelay delay)
  setBlend (blend : Blend) : SetsFrames told (e.setBlend blend)
  setDispose (dispose : Dispose) : SetsFrames told (e.setDispose dispose)
  writeHeader (frames : UInt32) (d : e.Draft) : (told d).frames = some frames →
    (told d).canvas.hasPixels = true →
    ∃ s, e.writeHeader d = .ok s ∧ due s = ⟨4 * (told d).canvas.area, frames.toNat⟩
  writeHeader_empty (d : e.Draft) : (told d).canvas.hasPixels = false →
    ∃ reason, e.writeHeader d = .error reason
  writeFrame (samples : Bytes) (s : e.Stream) : samples.length = (due s).samples →
    (due s).frames ≠ 0 →
    ∃ s', e.writeFrame samples s = .ok s' ∧ due s' = ⟨(due s).samples, (due s).frames - 1⟩
  writeFrame_size (samples : Bytes) (s : e.Stream) : samples.length ≠ (due s).samples →
    ∃ reason, e.writeFrame samples s = .error reason
  finish (s : e.Stream) : (due s).frames = 0 → ∃ file, e.finish s = .ok file

end Png

/-! ## §4 Steps -/

section Steps

variable {e : Png.Encoder} {told : e.Draft → Png.Told} {due : e.Stream → Png.Due}

/-- A step that is taken has no error. -/
theorem attempt_bind {α β : Type} {what : String} {answer : Except String α} {x : α}
    (h : answer = .ok x) (f : α → Except Error β) : attempt what answer >>= f = f x := by
  rw [h]
  rfl

/-- A step that is refused is named in the error. -/
theorem attempt_bind_error {α β : Type} {what reason : String} {answer : Except String α}
    (h : answer = .error reason) (f : α → Except Error β) :
    attempt what answer >>= f = .error (.encode (.refused what reason)) := by
  rw [h]
  rfl

/-- **The frame loop is not left early**: frames of the announced size with nothing behind their
pixels are all taken while they are due. -/
theorem writeFrames_isOk (h : e.Keeps told due) {canvas : Canvas} {frames : List Image}
    (hsize : ∀ f ∈ frames, f.canvas = canvas) (hexact : ∀ f ∈ frames, f.surplus = []) (index : ℕ)
    {s : e.Stream} (hdue : due s = ⟨4 * canvas.area, frames.length⟩) :
    ∃ s', writeFrames e index frames s = .ok s' ∧ due s' = ⟨4 * canvas.area, 0⟩ := by
  induction frames generalizing index s with
  | nil => exact ⟨s, rfl, hdue⟩
  | cons f rest ih =>
    have hsamples : f.samples.length = (due s).samples := by
      rw [Image.length_samples, hexact f List.mem_cons_self, hsize f List.mem_cons_self, hdue]
      rfl
    obtain ⟨s', hs', hnext⟩ := h.writeFrame f.samples s hsamples (by rw [hdue]; simp)
    rw [hdue] at hnext
    obtain ⟨last, hlast, hdone⟩ := ih (fun g hg => hsize g (List.mem_cons_of_mem _ hg))
      (fun g hg => hexact g (List.mem_cons_of_mem _ hg)) (index + 1) hnext
    exact ⟨last, (attempt_bind hs' _).trans hlast, hdone⟩

/-- The number of frames, stated in 32 bits, is not zero. -/
theorem Animation.length_ne_zero (a : Animation) (hlength : a.length < 0x100000000) :
    UInt32.ofNat a.length ≠ 0 := by
  intro hzero
  have hcount := UInt32.toNat_ofNat_of_lt' hlength
  rw [hzero] at hcount
  exact a.frames_ne_nil (List.length_eq_zero_iff.mp hcount.symm)

/-- Where the plays and the number of frames can be stated, every step is taken. -/
theorem Animation.encodeWith_isOk (h : e.Keeps told due) {a : Animation}
    (hmode : a.loopMode ≠ .finite 0) (hlength : a.length < 0x100000000)
    (hexact : ∀ f ∈ a.frames, f.surplus = []) :
    ∃ file, a.encodeWith e = .ok file := by
  have hcount : (UInt32.ofNat a.length).toNat = a.length := UInt32.toNat_ofNat_of_lt' hlength
  obtain ⟨draft, hanimated, htold⟩ := h.setAnimated _ a.loopMode.count (e.create a.canvas)
    (a.length_ne_zero hlength)
  rw [h.create] at htold
  obtain ⟨draft', hdelay, hsame⟩ := (h.setDelay a.delay draft).1 (by rw [htold]; rfl)
  rw [htold] at hsame
  obtain ⟨draft'', hblend, hsame'⟩ := (h.setBlend .source draft').1 (by rw [hsame]; rfl)
  rw [hsame] at hsame'
  obtain ⟨last, hdispose, hsame''⟩ := (h.setDispose .stay draft'').1 (by rw [hsame']; rfl)
  rw [hsame'] at hsame''
  obtain ⟨stream, hheader, hdue⟩ := h.writeHeader (UInt32.ofNat a.length) last (by rw [hsame''])
    (by rw [hsame'']; exact a.hasPixels)
  rw [hsame'', hcount] at hdue
  obtain ⟨done, hframes, hnone⟩ := writeFrames_isOk h a.canvas_eq hexact 0 hdue
  obtain ⟨file, hfile⟩ := h.finish done (by rw [hnone])
  refine ⟨file, ?_⟩
  rw [encodeWith, LoopMode.plays_eq_ok hmode]
  show (if 0x100000000 ≤ a.length then _ else _) = _
  rw [if_neg (not_le.mpr hlength), attempt_bind hanimated, attempt_bind hdelay,
    attempt_bind hblend, attempt_bind hdispose, attempt_bind hheader, hframes]
  exact congrArg (attempt _) hfile

/-- **The whole file** of frames with nothing behind their pixels: what is refused is refused before
the encoder is asked. -/
theorem Animation.encodeWith_eq_error_iff (h : e.Keeps told due) {a : Animation}
    (hexact : ∀ f ∈ a.frames, f.surplus = []) {fault : Error} :
    a.encodeWith e = .error fault ↔
      a.loopMode = .finite 0 ∧ fault = .config .playsZero ∨
      a.loopMode ≠ .finite 0 ∧ 0xFFFFFFFF < a.length ∧ fault = .encode (.tooManyFrames a.length) := by
  by_cases hmode : a.loopMode = .finite 0
  · have hrefused : a.encodeWith e = .error (.config .playsZero) := by
      rw [encodeWith, hmode]
      rfl
    rw [hrefused]
    simp [hmode, eq_comm]
  · by_cases hlength : a.length < 0x100000000
    · obtain ⟨file, hfile⟩ := encodeWith_isOk h hmode hlength hexact
      rw [hfile]
      constructor
      · intro hnone
        cases hnone
      · rintro (⟨hzero, -⟩ | ⟨-, hlong, -⟩)
        · exact absurd hzero hmode
        · omega
    · have hrefused : a.encodeWith e = .error (.encode (.tooManyFrames a.length)) := by
        rw [encodeWith, LoopMode.plays_eq_ok hmode]
        exact if_pos (not_lt.mp hlength)
      have hlong : 0xFFFFFFFF < a.length := by omega
      rw [hrefused]
      simp [hmode, hlong, eq_comm]

end Steps

/-! ## §5 Movies -/

namespace Png

/-- What the encoder of movies has been told. -/
def MovieDraft.told (d : MovieDraft) : Told := ⟨d.canvas, d.animation.map AnimationControl.frames⟩

/-- What a movie is waiting for. -/
def MovieStream.due (s : MovieStream) : Due :=
  ⟨4 * s.movie.canvas.area, s.announced.toNat - s.movie.frames.length⟩

/-- The samples of a bitmap are the bitmap. -/
theorem bitmapOf?_samples (image : Bitmap) : bitmapOf? image.canvas image.samples = some image := by
  have hpixels : (Pixel.ofSamples image.samples).toArray = image.pixels := by
    rw [Bitmap.samples, Pixel.ofSamples_flatMap_samples]
  rw [bitmapOf?, if_pos (length_samples image), hpixels, Bitmap.ofPixels?, dif_pos image.size_eq]

theorem length_ofSamples (samples : Bytes) :
    (Pixel.ofSamples samples).length = samples.length / 4 := by
  induction samples using Pixel.ofSamples.induct with
  | case1 r g b a rest ih => simp [Pixel.ofSamples, ih]; omega
  | case2 samples hshort =>
    match samples with
    | [] | [_] | [_, _] | [_, _, _] => simp [Pixel.ofSamples]
    | r :: g :: b :: a :: rest => exact absurd rfl (hshort r g b a rest)

/-- Samples make a bitmap exactly if their number fits. -/
theorem isSome_bitmapOf? {canvas : Canvas} {samples : Bytes} :
    (bitmapOf? canvas samples).isSome = true ↔ samples.length = 4 * canvas.area := by
  rw [bitmapOf?]
  split
  · rename_i hlength
    have hsize : (Pixel.ofSamples samples).toArray.size = canvas.area := by
      rw [List.size_toArray, length_ofSamples]
      omega
    simp [Bitmap.ofPixels?, hsize, hlength]
  · rename_i hlength
    simp [hlength]

/-- A frame that is added is no longer due. -/
theorem MovieStream.due_push (s : MovieStream) (image : Bitmap) :
    (s.push image).due = ⟨s.due.samples, s.due.frames - 1⟩ := by
  rw [due, push, List.length_append, List.length_singleton, Nat.sub_add_eq, due]

theorem MovieStream.add_eq {samples : Bytes} {s : MovieStream} {image : Bitmap}
    (h : bitmapOf? s.movie.canvas samples = some image) : s.add samples = .ok (s.push image) := by
  rw [add, h]

theorem MovieStream.add_eq_error {samples : Bytes} {s : MovieStream}
    (h : bitmapOf? s.movie.canvas samples = none) : s.add samples =
      .error (wrongSize (4 * s.movie.canvas.area) samples.length) := by
  rw [add, h]

theorem setsFrames_change (f : FrameControl → FrameControl) :
    Encoder.SetsFrames (e := writer) MovieDraft.told (MovieDraft.change f) := by
  rintro ⟨canvas, animation, control⟩
  cases animation with
  | none => exact ⟨fun h => absurd h Bool.false_ne_true, fun _ => ⟨_, rfl⟩⟩
  | some animation => exact ⟨fun _ => ⟨_, rfl, rfl⟩, fun h => absurd h (Option.some_ne_none _)⟩

/-- **The encoder of movies is such an encoder.** -/
theorem writer_keeps : writer.Keeps MovieDraft.told MovieStream.due where
  create canvas := rfl
  setAnimated frames plays d hframes := ⟨_, if_neg hframes, rfl⟩
  setAnimated_zero plays d := ⟨_, rfl⟩
  setDelay delay := setsFrames_change fun c => { c with delay }
  setBlend blend := setsFrames_change fun c => { c with blend := blend.code }
  setDispose dispose := setsFrames_change fun c => { c with dispose := dispose.code }
  writeHeader frames d hframes hpixels := by
    obtain ⟨canvas, animation, control⟩ := d
    obtain ⟨animation, rfl, rfl⟩ := Option.map_eq_some_iff.mp hframes
    change canvas.hasPixels = true at hpixels
    rw [Canvas.hasPixels, Bool.and_eq_true, bne_iff_ne, bne_iff_ne] at hpixels
    exact ⟨_, (if_neg hpixels.1).trans (if_neg hpixels.2), rfl⟩
  writeHeader_empty d hempty := by
    by_cases hwidth : d.canvas.width = 0
    · exact ⟨_, if_pos hwidth⟩
    · have hheight : d.canvas.height = 0 := by
        change (d.canvas.width != 0 && d.canvas.height != 0) = false at hempty
        simpa [hwidth] using hempty
      exact ⟨_, (if_neg hwidth).trans (if_pos hheight)⟩
  writeFrame samples s hlength hdue := by
    obtain ⟨image, himage⟩ := Option.isSome_iff_exists.mp (isSome_bitmapOf?.mpr hlength)
    exact ⟨_, MovieStream.add_eq himage, MovieStream.due_push s image⟩
  writeFrame_size samples s hlength := ⟨_, MovieStream.add_eq_error (if_neg hlength)⟩
  finish s hdue := ⟨_, rfl⟩

/-- Frames are added to a movie one by one, up to the first one with a longer buffer. -/
theorem writeFrames_writer (frames : List Image) (index : ℕ) (s : MovieStream)
    (hsize : ∀ f ∈ frames, f.canvas = s.movie.canvas) :
    writeFrames writer index frames s = match Animation.firstLonger? index frames with
      | none => .ok ((frames.map Image.toBitmap).foldl MovieStream.push s)
      | some (k, f) => .error (Animation.longerFrame s.movie.canvas k f) := by
  induction frames generalizing index s with
  | nil => rfl
  | cons f rest ih =>
    have hfirst := hsize f List.mem_cons_self
    rw [Animation.firstLonger?]
    cases hsurplus : f.surplus with
    | nil =>
      have hbitmap : bitmapOf? s.movie.canvas f.samples = some f.toBitmap := by
        rw [Image.samples, hsurplus, List.append_nil, ← hfirst, bitmapOf?_samples]
      refine (attempt_bind (MovieStream.add_eq hbitmap) _).trans ?_
      exact ih (index + 1) (s.push f.toBitmap) fun g hg => hsize g (List.mem_cons_of_mem _ hg)
    | cons b more =>
      have hlonger : f.samples.length ≠ 4 * s.movie.canvas.area := by
        rw [Image.length_samples, hfirst, hsurplus, List.length_cons]
        omega
      have hrefused : writer.writeFrame f.samples s =
          .error (wrongSize (4 * s.movie.canvas.area) f.samples.length) :=
        MovieStream.add_eq_error (if_neg hlonger)
      exact attempt_bind_error hrefused _

theorem movie_foldl_push (frames : List Bitmap) (s : MovieStream) :
    (frames.foldl MovieStream.push s).movie =
      ⟨s.movie.canvas, s.movie.plays, s.movie.frames ++ frames.map (⟨s.control, ·⟩)⟩ := by
  induction frames generalizing s with
  | nil => rw [List.map_nil, List.append_nil]; rfl
  | cons f rest ih =>
    rw [List.foldl_cons, ih (s.push f), List.map_cons, List.append_cons]
    rfl

end Png

/-- **Step by step the encoder of movies writes the file of the animation.** -/
theorem Animation.encodeWith_writer (a : Animation) : a.encodeWith Png.writer = a.encode := by
  by_cases hmode : a.loopMode = .finite 0
  · rw [encodeWith, encode, hmode]
    rfl
  · by_cases hlength : a.length < 0x100000000
    · rw [encode_eq hmode hlength, encodeWith, LoopMode.plays_eq_ok hmode]
      show (if 0x100000000 ≤ a.length then _ else _) = _
      rw [if_neg (not_le.mpr hlength)]
      have hpixels := a.hasPixels
      rw [Canvas.hasPixels, Bool.and_eq_true, bne_iff_ne, bne_iff_ne] at hpixels
      let control (delay : FrameDelay) : Png.FrameControl := .full a.canvas delay
      let draft (delay : FrameDelay) : Png.MovieDraft :=
        ⟨a.canvas, some ⟨UInt32.ofNat a.length, a.loopMode.count⟩, control delay⟩
      let stream : Png.MovieStream :=
        ⟨UInt32.ofNat a.length, control a.delay, ⟨a.canvas, a.loopMode.count, []⟩⟩
      have hanimated : Png.writer.setAnimated (UInt32.ofNat a.length) a.loopMode.count
          (Png.writer.create a.canvas) = .ok (draft ⟨1, 30⟩) :=
        if_neg (a.length_ne_zero hlength)
      have hheader : Png.writer.writeHeader (draft a.delay) = .ok stream :=
        (if_neg hpixels.1).trans (if_neg hpixels.2)
      refine (attempt_bind hanimated _).trans ?_
      refine (attempt_bind (x := draft a.delay) rfl _).trans ?_
      refine (attempt_bind (x := draft a.delay) rfl _).trans ?_
      refine (attempt_bind (x := draft a.delay) rfl _).trans ?_
      refine (attempt_bind hheader _).trans ?_
      rw [Png.writeFrames_writer a.frames 0 stream a.canvas_eq]
      cases firstLonger? 0 a.frames with
      | none =>
        show Except.ok ((a.frames.map Image.toBitmap).foldl Png.MovieStream.push stream).movie.encode
          = _
        rw [Png.movie_foldl_push, List.map_map]
        rfl
      | some found => rfl
    · have hmany := not_lt.mp hlength
      rw [encode_eq_tooManyFrames hmode hmany, encodeWith, LoopMode.plays_eq_ok hmode]
      exact if_pos hmany

/-! ## §6 Animations -/

namespace Animation

/-- **Animations are made of frames of one size, and do not fail half-way.** An animation is made
exactly if there is a frame, the first frame has pixels, all have its size, and the delay has a
denominator. Where the first frame has pixels and not all have its size, the error names the first
position of another size with both sizes, and it names them in no other case. Every animation has a
frame, and all its frames have its canvas. With nothing behind the pixels of its frames, its file,
step by step with any encoder that keeps to what encoders promise, fails exactly if it would play
zero times or has more frames than 32 bits can state; the error says which, so no step of the
encoder is refused. The file itself is written by such an encoder. -/
theorem made_of_one_size :
    (∀ frames delay mode, (∃ a, make frames delay mode = .ok a) ↔
      ∃ first, frames.head? = some first ∧ first.canvas.width ≠ 0 ∧ first.canvas.height ≠ 0 ∧
        (∀ f ∈ frames, f.canvas = first.canvas) ∧ delay.den ≠ 0) ∧
    (∀ frames delay mode first, frames.head? = some first → first.canvas.hasPixels = true →
      (∃ f ∈ frames, f.canvas ≠ first.canvas) →
      ∃ k got, make frames delay mode = .error (.config (.sizeMismatch k got first.canvas)) ∧
        FirstMismatch frames k got first.canvas) ∧
    (∀ frames delay mode k got expected,
      make frames delay mode = .error (.config (.sizeMismatch k got expected)) ↔
        FirstMismatch frames k got expected ∧ expected.hasPixels = true) ∧
    ∀ a : Animation, make a.frames a.delay a.loopMode = .ok a ∧ a.isEmpty = false ∧
      (∀ f ∈ a.frames, f.canvas = a.canvas) ∧
      (∃ told due, Png.writer.Keeps told due ∧ a.encodeWith Png.writer = a.encode) ∧
      ((∀ f ∈ a.frames, f.surplus = []) →
        ((∃ fault, a.encode = .error fault) ↔ a.loopMode = .finite 0 ∨ 0xFFFFFFFF < a.length) ∧
        ∀ (e : Png.Encoder) (told : e.Draft → Png.Told) (due : e.Stream → Png.Due),
          e.Keeps told due → ∀ fault, a.encodeWith e = .error fault ↔
            a.loopMode = .finite 0 ∧ fault = .config .playsZero ∨
            a.loopMode ≠ .finite 0 ∧ 0xFFFFFFFF < a.length ∧
              fault = .encode (.tooManyFrames a.length)) := by
  refine ⟨fun frames delay mode => make_isOk_iff, fun frames delay mode first hfirst hpixels h => ?_,
    fun frames delay mode k got expected => make_eq_sizeMismatch_iff,
    fun a => ⟨a.make_self, ?_, a.canvas_eq, ⟨_, _, Png.writer_keeps, a.encodeWith_writer⟩,
      fun hexact => ⟨?_, fun e told due h fault => encodeWith_eq_error_iff h hexact⟩⟩⟩
  · obtain ⟨k, got, hmismatch⟩ := exists_firstMismatch hfirst h
    exact ⟨k, got, make_eq_sizeMismatch_iff.mpr ⟨hmismatch, hpixels⟩, hmismatch⟩
  · exact List.isEmpty_eq_false_iff.mpr a.frames_ne_nil
  · simp only [← a.encodeWith_writer, encodeWith_eq_error_iff Png.writer_keeps hexact]
    constructor
    · rintro ⟨fault, ⟨hmode, -⟩ | ⟨-, hlong, -⟩⟩
      · exact .inl hmode
      · exact .inr hlong
    · intro h
      by_cases hmode : a.loopMode = .finite 0
      · exact ⟨_, .inl ⟨hmode, rfl⟩⟩
      · exact ⟨_, .inr ⟨hmode, h.resolve_left hmode, rfl⟩⟩

/-- The third of three frames is larger; without it every step of the encoder is taken. -/
theorem made_of_one_size_third_larger :
    let small : Image := ⟨⟨⟨1, 1⟩, #[⟨200, 0, 0, 128⟩], rfl⟩, []⟩
    let large : Image := ⟨⟨⟨2, 1⟩, #[⟨200, 0, 0, 128⟩, ⟨0, 0, 7, 0⟩], rfl⟩, []⟩
    FirstMismatch [small, small, large] 2 ⟨2, 1⟩ ⟨1, 1⟩ ∧
      make [small, small, large] ⟨1, 10⟩ .infinite =
        .error (.config (.sizeMismatch 2 ⟨2, 1⟩ ⟨1, 1⟩)) ∧
      ∃ a, make [small, small] ⟨1, 10⟩ .infinite = .ok a ∧
        ∀ fault, a.encodeWith Png.writer ≠ .error fault := by
  intro small large
  obtain ⟨haccepted, -, hreported, hencoded⟩ := made_of_one_size
  have hmismatch : FirstMismatch [small, small, large] 2 ⟨2, 1⟩ ⟨1, 1⟩ := by
    refine ⟨rfl, rfl, by decide, fun j hj => ?_⟩
    rcases j with _ | _ | j
    · rfl
    · rfl
    · omega
  obtain ⟨a, ha⟩ := (haccepted [small, small] ⟨1, 10⟩ .infinite).mpr
    ⟨small, rfl, by decide, by decide, by simp, by decide⟩
  refine ⟨hmismatch, (hreported _ _ _ _ _ _).mpr ⟨hmismatch, rfl⟩, a, ha, fun fault h => ?_⟩
  obtain ⟨hframes, -, hmode⟩ := make_eq_ok ha
  obtain ⟨-, -, -, -, hexactly⟩ := hencoded a
  obtain ⟨-, hsteps⟩ := hexactly (by rw [hframes]; simp [small])
  rcases (hsteps Png.writer _ _ Png.writer_keeps fault).mp h with ⟨hzero, -⟩ | ⟨-, hlong, -⟩
  · cases hmode.symm.trans hzero
  · rw [length, hframes] at hlong
    exact absurd hlong (by decide)

/-- Of a first frame without pixels the others are not looked at; and of no frame is what is behind
the pixels looked at, which the encoder then refuses. -/
theorem make_looks_no_further :
    let empty : Image := ⟨⟨⟨0, 0⟩, #[], rfl⟩, []⟩
    let small : Image := ⟨⟨⟨1, 1⟩, #[⟨200, 0, 0, 128⟩], rfl⟩, []⟩
    let longer : Image := ⟨⟨⟨1, 1⟩, #[⟨200, 0, 0, 128⟩], rfl⟩, [0, 0, 0, 0]⟩
    (FirstMismatch [empty, small] 1 ⟨1, 1⟩ ⟨0, 0⟩ ∧
      make [empty, small] ⟨1, 10⟩ .infinite = .error (.config (.framesEmpty ⟨0, 0⟩)) ∧
      ∀ k got expected, make [empty, small] ⟨1, 10⟩ .infinite ≠
        .error (.config (.sizeMismatch k got expected))) ∧
    ∃ a, make [small, longer] ⟨1, 10⟩ .infinite = .ok a ∧ a.loopMode ≠ .finite 0 ∧
      a.length ≤ 0xFFFFFFFF ∧ a.encode = .error (longerFrame ⟨1, 1⟩ 1 longer) := by
  intro empty small longer
  have hmade : make [empty, small] ⟨1, 10⟩ .infinite = .error (.config (.framesEmpty ⟨0, 0⟩)) := rfl
  refine ⟨⟨⟨rfl, rfl, by decide, fun j hj => ?_⟩, hmade, fun k got expected h => ?_⟩,
    _, rfl, by decide, by decide, rfl⟩
  · obtain rfl : j = 0 := by omega
    rfl
  · cases hmade.symm.trans h

end Animation

end HueCycle
