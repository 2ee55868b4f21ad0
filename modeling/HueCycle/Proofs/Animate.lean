/-
HueCycle.Proofs.Animate — what an animation that was made from a source and
settings consists of.

Each stage hands something over to the next: the settings give a schedule,
the schedule a delay and the number of frames, the renderer the frames in
order. Here are the facts of each stage, and `animateOn_eq_ok` that puts them
together.
-/
import Mathlib
import HueCycle.Animate
import HueCycle.Proofs.Render.Range
import HueCycle.Proofs.Schedule
import HueCycle.Proofs.Timing.Delay

namespace HueCycle

open Render

/-- A computation in two steps succeeds exactly if both do. -/
theorem bind_eq_ok {ε α β : Type} {x : Except ε α} {f : α → Except ε β} {b : β} :
    (x >>= f) = .ok b ↔ ∃ a, x = .ok a ∧ f a = .ok b := by
  cases x with
  | error e => exact ⟨nofun, nofun⟩
  | ok a =>
    constructor
    · intro h
      exact ⟨a, rfl, h⟩
    · rintro ⟨_, ha, h⟩
      obtain rfl := Except.ok.inj ha
      exact h

/-- A computation in two steps fails where the first one does, or the second. -/
theorem bind_eq_error {ε α β : Type} {x : Except ε α} {f : α → Except ε β} {e : ε} :
    (x >>= f) = .error e ↔ x = .error e ∨ ∃ a, x = .ok a ∧ f a = .error e := by
  cases x with
  | error e' =>
    constructor
    · intro h
      exact .inl (congrArg _ (Except.error.inj h))
    · rintro (h | ⟨a, h, -⟩)
      · rw [Except.error.inj h]
        rfl
      · cases h
  | ok a =>
    constructor
    · intro h
      exact .inr ⟨a, rfl, h⟩
    · rintro (h | ⟨_, ha, h⟩)
      · cases h
      · obtain rfl := Except.ok.inj ha
        exact h

/-! ## §1 The schedule -/

/-- The delay at a whole number of frames a second is one over that number. -/
theorem FrameRate.delay_perSecond {n : UInt32} {delay : FrameDelay}
    (h : FrameRate.delay ⟨n, 1⟩ = .ok delay) :
    delay.num = 1 ∧ delay.den.toNat = n.toNat := by
  have hone : (1 : UInt32) ≠ 0 := by decide
  obtain ⟨hnum, hden⟩ := (delay_eq_ok_iff (.inl hone)).mp h
  have hgcd : Nat.gcd (1 : UInt32).toNat n.toNat = 1 := Nat.gcd_one_left _
  rw [leastSeconds, hgcd, Nat.div_one] at hnum
  rw [leastFrames, hgcd, Nat.div_one] at hden
  exact ⟨UInt16.toNat_inj.mp hnum, hden⟩

/-- A schedule is what its parts give if each of them is allowed. -/
theorem Schedule.plan_eq_ok_iff {rate : FrameRate} {duration shifts blinks : Float}
    {schedule : Schedule} :
    Schedule.plan rate duration shifts blinks = .ok schedule ↔
      (!duration.isFinite || decide (duration ≤ 0.0)) = false ∧ shifts.isFinite = true ∧
        blinks.isFinite = true ∧ ∃ count delay, countFrames rate duration = .ok count ∧
          rate.delay = .ok delay ∧ schedule = ⟨rate, duration, shifts, blinks, count, delay⟩ := by
  unfold plan
  cases hduration : (!duration.isFinite || decide (duration ≤ 0.0)) with
  | true => simp [throw, throwThe, MonadExceptOf.throw, bind, Except.bind]
  | false =>
    cases hshifts : shifts.isFinite with
    | false => simp [throw, throwThe, MonadExceptOf.throw, bind, Except.bind]
    | true =>
      cases hblinks : blinks.isFinite with
      | false => simp [throw, throwThe, MonadExceptOf.throw, bind, Except.bind]
      | true =>
        cases hcount : countFrames rate duration with
        | error e => simp [bind, Except.bind]
        | ok count =>
          cases hdelay : rate.delay with
          | error e => simp [bind, Except.bind]
          | ok delay => simp [bind, Except.bind, pure, Except.pure, eq_comm]

/-- Settings with a frame rate plan the schedule of that rate, as whole frames a second. -/
theorem Settings.schedule_eq {settings : Settings} (hrate : settings.frameRate ≠ 0) :
    settings.schedule = Schedule.plan ⟨settings.frameRate, 1⟩ settings.duration
      settings.shifts settings.blinks := by
  have hper : FrameRate.perSecond settings.frameRate = .ok ⟨settings.frameRate, 1⟩ := by
    rw [FrameRate.perSecond, FrameRate.checked, if_neg (by decide), if_neg hrate]
  rw [Settings.schedule, Settings.rate, if_neg hrate, hper]
  rfl

/-- The schedule of settings is that of their rate. -/
theorem Settings.schedule_eq_ok {settings : Settings} {schedule : Schedule}
    (h : settings.schedule = .ok schedule) :
    settings.frameRate ≠ 0 ∧ Schedule.plan ⟨settings.frameRate, 1⟩ settings.duration
      settings.shifts settings.blinks = .ok schedule := by
  have hrate : settings.frameRate ≠ 0 := by
    intro hzero
    rw [Settings.schedule, Settings.rate, if_pos hzero] at h
    cases h
  exact ⟨hrate, Settings.schedule_eq hrate ▸ h⟩

/-- The delay that settings imply is one over their frame rate. -/
theorem Settings.delay_of_schedule {settings : Settings} {schedule : Schedule}
    (h : settings.schedule = .ok schedule) :
    schedule.delay.num = 1 ∧ schedule.delay.den.toNat = settings.frameRate.toNat := by
  obtain ⟨-, hplan⟩ := Settings.schedule_eq_ok h
  obtain ⟨-, -, -, count, delay, -, hdelay, rfl⟩ := Schedule.plan_eq_ok_iff.mp hplan
  exact FrameRate.delay_perSecond hdelay

/-! ## §2 One frame -/

/-- A frame keeps the canvas of the source, the alpha of every pixel, and what is behind the
pixels. -/
theorem Source.frame_keeps {source : Source} {schedule : Schedule} {i : FrameIndex} {f : Frame}
    (h : (source.renderer schedule).frame i = .ok f) :
    f.image.canvas = source.canvas ∧ f.image.surplus = source.image.surplus ∧
      ∀ k : Nat, f.image.pixels[k]?.map Pixel.alpha = source.image.pixels[k]?.map Pixel.alpha := by
  unfold Renderer.frame at h
  split at h
  · dsimp only at h
    cases hpaint : (source.renderer schedule).paint
        ((source.renderer schedule).schedule.cue i) with
    | error e =>
      rw [hpaint] at h
      cases h
    | ok image =>
      rw [hpaint] at h
      obtain rfl := Except.ok.inj h
      rw [Renderer.paint, Image.recolorChecked] at hpaint
      obtain ⟨_, -, hrecolored⟩ := bind_eq_ok.mp hpaint
      obtain rfl := Except.ok.inj hrecolored
      refine ⟨rfl, rfl, ?_⟩
      intro k
      show (source.image.keepRed.recolor _ _ : Image).pixels[k]?.map Pixel.alpha = _
      rw [Image.recolor, Image.getElem?_map, Image.keepRed, Image.getElem?_map, Option.map_map,
        Option.map_map]
      rfl
  · cases h

/-- A frame whose cue is allowed is rendered. -/
theorem Source.frame_isOk {source : Source} {schedule : Schedule} {i : FrameIndex}
    (hi : i < schedule.frameCount)
    (hcheck : Image.checkRecolor (schedule.cue i).hue (schedule.cue i).brightness = .ok ()) :
    ∃ f, (source.renderer schedule).frame i = .ok f := by
  rw [(source.renderer schedule).frame_eq hi, Renderer.paint, Image.recolorChecked]
  change ∃ f, Except.map _ ((Image.checkRecolor (schedule.cue i).hue (schedule.cue i).brightness)
    >>= _) = .ok f
  rw [hcheck]
  exact ⟨_, rfl⟩

/-! ## §3 The animation -/

theorem firstMismatch?_eq_none {canvas : Canvas} {frames : List Image} (index : Nat)
    (h : ∀ f ∈ frames, f.canvas = canvas) : firstMismatch? canvas index frames = none := by
  induction frames generalizing index with
  | nil => rfl
  | cons first rest ih =>
    rw [firstMismatch?, if_pos (h first List.mem_cons_self)]
    exact ih (index + 1) fun f hf => h f (List.mem_cons_of_mem _ hf)

/-- Frames of one size, with pixels, make an animation. -/
theorem Animation.make_isOk {canvas : Canvas} {frames : List Image} {delay : FrameDelay}
    (mode : LoopMode) (hne : frames ≠ []) (h : ∀ f ∈ frames, f.canvas = canvas)
    (hpixels : canvas.hasPixels = true) (hden : delay.den ≠ 0) :
    ∃ a, Animation.make frames delay mode = .ok a := by
  have hcommon : commonCanvas frames = .ok canvas := by
    obtain ⟨first, rest, rfl⟩ := List.exists_cons_of_ne_nil hne
    obtain rfl := h first List.mem_cons_self
    have hrest := firstMismatch?_eq_none 1 fun f hf => h f (List.mem_cons_of_mem _ hf)
    rw [commonCanvas, hpixels, hrest]
    rfl
  unfold make
  split
  · rename_i e he
    rw [hcommon] at he
    cases he
  · rw [dif_neg hden]
    exact ⟨_, rfl⟩

/-- An animation consists of what it is made of. -/
theorem Animation.make_eq_ok {frames : List Image} {delay : FrameDelay} {mode : LoopMode}
    {a : Animation} (h : Animation.make frames delay mode = .ok a) :
    a.frames = frames ∧ a.delay = delay ∧ a.loopMode = mode := by
  unfold make at h
  split at h
  · cases h
  · split at h
    · cases h
    · obtain rfl := Except.ok.inj h
      exact ⟨rfl, rfl, rfl⟩

/-- The canvas of an animation is that of its frames. -/
theorem Animation.canvas_eq_of_frames {a : Animation} {canvas : Canvas}
    (h : ∀ f ∈ a.frames, f.canvas = canvas) : a.canvas = canvas := by
  obtain ⟨first, rest, hframes⟩ := List.exists_cons_of_ne_nil a.frames_ne_nil
  have hmem : first ∈ a.frames := hframes ▸ List.mem_cons_self
  rw [← a.canvas_eq first hmem, h first hmem]

/-- **The animation of a source** has one frame for each position of the schedule, with the
pixels that this position is rendered to. -/
theorem animateOn_eq_ok {pool : Pool} {source : Source} {settings : Settings}
    {threading : Threading} {a : Animation} {stats : Stats}
    (h : animateOn pool source settings threading = .ok (a, stats)) :
    ∃ schedule, settings.schedule = .ok schedule ∧
      a.frames.map .ok = ((List.range schedule.frameCount.toNat).map fun k =>
        ((source.renderer schedule).frame (UInt64.ofNat k)).map Frame.image) ∧
      a.delay = schedule.delay ∧ a.loopMode = settings.loopMode ∧
      stats.total = schedule.frameCount.toNat := by
  unfold animateOn at h
  obtain ⟨schedule, hschedule, hrendering⟩ := bind_eq_ok.mp h
  obtain ⟨⟨frames, counted⟩, hframes, hmaking⟩ := bind_eq_ok.mp hrendering
  obtain ⟨made, hmake, hdone⟩ := bind_eq_ok.mp hmaking
  obtain ⟨rfl, rfl⟩ := Prod.mk.inj (Except.ok.inj hdone)
  obtain ⟨himages, hdelay, hmode⟩ := Animation.make_eq_ok hmake
  obtain ⟨hpositions, htotal⟩ := Renderer.framesOn_eq_ok _ pool hframes
  have hlength : schedule.range.length = schedule.frameCount.toNat := Nat.sub_zero _
  rw [hlength] at hpositions htotal
  refine ⟨schedule, hschedule, ?_, hdelay, hmode, htotal⟩
  have hmap := congrArg (List.map (Except.map Frame.image)) hpositions
  rw [List.map_map, List.map_map] at hmap
  rw [himages, List.map_map]
  refine hmap.trans (List.map_congr_left ?_)
  intro k _
  show ((source.renderer schedule).frame (UInt64.ofNat (0 + k))).map Frame.image = _
  rw [Nat.zero_add]

section Animated

variable {pool : Pool} {source : Source} {settings : Settings} {threading : Threading}
  {schedule : Schedule} {a : Animation} {stats : Stats}

/-- An animation has as many frames as the schedule has positions, -/
theorem length_of_animateOn (h : animateOn pool source settings threading = .ok (a, stats))
    (hschedule : settings.schedule = .ok schedule) : a.length = schedule.frameCount.toNat := by
  obtain ⟨_, hsame, hframes, -⟩ := animateOn_eq_ok h
  obtain rfl := Except.ok.inj (hschedule.symm.trans hsame)
  have hlengths := congrArg List.length hframes
  rwa [List.length_map, List.length_map, List.length_range] at hlengths

/-- each of which the renderer gives for its position alone, -/
theorem rendered_of_animateOn (h : animateOn pool source settings threading = .ok (a, stats))
    (hschedule : settings.schedule = .ok schedule) {i : Nat} {image : Image}
    (himage : a.frames[i]? = some image) :
    ∃ f, (source.renderer schedule).frame (UInt64.ofNat i) = .ok f ∧ image = f.image := by
  have hi : i < schedule.frameCount.toNat :=
    length_of_animateOn h hschedule ▸ (List.getElem?_eq_some_iff.mp himage).1
  obtain ⟨_, hsame, hframes, -⟩ := animateOn_eq_ok h
  obtain rfl := Except.ok.inj (hschedule.symm.trans hsame)
  have hat := congrArg (·[i]?) hframes
  simp only [List.getElem?_map, himage, List.getElem?_range hi, Option.map_some,
    Option.some.injEq] at hat
  cases hrendered : (source.renderer schedule).frame (UInt64.ofNat i) with
  | error e =>
    rw [hrendered] at hat
    cases hat
  | ok f =>
    rw [hrendered] at hat
    exact ⟨f, rfl, Except.ok.inj hat⟩

/-- and which keep what is behind the pixels of the source. -/
theorem surplus_of_animateOn (h : animateOn pool source settings threading = .ok (a, stats)) :
    ∀ image ∈ a.frames, image.surplus = source.image.surplus := by
  intro image himage
  obtain ⟨schedule, hschedule, -⟩ := animateOn_eq_ok h
  obtain ⟨i, hi⟩ := List.getElem?_of_mem himage
  obtain ⟨f, hf, rfl⟩ := rendered_of_animateOn h hschedule hi
  exact (Source.frame_keeps hf).2.1

end Animated

/-- Rendered frames keep the canvas of the source, and what is behind the pixels. -/
theorem Source.kept_of_framesOn {source : Source} {schedule : Schedule} {pool : Pool}
    {range : FrameRange} {threading : Threading} {frames : List Frame} {stats : Stats}
    (h : (source.renderer schedule).framesOn pool range threading = .ok (frames, stats)) :
    ∀ f ∈ frames, f.image.canvas = source.canvas ∧ f.image.surplus = source.image.surplus := by
  intro f hf
  have hmem := List.mem_map_of_mem (f := Except.ok (ε := Error)) hf
  rw [(Renderer.framesOn_eq_ok _ pool h).1] at hmem
  obtain ⟨k, -, hk⟩ := List.mem_map.mp hmem
  obtain ⟨hcanvas, hsurplus, -⟩ := Source.frame_keeps hk
  exact ⟨hcanvas, hsurplus⟩

section Rendered

variable {pool : Pool} {source : Source} {settings : Settings} {threading : Threading}
  {schedule : Schedule} {frames : List Frame} {stats : Stats}

/-- Frames that were rendered fit together. -/
theorem Animation.make_of_framesOn (hschedule : settings.schedule = .ok schedule)
    (hcount : schedule.frameCount ≠ 0) (hpixels : source.canvas.hasPixels = true)
    (hframes : (source.renderer schedule).framesOn pool schedule.range threading =
      .ok (frames, stats)) :
    ∃ a, Animation.make (frames.map Frame.image) schedule.delay settings.loopMode = .ok a := by
  have hlength : schedule.range.length = schedule.frameCount.toNat := Nat.sub_zero _
  have hrendered := (Renderer.framesOn_eq_ok _ pool hframes).1
  have hnonempty : frames.map Frame.image ≠ [] := by
    intro hnil
    have hlengths := congrArg List.length hrendered
    rw [List.map_eq_nil_iff.mp hnil, List.length_map, List.length_map, List.length_range,
      hlength] at hlengths
    exact hcount (UInt64.toNat_inj.mp hlengths.symm)
  have hcanvas : ∀ image ∈ frames.map Frame.image, image.canvas = source.canvas := by
    intro image himage
    obtain ⟨f, hf, rfl⟩ := List.mem_map.mp himage
    exact (Source.kept_of_framesOn hframes f hf).1
  have hden : schedule.delay.den ≠ 0 := by
    intro hzero
    have hsame := (Settings.delay_of_schedule hschedule).2
    rw [hzero] at hsame
    exact (Settings.schedule_eq_ok hschedule).1 (UInt32.toNat_inj.mp hsame.symm)
  exact Animation.make_isOk settings.loopMode hnonempty hcanvas hpixels hden

/-- The animation of rendered frames is the animation of the source. -/
theorem animateOn_of_make (hschedule : settings.schedule = .ok schedule)
    (hframes : (source.renderer schedule).framesOn pool schedule.range threading =
      .ok (frames, stats)) {a : Animation}
    (hmake : Animation.make (frames.map Frame.image) schedule.delay settings.loopMode = .ok a) :
    animateOn pool source settings threading = .ok (a, stats) := by
  refine bind_eq_ok.mpr ⟨schedule, hschedule, ?_⟩
  refine bind_eq_ok.mpr ⟨(frames, stats), hframes, ?_⟩
  exact bind_eq_ok.mpr ⟨a, hmake, rfl⟩

/-- Frames that were rendered make an animation. -/
theorem animateOn_of_framesOn (hschedule : settings.schedule = .ok schedule)
    (hcount : schedule.frameCount ≠ 0) (hpixels : source.canvas.hasPixels = true)
    (hframes : (source.renderer schedule).framesOn pool schedule.range threading =
      .ok (frames, stats)) :
    ∃ a, animateOn pool source settings threading = .ok (a, stats) := by
  obtain ⟨a, hmake⟩ := Animation.make_of_framesOn hschedule hcount hpixels hframes
  exact ⟨a, animateOn_of_make hschedule hframes hmake⟩

end Rendered

/-- **A schedule whose cues are all allowed is animated**, on every pool with workers. -/
theorem animateOn_isOk {pool : Pool} {source : Source} {settings : Settings}
    {threading : Threading} {schedule : Schedule} (hschedule : settings.schedule = .ok schedule)
    (hcount : schedule.frameCount ≠ 0)
    (hcheck : ∀ i < schedule.frameCount,
      Image.checkRecolor (schedule.cue i).hue (schedule.cue i).brightness = .ok ())
    (hpixels : source.canvas.hasPixels = true)
    (hthreads : threading.parallel = true → threading.threads ≠ some 0) :
    ∃ a stats, animateOn pool source settings threading = .ok (a, stats) := by
  have hrange : schedule.range.start ≠ schedule.range.stop := hcount.symm
  have hindex : ∀ k < schedule.range.length, ∃ f, (source.renderer schedule).frame
      (UInt64.ofNat (schedule.range.start.toNat + k)) = .ok f := by
    intro k hk
    have hbelow : UInt64.ofNat (schedule.range.start.toNat + k) < schedule.frameCount :=
      schedule.range.index_lt_stop hk
    exact Source.frame_isOk hbelow (hcheck _ hbelow)
  obtain ⟨⟨frames, stats⟩, hframes⟩ :=
    (Renderer.framesOn_isOk_iff (source.renderer schedule) pool hrange
      (UInt64.le_refl _) hthreads).mpr hindex
  obtain ⟨a, hmade⟩ := animateOn_of_framesOn hschedule hcount hpixels hframes
  exact ⟨a, stats, hmade⟩

/-! ## §4 The shortest animation -/

/-- One frame a second for one second, without turns of hue and cycles of brightness. -/
theorem Settings.schedule_one_frame (input output : Path) (mode : LoopMode) :
    Settings.schedule ⟨input, output, 1, 1.0, 0.0, 0.0, mode⟩ =
      .ok ⟨⟨1, 1⟩, 1.0, 0.0, 0.0, 1, ⟨1, 1⟩⟩ := by
  have hcount : Schedule.countFrames ⟨1, 1⟩ 1.0 = .ok 1 := by
    have hproduct : (FrameRate.value ⟨1, 1⟩ : Float) * 1.0 = 1.0 := by decide +kernel
    have hround : Binary64.round 1.0 = 1.0 := by decide +kernel
    rw [Schedule.countFrames, hproduct, hround, if_neg (by decide +kernel), if_neg (by decide),
      if_neg (by decide)]
    exact congrArg Except.ok (by decide +kernel)
  have hdelay : FrameRate.delay ⟨1, 1⟩ = .ok ⟨1, 1⟩ := by
    simp [FrameRate.delay, FrameRate.narrow?]
  have hplan : Schedule.plan ⟨1, 1⟩ 1.0 0.0 0.0 = .ok ⟨⟨1, 1⟩, 1.0, 0.0, 0.0, 1, ⟨1, 1⟩⟩ :=
    Schedule.plan_eq_ok_iff.mpr ⟨by decide, by decide, by decide, 1, ⟨1, 1⟩, hcount, hdelay, rfl⟩
  have hrate : (1 : UInt32) ≠ 0 := by decide
  rw [Settings.schedule_eq hrate]
  exact hplan

theorem animateOn_one_frame (pool : Pool) (source : Source) (input output : Path) (mode : LoopMode)
    (threading : Threading) (hpixels : source.canvas.hasPixels = true)
    (hthreads : threading.parallel = true → threading.threads ≠ some 0) :
    ∃ a stats, animateOn pool source ⟨input, output, 1, 1.0, 0.0, 0.0, mode⟩ threading =
      .ok (a, stats) := by
  refine animateOn_isOk (Settings.schedule_one_frame input output mode) (by decide) ?_ hpixels
    hthreads
  intro i hi
  obtain rfl : i = 0 := by
    rw [UInt64.lt_iff_toNat_lt] at hi
    exact UInt64.toNat_inj.mp (by simpa using hi)
  exact Schedule.checkRecolor_cue _ 0 (by decide +kernel) (by decide +kernel)

end HueCycle
