/-
HueCycle.Proofs.Acceptance — which settings that pass the checks are
animated.

The checks look at the turns of hue and the cycles of brightness one by
one, the renderer looks at the hue and the brightness of each frame. In
between lie a division by the duration and a product with the time, which
can leave the range of doubles: then the first frame already has a hue that
is no number. `animateOn_isOk_iff` says that nothing else is in the way,
and that neither is for turns and cycles up to `2 ^ 900`.
-/
import Mathlib
import HueCycle.Proofs.AnimationFile
import HueCycle.Proofs.Files.Preview
import HueCycle.Proofs.Timing.FrameCount

namespace HueCycle

open Binary64 Render

variable {settings : Settings} {schedule : Schedule}

/-! ## §1 Settings -/

/-- The checks in their order: the schedule, the container, the loop mode. -/
theorem Settings.validate_eq_ok_iff :
    settings.validate = .ok () ↔ (∃ schedule, settings.schedule = .ok schedule) ∧
      (∃ container, Container.ofPath settings.output = .ok container) ∧
      settings.loopMode ≠ .finite 0 := by
  unfold validate
  constructor
  · intro h
    obtain ⟨schedule, hschedule, hlater⟩ := bind_eq_ok.mp h
    obtain ⟨container, hcontainer, hlast⟩ := bind_eq_ok.mp hlater
    refine ⟨⟨schedule, hschedule⟩, ⟨container, hcontainer⟩, fun hmode => ?_⟩
    rw [if_pos hmode] at hlast
    cases hlast
  · rintro ⟨⟨schedule, hschedule⟩, ⟨container, hcontainer⟩, hmode⟩
    refine bind_eq_ok.mpr ⟨schedule, hschedule, bind_eq_ok.mpr ⟨container, hcontainer, ?_⟩⟩
    rw [if_neg hmode]
    rfl

/-- The container of `o.png`. -/
theorem Container.ofPath_png : ofPath ⟨[0x6F, 0x2E, 0x70, 0x6E, 0x67]⟩ = .ok .apng := by
  have htext : Path.textExtension? ⟨[0x6F, 0x2E, 0x70, 0x6E, 0x67]⟩ = some "png" := by
    decide +kernel
  rw [ofPath, htext]
  rfl

/-- The frames of a schedule, and how short its duration can be. -/
theorem Settings.frameCount_of_schedule (h : settings.schedule = .ok schedule) :
    1 ≤ schedule.frameCount.toNat ∧ schedule.frameCount.toNat ≤ 4294967295 ∧
      ∃ d, parts settings.duration = some d ∧ 2 ^ (-34 : Int) ≤ d.magnitude := by
  obtain ⟨-, hplan⟩ := Settings.schedule_eq_ok h
  obtain ⟨hone, hmost, d, hd, -, hquarter⟩ := Schedule.plan_perSecond hplan
  refine ⟨hone, hmost, d, hd, ?_⟩
  have hrate : (settings.frameRate.toNat : ℚ) ≤ 2 ^ 32 := by
    exact_mod_cast settings.frameRate.toNat_lt.le
  have hproduct : (settings.frameRate.toNat : ℚ) * d.magnitude ≤ 2 ^ 32 * d.magnitude :=
    mul_le_mul_of_nonneg_right hrate d.magnitude_nonneg
  norm_num at hquarter hproduct ⊢
  linarith

theorem Settings.frameCount_ne_zero (h : settings.schedule = .ok schedule) :
    schedule.frameCount ≠ 0 := by
  intro hzero
  have hone := (Settings.frameCount_of_schedule h).1
  rw [hzero] at hone
  exact absurd hone (by decide)

/-- An animation of settings that pass the checks has a file, if its source has nothing behind the
pixels. -/
theorem encode_of_animateOn {pool : Pool} {source : Source} {threading : Threading}
    {a : Animation} {stats : Stats} (hmode : settings.loopMode ≠ .finite 0)
    (hexact : source.image.surplus = [])
    (h : animateOn pool source settings threading = .ok (a, stats)) :
    a.encode = .ok (a.movie a.loopMode.count).encode := by
  obtain ⟨schedule, hschedule, -, -, hloop, -⟩ := animateOn_eq_ok h
  obtain ⟨-, hmost, -⟩ := Settings.frameCount_of_schedule hschedule
  have hlength := length_of_animateOn h hschedule
  exact Animation.encode_eq_ok (hloop ▸ hmode) (by omega) fun f hf =>
    (surplus_of_animateOn h f hf).trans hexact

/-! ## §2 Cues -/

namespace Schedule

/-- The angle of the brightness wave at a frame. -/
def angle (s : Schedule) (i : FrameIndex) : Float := phaseAt (s.elapsed i) s.duration s.blinks

/-- An angle that is not finite has no brightness. -/
theorem isFinite_angle (s : Schedule) {i : FrameIndex} (h : (s.brightness i).isFinite = true) :
    (s.angle i).isFinite = true := by
  cases hangle : (s.angle i).isFinite with
  | true => rfl
  | false =>
    have hnone : s.brightness i = 0.5 + 0.5 * (0.0 / 0.0) := by
      show 0.5 + 0.5 * sine (s.angle i) = _
      rw [sine, hangle]
      rfl
    have hnan : (0.5 + 0.5 * (0.0 / 0.0) : Float).isFinite = false := by decide +kernel
    rw [hnone, hnan] at h
    cases h

/-- **The renderer accepts a cue** exactly if its hue and its angle are finite. -/
theorem checkRecolor_cue_iff (s : Schedule) (i : FrameIndex) :
    Image.checkRecolor (s.cue i).hue (s.cue i).brightness = .ok () ↔
      (s.hue i).isFinite = true ∧ (s.angle i).isFinite = true := by
  constructor
  · intro h
    change Image.checkRecolor (s.hue i) (s.brightness i) = .ok () at h
    unfold Image.checkRecolor at h
    split at h
    · cases h
    · rename_i hhue
      split at h
      · cases h
      · rename_i hbrightness
        simp only [Bool.not_eq_true', Bool.not_eq_false, Bool.or_eq_true, not_or] at hhue hbrightness
        exact ⟨hhue, s.isFinite_angle hbrightness.1⟩
  · rintro ⟨hhue, hangle⟩
    exact s.checkRecolor_cue i hhue hangle

/-! ## §3 Magnitudes -/

/-- The time of a frame is at most its position. -/
theorem bounded_elapsed {s : Schedule} {n : UInt32} (hrate : s.rate = ⟨n, 1⟩) (hn : n ≠ 0)
    {i : FrameIndex} (hi : i.toNat ≤ 4294967295) : Bounded 32 (s.elapsed i) := by
  have hpos : 1 ≤ n.toNat := Nat.pos_of_ne_zero fun hzero => hn (UInt32.toNat_inj.mp hzero)
  obtain ⟨p, hp, -, hindex⟩ := parts_ofNat (n := i.toNat) (by omega)
  obtain ⟨q, hq, -, hunit⟩ := parts_ofNat (n := 1) (by decide)
  obtain ⟨r, hr, -, hrated⟩ := parts_ofNat (n := n.toNat) (n.toNat_lt.trans (by decide))
  have hone : Bounded 0 (Float.ofNat 1) := ⟨q, hq, by rw [hunit]; norm_num⟩
  have htime : Bounded 32 (Float.ofNat i.toNat) := by
    refine ⟨p, hp, ?_⟩
    rw [hindex]
    calc (i.toNat : ℚ) ≤ (4294967295 : Nat) := by exact_mod_cast hi
      _ ≤ 2 ^ (32 : Int) := by norm_num
  have hleast : (2 : ℚ) ^ (-0 : Int) ≤ r.magnitude := by
    rw [hrated, neg_zero, zpow_zero]
    exact_mod_cast hpos
  show Bounded 32 (FrameRate.elapsed s.rate i.toNat)
  rw [hrate]
  exact (htime.mul hone (by decide) (by decide)).div hr hleast (by decide) (by decide)

variable {s : Schedule} {i : FrameIndex} {d : Parts}

/-- The hue of turns up to `2 ^ 900` is finite. -/
theorem isFinite_hue (htime : Bounded 32 (s.elapsed i)) (hd : parts s.duration = some d)
    (hlong : 2 ^ (-34 : Int) ≤ d.magnitude) (hshifts : Bounded 900 s.shifts) :
    (s.hue i).isFinite = true :=
  (htime.mul (hshifts.div hd hlong (by decide) (by decide)) (by decide) (by decide)).isFinite

/-- The angle of cycles up to `2 ^ 900` is finite. -/
theorem isFinite_angle_of_bounded (htime : Bounded 32 (s.elapsed i))
    (hd : parts s.duration = some d) (hlong : 2 ^ (-34 : Int) ≤ d.magnitude)
    (hblinks : Bounded 900 s.blinks) : (s.angle i).isFinite = true := by
  have hcircle : Bounded 3 (Scalar.whole 2 * halfCircle : Float) := by
    refine ⟨⟨false, 7074237752028440, -50⟩, by decide +kernel, ?_⟩
    norm_num [Parts.magnitude, scaled]
  have hratio := hblinks.div hd hlong (by decide) (by decide)
  exact ((hcircle.mul hratio (by decide) (by decide)).mul htime (by decide) (by decide)).isFinite

end Schedule

/-! ## §4 Animations -/

/-- A frame is rendered exactly if its hue and its angle are finite. -/
theorem Source.frame_isOk_iff (source : Source) {i : FrameIndex} (hi : i < schedule.frameCount) :
    (∃ f, (source.renderer schedule).frame i = .ok f) ↔
      (schedule.hue i).isFinite = true ∧ (schedule.angle i).isFinite = true := by
  rw [← Schedule.checkRecolor_cue_iff]
  constructor
  · rintro ⟨f, hf⟩
    rw [(source.renderer schedule).frame_eq hi] at hf
    cases hpaint : (source.renderer schedule).paint (schedule.cue i) with
    | error e =>
      change Except.map _ ((source.renderer schedule).paint (schedule.cue i)) = _ at hf
      rw [hpaint] at hf
      cases hf
    | ok image =>
      rw [Renderer.paint, Image.recolorChecked] at hpaint
      obtain ⟨_, hcheck, -⟩ := bind_eq_ok.mp hpaint
      exact hcheck
  · exact Source.frame_isOk hi

/-- **Settings that pass the checks are animated** exactly if the hue and the angle of the wave
are finite at every frame, on every pool with workers. The file of the animation can then be
written, unless the source has more in its buffer than the pixels, and whatever prevents it is a
fault of encoding. They are finite for turns and cycles up to `2 ^ 900`. -/
theorem animateOn_isOk_iff (hvalid : settings.validate = .ok ()) {source : Source}
    (hpixels : source.canvas.hasPixels = true) {threading : Threading}
    (hthreads : threading.parallel = true → threading.threads ≠ some 0) (pool : Pool) :
    ∃ schedule, settings.schedule = .ok schedule ∧
      ((∃ a stats, animateOn pool source settings threading = .ok (a, stats)) ↔
        ∀ i < schedule.frameCount,
          (schedule.hue i).isFinite = true ∧ (schedule.angle i).isFinite = true) ∧
      (∀ a stats, animateOn pool source settings threading = .ok (a, stats) →
        (source.image.surplus = [] → ∃ file, a.encode = .ok file) ∧
          ∀ e, a.encode = .error e → e.kind = .encode) ∧
      (Bounded 900 settings.shifts → Bounded 900 settings.blinks →
        ∃ a stats, animateOn pool source settings threading = .ok (a, stats)) := by
  obtain ⟨⟨schedule, hschedule⟩, -, hmode⟩ := Settings.validate_eq_ok_iff.mp hvalid
  obtain ⟨hone, hmost, d, hd, hlong⟩ := Settings.frameCount_of_schedule hschedule
  have hcount : schedule.frameCount ≠ 0 := by
    intro hzero
    rw [hzero] at hone
    exact absurd hone (by decide)
  have hiff : (∃ a stats, animateOn pool source settings threading = .ok (a, stats)) ↔
      ∀ i < schedule.frameCount,
        (schedule.hue i).isFinite = true ∧ (schedule.angle i).isFinite = true := by
    constructor
    · rintro ⟨a, stats, hanimate⟩ i hi
      obtain ⟨f, hf, -⟩ := frame_of_animateOn hanimate hschedule hi
      exact (source.frame_isOk_iff hi).mp ⟨f, hf⟩
    · intro hfinite
      exact animateOn_isOk hschedule hcount
        (fun i hi => (schedule.checkRecolor_cue_iff i).mpr (hfinite i hi)) hpixels hthreads
  refine ⟨schedule, hschedule, hiff, fun a stats h => ⟨fun hexact =>
      ⟨_, encode_of_animateOn hmode hexact h⟩, fun e he => ?_⟩,
    fun hshifts hblinks => hiff.mpr fun i hi => ?_⟩
  · obtain ⟨_, -, -, -, hloop, -⟩ := animateOn_eq_ok h
    exact Animation.kind_of_encode (hloop ▸ hmode) he
  obtain ⟨hrate, hplan⟩ := Settings.schedule_eq_ok hschedule
  obtain ⟨-, -, -, count, delay, -, -, rfl⟩ := Schedule.plan_eq_ok_iff.mp hplan
  have hi' : i.toNat ≤ 4294967295 := (UInt64.lt_iff_toNat_lt.mp hi).le.trans hmost
  have htime := Schedule.bounded_elapsed (s := ⟨⟨settings.frameRate, 1⟩, settings.duration,
    settings.shifts, settings.blinks, count, delay⟩) rfl hrate hi'
  exact ⟨Schedule.isFinite_hue htime hd hlong hshifts,
    Schedule.isFinite_angle_of_bounded htime hd hlong hblinks⟩

/-- The shortest animation on two workers. -/
theorem animateOn_isOk_iff_one_frame :
    let path : Path := ⟨[0x6F, 0x2E, 0x70, 0x6E, 0x67]⟩
    let settings : Settings := ⟨path, path, 1, 1.0, 0.0, 0.0, .infinite⟩
    let source : Source := ⟨none, ⟨⟨⟨1, 1⟩, #[⟨200, 10, 30, 128⟩], rfl⟩, []⟩⟩
    let threading : Threading := ⟨true, some 2, true⟩
    (settings.validate = .ok () ∧ source.canvas.hasPixels = true ∧
      (threading.parallel = true → threading.threads ≠ some 0)) ∧
    Bounded 900 settings.shifts ∧ Bounded 900 settings.blinks ∧
    ∃ a stats file, animateOn Pool.inOrder source settings threading = .ok (a, stats) ∧
      a.encode = .ok file := by
  intro path settings source threading
  have hvalid : settings.validate = .ok () := Settings.validate_eq_ok_iff.mpr
    ⟨⟨_, Settings.schedule_one_frame path path .infinite⟩, ⟨_, Container.ofPath_png⟩, by decide⟩
  have hzero : Bounded 900 0.0 := by
    refine ⟨⟨false, 0, -1074⟩, rfl, ?_⟩
    rw [magnitude_of_zero rfl]
    exact (two_zpow_pos _).le
  have hpixels : source.canvas.hasPixels = true := by decide
  have hthreads : threading.parallel = true → threading.threads ≠ some 0 := by decide
  obtain ⟨schedule, -, -, hencode, hsmall⟩ :=
    animateOn_isOk_iff hvalid hpixels hthreads Pool.inOrder
  obtain ⟨a, stats, hanimate⟩ := hsmall hzero hzero
  obtain ⟨file, hfile⟩ := (hencode a stats hanimate).1 rfl
  exact ⟨⟨hvalid, hpixels, hthreads⟩, hzero, hzero, a, stats, file, hanimate, hfile⟩

/-- Turns that pass the checks and leave the range of doubles when divided by the duration: the
hue of the first frame is no number, and the renderer refuses it. -/
theorem animateOn_refuses_valid_settings :
    let path : Path := ⟨[0x6F, 0x2E, 0x70, 0x6E, 0x67]⟩
    let settings : Settings := ⟨path, path, 10, 0.1, 1e308, 0.0, .infinite⟩
    let source : Source := ⟨none, ⟨⟨⟨1, 1⟩, #[⟨200, 0, 0, 128⟩], rfl⟩, []⟩⟩
    settings.validate = .ok () ∧ ∃ hue, hue.isNaN = true ∧
      animateOn Pool.inOrder source settings Threading.sequential =
        .error (.validation (.hueNotFinite hue)) := by
  intro path settings source
  have hcount : Schedule.countFrames ⟨10, 1⟩ 0.1 = .ok 1 := by
    have hproduct : (FrameRate.value ⟨10, 1⟩ : Float) * 0.1 = 1.0 := by decide +kernel
    have hround : Binary64.round 1.0 = 1.0 := by decide +kernel
    rw [Schedule.countFrames, hproduct, hround, if_neg (by decide +kernel), if_neg (by decide),
      if_neg (by decide)]
    exact congrArg Except.ok (by decide +kernel)
  have hdelay : FrameRate.delay ⟨10, 1⟩ = .ok ⟨1, 10⟩ := by
    simp [FrameRate.delay, FrameRate.narrow?]
  have hplan : Schedule.plan ⟨10, 1⟩ 0.1 1e308 0.0 =
      .ok ⟨⟨10, 1⟩, 0.1, 1e308, 0.0, 1, ⟨1, 10⟩⟩ :=
    Schedule.plan_eq_ok_iff.mpr ⟨by decide +kernel, by decide +kernel, by decide, 1, ⟨1, 10⟩,
      hcount, hdelay, rfl⟩
  have hschedule : settings.schedule = .ok ⟨⟨10, 1⟩, 0.1, 1e308, 0.0, 1, ⟨1, 10⟩⟩ :=
    (Settings.schedule_eq (by decide)).trans hplan
  have hvalid : settings.validate = .ok () :=
    Settings.validate_eq_ok_iff.mpr ⟨⟨_, hschedule⟩, ⟨_, Container.ofPath_png⟩, by decide⟩
  -- zero times an infinite ratio
  have hnan : (Schedule.hue ⟨⟨10, 1⟩, 0.1, 1e308, 0.0, 1, ⟨1, 10⟩⟩ 0).isNaN = true := by
    decide +kernel
  have hinfinite : (Schedule.hue ⟨⟨10, 1⟩, 0.1, 1e308, 0.0, 1, ⟨1, 10⟩⟩ 0).isFinite = false := by
    decide +kernel
  refine ⟨hvalid, _, hnan, ?_⟩
  generalize hschedule' : (⟨⟨10, 1⟩, 0.1, 1e308, 0.0, 1, ⟨1, 10⟩⟩ : Schedule) = schedule at *
  have hcount' : schedule.frameCount = 1 := by rw [← hschedule']
  have hfirst : (source.renderer schedule).frame 0 =
      .error (.validation (.hueNotFinite (schedule.hue 0))) := by
    rw [(source.renderer schedule).frame_eq (show (0 : UInt64) < schedule.frameCount by
      rw [hcount']; decide)]
    show Except.map _ (Image.checkRecolor (schedule.hue 0) (schedule.brightness 0) >>= _) = _
    rw [Image.checkRecolor, hinfinite]
    rfl
  have hframes : (source.renderer schedule).framesOn Pool.inOrder schedule.range .sequential =
      .error (.validation (.hueNotFinite (schedule.hue 0))) := by
    have hrange : schedule.range.start ≠ schedule.range.stop := by
      show (0 : UInt64) ≠ schedule.frameCount
      rw [hcount']
      decide
    have hlength : schedule.range.length = 1 := by
      show schedule.frameCount.toNat - 0 = 1
      rw [hcount']
      rfl
    cases hresult : (source.renderer schedule).framesOn Pool.inOrder schedule.range .sequential with
    | ok result =>
      obtain ⟨f, hf⟩ := (Renderer.framesOn_isOk_iff _ Pool.inOrder hrange (UInt64.le_refl _)
        (by decide)).mp ⟨result, hresult⟩ 0 (by rw [hlength]; decide)
      exact absurd (hfirst.symm.trans hf) (by simp)
    | error e =>
      obtain ⟨k, hk, hfails, -⟩ := Renderer.framesOn_eq_error _ Pool.inOrder hrange
        (UInt64.le_refl _) rfl hresult
      obtain rfl : k = 0 := by omega
      rw [Except.error.inj (hfails.symm.trans hfirst)]
  rw [animateOn, hschedule]
  change ((source.renderer schedule).framesOn Pool.inOrder schedule.range .sequential >>= _) = _
  rw [hframes]
  rfl

end HueCycle
