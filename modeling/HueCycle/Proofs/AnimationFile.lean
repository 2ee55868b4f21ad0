/-
HueCycle.Proofs.AnimationFile — the file of an animation holds the animation.

An animation keeps what a movie's file must keep to: its frames have pixels
and one size, and each is stored as one that covers the canvas. So only the
number of frames can exceed what the file can state. The encoder is handed
whole buffers, though, and making an animation looks at dimensions only: a
frame whose buffer goes on behind its pixels is refused.
-/
import Mathlib
import HueCycle.Proofs.Png.MovieFile

namespace HueCycle

/-! ## §1 Plays -/

/-- The number of plays that a file states for a loop mode. -/
def LoopMode.count : LoopMode → UInt32
  | .infinite => 0
  | .finite times => times.toUInt32

/-- Only a count of zero cannot be stated. -/
theorem LoopMode.plays_eq_ok {mode : LoopMode} (h : mode ≠ .finite 0) :
    mode.plays = .ok mode.count := by
  cases mode with
  | infinite => rfl
  | finite times =>
    have htimes : times ≠ 0 := fun h0 => h (by rw [h0])
    rw [LoopMode.plays, if_neg htimes]
    rfl

namespace Animation

/-! ## §2 The movie -/

/-- A frame as the animation's file stores it. -/
def stored (a : Animation) (image : Image) : Png.MovieFrame :=
  ⟨Png.FrameControl.full a.canvas a.delay, image.toBitmap⟩

theorem frames_movie (a : Animation) (plays : UInt32) :
    (a.movie plays).frames = a.frames.map a.stored := rfl

theorem wellFormed_movie (a : Animation) (h : a.length < 0x100000000) (plays : UInt32) :
    (a.movie plays).WellFormed where
  hasPixels := a.hasPixels
  frames_ne_nil := by
    rw [frames_movie, ne_eq, List.map_eq_nil_iff]
    exact a.frames_ne_nil
  length_lt := by
    rw [frames_movie, List.length_map]
    exact h
  known f hf := by
    obtain ⟨image, -, rfl⟩ := List.mem_map.mp hf
    exact Png.FrameControl.known_full _ _
  fits f hf := by
    obtain ⟨image, -, rfl⟩ := List.mem_map.mp hf
    exact Png.FrameControl.fits_full a.hasPixels _
  region f hf := by
    obtain ⟨image, himage, rfl⟩ := List.mem_map.mp hf
    exact a.canvas_eq image himage
  covers f hf := by
    obtain ⟨image, -, rfl⟩ := List.mem_map.mp (List.mem_of_mem_head? hf)
    exact Png.FrameControl.covers_full _ _

/-! ## §3 The file -/

/-- No frame is found exactly if every buffer ends with the pixels. -/
theorem firstLonger?_eq_none_iff {index : Nat} {frames : List Image} :
    firstLonger? index frames = none ↔ ∀ f ∈ frames, f.surplus = [] := by
  induction frames generalizing index with
  | nil => simp [firstLonger?]
  | cons f rest ih =>
    rw [firstLonger?]
    cases hsurplus : f.surplus with
    | nil => simpa [hsurplus] using ih
    | cons b more => simp [hsurplus]

/-- The frame that is found is the first of those whose buffer goes on behind the pixels. -/
theorem firstLonger?_eq_some {index k : Nat} {frames : List Image} {f : Image}
    (hat : frames[k]? = some f) (hlonger : f.surplus ≠ [])
    (hbefore : ∀ j < k, ∀ g, frames[j]? = some g → g.surplus = []) :
    firstLonger? index frames = some (index + k, f) := by
  induction frames generalizing index k with
  | nil => cases hat
  | cons g rest ih =>
    rw [firstLonger?]
    cases k with
    | zero =>
      obtain rfl : g = f := Option.some.inj hat
      simp [hlonger]
    | succ k =>
      have hexact : g.surplus = [] := hbefore 0 k.succ_pos g rfl
      rw [hexact]
      refine (ih hat fun j hj g' hg' => hbefore (j + 1) (by omega) g' hg').trans ?_
      rw [Nat.add_right_comm, Nat.add_assoc]

/-- An animation that plays and whose frames can be counted is written frame by frame. -/
theorem encode_eq {a : Animation} (hmode : a.loopMode ≠ .finite 0)
    (h : a.length < 0x100000000) :
    a.encode = match firstLonger? 0 a.frames with
      | none => .ok (a.movie a.loopMode.count).encode
      | some (index, f) => .error (longerFrame a.canvas index f) := by
  rw [encode, LoopMode.plays_eq_ok hmode]
  show (if 0x100000000 ≤ a.length then _ else _) = _
  rw [if_neg (not_le.mpr h)]
  cases firstLonger? 0 a.frames <;> rfl

/-- An animation that plays and has more frames than can be counted is refused for their number. -/
theorem encode_eq_tooManyFrames {a : Animation} (hmode : a.loopMode ≠ .finite 0)
    (h : 0x100000000 ≤ a.length) : a.encode = .error (.encode (.tooManyFrames a.length)) := by
  rw [encode, LoopMode.plays_eq_ok hmode]
  exact if_pos h

theorem encode_eq_ok {a : Animation} (hmode : a.loopMode ≠ .finite 0)
    (h : a.length < 0x100000000) (hexact : ∀ f ∈ a.frames, f.surplus = []) :
    a.encode = .ok (a.movie a.loopMode.count).encode := by
  rw [encode_eq hmode h, firstLonger?_eq_none_iff.mpr hexact]

/-- Only an animation that plays, whose frames can be counted and end with their pixels has a
file. -/
theorem of_encode {a : Animation} {file : Bytes} (h : a.encode = .ok file) :
    a.length < 0x100000000 ∧ (∀ f ∈ a.frames, f.surplus = []) ∧
      (a.movie a.loopMode.count).encode = file := by
  have hmode : a.loopMode ≠ .finite 0 := by
    intro hzero
    rw [encode, hzero] at h
    cases h
  have hlength : a.length < 0x100000000 := by
    by_contra hlong
    cases (encode_eq_tooManyFrames hmode (not_lt.mp hlong)).symm.trans h
  rw [encode_eq hmode hlength] at h
  cases hlonger : firstLonger? 0 a.frames with
  | none =>
    rw [hlonger] at h
    exact ⟨hlength, firstLonger?_eq_none_iff.mp hlonger, Except.ok.inj h⟩
  | some found =>
    rw [hlonger] at h
    cases h

/-- An animation that plays and has no file is refused by the encoder. -/
theorem kind_of_encode {a : Animation} (hmode : a.loopMode ≠ .finite 0) {e : Error}
    (h : a.encode = .error e) : e.kind = .encode := by
  by_cases hlength : a.length < 0x100000000
  · rw [encode_eq hmode hlength] at h
    cases hlonger : firstLonger? 0 a.frames with
    | none =>
      rw [hlonger] at h
      cases h
    | some found =>
      rw [hlonger] at h
      rw [← Except.error.inj h]
      rfl
  · rw [encode_eq_tooManyFrames hmode (not_lt.mp hlength)] at h
    rw [← Except.error.inj h]
    rfl

/-- What an animation's file is decoded to as an animation. -/
theorem decode_of_encode {a : Animation} {file : Bytes} (h : a.encode = .ok file) :
    Png.Movie.decode file = .ok (a.movie a.loopMode.count) := by
  obtain ⟨hlength, -, rfl⟩ := of_encode h
  exact Png.Movie.decode_encode (a.wellFormed_movie hlength _)

/-- What an animation's file is decoded to as a still image. -/
theorem decodeStill_encode {a : Animation} (h : a.length < 0x100000000) (plays : UInt32)
    {first : Image} (hfirst : a.frames.head? = some first) :
    Png.decodeStill (a.movie plays).encode = .ok first.toBitmap := by
  have hstored : (a.movie plays).frames.head? = some (a.stored first) := by
    rw [frames_movie, List.head?_map, hfirst]
    rfl
  exact Png.Movie.decodeStill_encode (a.wellFormed_movie h plays) hstored

/-- **An animation that plays comes back whole from its file.** It has a file exactly if the buffer
of every frame ends with the pixels; otherwise the first frame with a longer one is refused. Every
frame in the file covers the canvas from its corner on and replaces what was there, has the
samples and the delay of the animation, and as a still image the file shows the first frame. -/
theorem decode_encode_of_plays (a : Animation) (hmode : a.loopMode ≠ .finite 0)
    (hlength : a.length ≤ 0xFFFFFFFF) :
    ((∃ file, a.encode = .ok file) ↔ ∀ f ∈ a.frames, f.surplus = []) ∧
    (∀ file, a.encode = .ok file → ∃ movie first,
      Png.Movie.decode file = .ok movie ∧
      movie.canvas = a.canvas ∧ movie.plays = a.loopMode.count ∧
      movie.frames.map (fun f => f.image.toImage) = a.frames ∧
      (∀ f ∈ movie.frames, f.control.region = a.canvas ∧ f.control.x = 0 ∧ f.control.y = 0 ∧
        f.control.delay = a.delay ∧ f.control.dispose = 0 ∧ f.control.blend = 0) ∧
      a.frames.head? = some first ∧ Source.decode file = .ok ⟨none, first⟩) ∧
    ∀ (k : Nat) (f : Image), a.frames[k]? = some f → f.surplus ≠ [] →
      (∀ j < k, ∀ g, a.frames[j]? = some g → g.surplus = []) →
      a.encode = .error (longerFrame a.canvas k f) := by
  have hlt : a.length < 0x100000000 := by omega
  refine ⟨⟨?_, fun hexact => ⟨_, encode_eq_ok hmode hlt hexact⟩⟩, fun file hfile => ?_,
    fun k f hat hlonger hbefore => ?_⟩
  · rintro ⟨file, hfile⟩
    exact (of_encode hfile).2.1
  · obtain ⟨-, hexact, hwritten⟩ := of_encode hfile
    obtain ⟨first, later, hframes⟩ := List.exists_cons_of_ne_nil a.frames_ne_nil
    have hmem : first ∈ a.frames := hframes ▸ List.mem_cons_self
    have hfirst : a.frames.head? = some first := by rw [hframes]; rfl
    have hpixels : first.canvas.hasPixels = true := by
      rw [a.canvas_eq first hmem]
      exact a.hasPixels
    have hstill := Source.decode_of_decodeStill
      (decodeStill_encode hlt a.loopMode.count hfirst) hpixels
    rw [hwritten, Image.toImage_toBitmap (hexact first hmem)] at hstill
    refine ⟨a.movie a.loopMode.count, first, decode_of_encode hfile, rfl, rfl, ?_, ?_, hfirst,
      hstill⟩
    · rw [frames_movie, List.map_map]
      exact (List.map_congr_left fun f hf => Image.toImage_toBitmap (hexact f hf)).trans
        (List.map_id _)
    · intro f hf
      obtain ⟨image, -, rfl⟩ := List.mem_map.mp hf
      exact ⟨rfl, rfl, rfl, rfl, rfl, rfl⟩
  · rw [encode_eq hmode hlt, firstLonger?_eq_some hat hlonger hbefore, Nat.zero_add]

/-- Two frames whose transparent pixels have colours, played three times. -/
theorem decode_encode_of_plays_thrice :
    let a : Animation := {
      frames := [⟨⟨⟨2, 1⟩, #[⟨200, 10, 0, 0⟩, ⟨0, 0, 7, 128⟩], rfl⟩, []⟩,
        ⟨⟨⟨2, 1⟩, #[⟨0, 0, 7, 128⟩, ⟨200, 10, 0, 0⟩], rfl⟩, []⟩]
      canvas := ⟨2, 1⟩
      delay := ⟨1, 25⟩
      loopMode := .finite 3
      frames_ne_nil := by simp
      canvas_eq := by simp
      hasPixels := by decide
      den_ne_zero := by decide }
    (a.loopMode ≠ .finite 0 ∧ a.length ≤ 0xFFFFFFFF) ∧
    ∃ file movie,
      a.encode = .ok file ∧ Png.Movie.decode file = .ok movie ∧ movie.plays = 3 ∧
      movie.frames.map (fun f => f.image.toImage) = a.frames ∧
      Source.decode file =
        .ok ⟨none, ⟨⟨⟨2, 1⟩, #[⟨200, 10, 0, 0⟩, ⟨0, 0, 7, 128⟩], rfl⟩, []⟩⟩ := by
  intro a
  have hmode : a.loopMode ≠ .finite 0 := by decide
  have hlength : a.length ≤ 0xFFFFFFFF := by decide
  obtain ⟨hwritten, hcomes, -⟩ := decode_encode_of_plays a hmode hlength
  obtain ⟨file, hfile⟩ := hwritten.mpr (by simp [a])
  obtain ⟨movie, first, hmovie, -, hplays, hframes, -, hfirst, hstill⟩ := hcomes file hfile
  obtain rfl : _ = first := Option.some.inj hfirst
  exact ⟨⟨hmode, hlength⟩, file, movie, hfile, hmovie, hplays, hframes, hstill⟩

/-- A pixel in a buffer of twice its samples makes an animation without a file, and by itself has
a file, which shows the pixel. -/
theorem encode_refuses_longer_buffer :
    let frame : Image := ⟨⟨⟨1, 1⟩, #[⟨200, 0, 0, 128⟩], rfl⟩, [0, 0, 0, 0]⟩
    ∃ a, make [frame] ⟨1, 10⟩ .infinite = .ok a ∧ a.loopMode ≠ .finite 0 ∧
      a.length ≤ 0xFFFFFFFF ∧
      (∃ e, a.encode = .error e ∧ e.message =
        "encode error: failed to encode APNG frame 0: wrong data size, expected 4 got 8") ∧
      ∃ file, frame.png = .ok file ∧ Source.decode file = .ok ⟨none, frame.toBitmap.toImage⟩ := by
  intro frame
  have hpixels : frame.canvas.hasPixels = true := by decide
  exact ⟨_, rfl, by decide, by decide, ⟨_, rfl, by decide⟩, _, rfl,
    Source.decode_encodeStill hpixels⟩

end Animation

end HueCycle
