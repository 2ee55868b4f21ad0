/-
HueCycle.Proofs.Png.MovieFile — an animated PNG file is read back as the
animation.

The reader takes one chunk at a time into what it has gathered so far. Each
kind of chunk that is written has one lemma that says what it adds; a frame
is then its control followed by the run of its data, and the later frames
are an induction over them. Writer and reader count the same sequence, both
modulo `2 ^ 32`, so the number of chunks does not matter.
-/
import Mathlib
import HueCycle.Proofs.Png.StillFile

namespace HueCycle.Png

/-! ## §1 Movies that can be read back -/

/-- What a file must keep to so that it is read back: a canvas with pixels, at
least one frame and no more than a control can count, frames on the canvas
that have the size their control states, and a first one that covers it. -/
structure Movie.WellFormed (m : Movie) : Prop where
  hasPixels : m.canvas.hasPixels = true
  frames_ne_nil : m.frames ≠ []
  length_lt : m.frames.length < 0x100000000
  known : ∀ f ∈ m.frames, f.control.Known
  fits : ∀ f ∈ m.frames, f.control.fits m.canvas = true
  region : ∀ f ∈ m.frames, f.image.canvas = f.control.region
  covers : ∀ f ∈ m.frames.head?, f.control.covers m.canvas = true

/-- The chunks of a movie behind its header. -/
def Movie.body (limit : Nat) (m : Movie) : List Chunk :=
  (⟨Kind.animation, AnimationControl.write ⟨UInt32.ofNat m.frames.length, m.plays⟩⟩ : Chunk) ::
    frameChunks limit m.frames ++ [⟨Kind.fileEnd, []⟩]

theorem Movie.chunks_eq_cons (limit : Nat) (m : Movie) :
    m.chunks limit = ⟨Kind.header, (Header.plain m.canvas).write⟩ :: m.body limit := rfl

/-- The same chunks with the data of the first frame in view. -/
theorem Movie.body_eq {m : Movie} {first : MovieFrame} {later : List MovieFrame}
    (h : m.frames = first :: later) (limit : Nat) :
    m.body limit =
      [⟨Kind.animation, AnimationControl.write ⟨UInt32.ofNat m.frames.length, m.plays⟩⟩,
        ⟨Kind.frame, first.control.write 0⟩] ++
          ((split limit (compress first.image)).map dataChunk ++
            (laterChunks limit 1 later ++ [⟨Kind.fileEnd, []⟩])) := by
  rw [Movie.body, h]
  simp only [frameChunks, List.cons_append, List.append_assoc, List.nil_append]
  rfl

theorem FrameControl.region_hasPixels {c : FrameControl} {canvas : Canvas}
    (h : c.fits canvas = true) : c.region.hasPixels = true := by
  rw [FrameControl.fits, Bool.and_eq_true, Bool.and_eq_true] at h
  exact h.1.1

/-! ## §2 The chunks in front of the image data -/

/-- Only palettes, frame controls and data of frames end the reading at once. -/
theorem Chunk.fault?_eq_none {c : Chunk} (hpalette : c.kind ≠ Kind.palette)
    (hlength : c.kind = Kind.frame → c.data.length = FrameControl.length)
    (hdata : c.kind ≠ Kind.frameData) : c.fault? = none := by
  have h₁ : ¬ (c.kind = Kind.palette ∧ (!isPalette c.data) = true) := fun h => hpalette h.1
  have h₂ : ¬ (c.kind = Kind.frame ∧ c.data.length ≠ FrameControl.length) :=
    fun h => h.2 (hlength h.1)
  rw [Chunk.fault?, if_neg h₁, if_neg h₂, if_neg hdata]

theorem add_animationChunk (p : Prelude) (frames : Nat) (data : Bytes) :
    p.add frames (Chunk.found ⟨Kind.animation, data⟩) = .ok (p, frames) := by
  have hcontrol : Kind.animation ≠ Kind.frame := by decide
  have hcritical : Kind.animation.isCritical = false := by decide
  have hfault : Chunk.fault? ⟨Kind.animation, data⟩ = none :=
    Chunk.fault?_eq_none (by simp; decide) (fun h => absurd h hcontrol) (by simp; decide)
  simp only [Prelude.add, Chunk.found, hfault, hcritical]
  rfl

/-- A frame control that covers the canvas and has the next number is only
counted. -/
theorem add_frameChunk {canvas : Canvas} {c : FrameControl} (hknown : c.Known)
    (hcovers : c.covers canvas = true) :
    (Prelude.ofHeader (Header.plain canvas)).add 0 (Chunk.found ⟨Kind.frame, c.write 0⟩) =
      .ok (Prelude.ofHeader (Header.plain canvas), 1) := by
  have hfault : Chunk.fault? ⟨Kind.frame, c.write 0⟩ = none :=
    Chunk.fault?_eq_none (by simp; decide) (fun _ => c.length_write 0) (by simp; decide)
  have hcanvas : (Prelude.ofHeader (Header.plain canvas)).header.canvas = canvas := rfl
  have hread : FrameControl.read? (c.write 0) = some (0, c) := FrameControl.read?_write hknown 0
  simp only [Prelude.add, Chunk.found, hfault, hread, hcanvas, hcovers]
  rfl

theorem addsNothing_controls {canvas : Canvas} {c : FrameControl} (hknown : c.Known)
    (hcovers : c.covers canvas = true) (data : Bytes) :
    AddsNothing canvas [⟨Kind.animation, data⟩, ⟨Kind.frame, c.write 0⟩] := by
  intro d rest hd
  rw [List.map_cons, List.cons_append, readPrelude, if_neg (by simp [Chunk.found]; decide),
    add_animationChunk]
  show readPrelude _ _ (Chunk.found ⟨Kind.frame, c.write 0⟩ :: d :: rest) = _
  rw [readPrelude, if_neg (by simp [Chunk.found]; decide), add_frameChunk hknown hcovers]
  show readPrelude _ _ (d :: rest) = _
  rw [readPrelude, if_pos hd]

/-! ## §3 Gathering -/

namespace Gathered

theorem addAll_cons {header : Header} {g g' : Gathered} {c : FoundChunk}
    (h : g.add header c = .ok g') (rest : List FoundChunk) :
    addAll header g (c :: rest) = addAll header g' rest := by
  rw [addAll, h]

theorem add_animation (header : Header) (g : Gathered) (h : g.ended = false)
    (c : AnimationControl) :
    g.add header (Chunk.found ⟨Kind.animation, c.write⟩) = .ok { g with control := some c } := by
  simp only [add, Chunk.found, h, AnimationControl.read?_write]
  rfl

theorem add_fileEnd (header : Header) (g : Gathered) (h : g.ended = false) :
    g.add header (Chunk.found ⟨Kind.fileEnd, []⟩) = .ok { g with ended := true } := by
  simp only [add, Chunk.found, h]
  rfl

/-- A control with the next number opens a frame. -/
theorem add_control (header : Header) {g : Gathered} (h : g.ended = false) {c : FrameControl}
    (hknown : c.Known) (hfits : c.fits header.canvas = true) :
    g.add header (Chunk.found ⟨Kind.frame, c.write g.sequence⟩) =
      .ok { g with frames := (c, []) :: g.frames, sequence := g.sequence + 1 } := by
  have hexpects : g.expects (g.sequence % 0x100000000) = true := by simp [expects]
  simp only [add, Chunk.found, h, FrameControl.read?_write hknown, hexpects, hfits]
  rfl

/-- A run of image data goes to the frame that was opened last. -/
theorem addAll_dataChunks (header : Header) {g : Gathered} (h : g.ended = false)
    {c : FrameControl} {done : List Bytes} {before : List (FrameControl × List Bytes)}
    (hg : g.frames = (c, done) :: before) (pieces : List Bytes) (rest : List FoundChunk) :
    addAll header g ((pieces.map dataChunk).map Chunk.found ++ rest) =
      addAll header { g with frames := (c, done ++ pieces) :: before } rest := by
  induction pieces generalizing g done with
  | nil =>
    rw [List.append_nil, ← hg]
    rfl
  | cons piece pieces ih =>
    have hadd : g.add header (Chunk.found (dataChunk piece)) =
        .ok { g with frames := (c, done ++ [piece]) :: before } := by
      simp only [add, Chunk.found, dataChunk, h, append, hg]
      rfl
    rw [List.map_cons, List.map_cons, List.cons_append, addAll_cons hadd]
    rw [ih (g := { g with frames := (c, done ++ [piece]) :: before }) h rfl, List.append_assoc]
    rfl

/-- So does a run of numbered data that goes on with the sequence. -/
theorem addAll_numberedData (header : Header) {g : Gathered} (h : g.ended = false)
    {c : FrameControl} {done : List Bytes} {before : List (FrameControl × List Bytes)}
    (hg : g.frames = (c, done) :: before) (pieces : List Bytes) (rest : List FoundChunk) :
    addAll header g ((numberedData g.sequence pieces).map Chunk.found ++ rest) =
      addAll header { g with
        frames := (c, done ++ pieces) :: before
        sequence := g.sequence + pieces.length } rest := by
  induction pieces generalizing g done with
  | nil =>
    rw [List.append_nil, ← hg]
    rfl
  | cons piece pieces ih =>
    have hnumber : ofBigEndian ((bigEndian 4 g.sequence ++ piece).take 4) =
        g.sequence % 0x100000000 := by
      rw [List.take_left' (length_bigEndian _ _), ofBigEndian_bigEndian]
      rfl
    have hdata : (bigEndian 4 g.sequence ++ piece).drop 4 = piece :=
      List.drop_left' (length_bigEndian _ _)
    have hexpects : g.expects (g.sequence % 0x100000000) = true := by simp [expects]
    have hadd : g.add header (Chunk.found ⟨Kind.frameData, bigEndian 4 g.sequence ++ piece⟩) =
        .ok { g with
          frames := (c, done ++ [piece]) :: before
          sequence := g.sequence + 1 } := by
      simp only [add, Chunk.found, h, hnumber, hdata, hexpects, append, hg]
      rfl
    rw [numberedData, List.map_cons, List.cons_append, addAll_cons hadd]
    rw [ih (g := { g with
      frames := (c, done ++ [piece]) :: before
      sequence := g.sequence + 1 }) h rfl, List.append_assoc]
    simp only [List.singleton_append, List.length_cons, Nat.add_assoc, Nat.add_comm 1]

/-- A frame with the pieces of its compressed rows. -/
def stored (limit : Nat) (f : MovieFrame) : FrameControl × List Bytes :=
  (f.control, split limit (compress f.image))

/-- The later frames are gathered in order. -/
theorem addAll_laterChunks (header : Header) {g : Gathered} (h : g.ended = false)
    {frames : List MovieFrame} (hknown : ∀ f ∈ frames, f.control.Known)
    (hfits : ∀ f ∈ frames, f.control.fits header.canvas = true) (limit : Nat)
    (rest : List FoundChunk) :
    ∃ sequence, addAll header g ((laterChunks limit g.sequence frames).map Chunk.found ++ rest) =
      addAll header { g with
        frames := (frames.map (stored limit)).reverse ++ g.frames
        sequence := sequence } rest := by
  induction frames generalizing g with
  | nil => exact ⟨g.sequence, rfl⟩
  | cons f frames ih =>
    have hopen := add_control header h (hknown f List.mem_cons_self)
      (hfits f List.mem_cons_self)
    have hdata := addAll_numberedData header (g := { g with
      frames := (f.control, []) :: g.frames
      sequence := g.sequence + 1 }) h rfl (split limit (compress f.image))
    obtain ⟨sequence, hlater⟩ := ih (g := { g with
      frames := stored limit f :: g.frames
      sequence := g.sequence + 1 + (split limit (compress f.image)).length }) h
      (fun f' hf' => hknown f' (List.mem_cons_of_mem _ hf'))
      (fun f' hf' => hfits f' (List.mem_cons_of_mem _ hf'))
    refine ⟨sequence, ?_⟩
    rw [laterChunks, List.map_append, List.append_assoc, List.map_cons, List.cons_append,
      addAll_cons hopen, hdata]
    refine hlater.trans ?_
    rw [List.map_cons, List.reverse_cons, List.append_assoc]
    rfl

/-- Gathering a whole file gives its control and all of its frames. -/
theorem addAll_chunks {m : Movie} (h : m.WellFormed) (limit : Nat) :
    ∃ sequence, addAll (Header.plain m.canvas) nothing
        ((m.body limit).map Chunk.found) =
      .ok { control := some ⟨UInt32.ofNat m.frames.length, m.plays⟩
            frames := (m.frames.map (stored limit)).reverse
            sequence := sequence
            ended := true } := by
  obtain ⟨first, later, hframes⟩ := List.exists_cons_of_ne_nil h.frames_ne_nil
  have hmem (f : MovieFrame) (hf : f ∈ first :: later) : f ∈ m.frames := hframes ▸ hf
  have hopen := add_control (Header.plain m.canvas)
    (g := { nothing with control := some ⟨UInt32.ofNat m.frames.length, m.plays⟩ }) rfl
    (h.known first (hmem _ List.mem_cons_self)) (h.fits first (hmem _ List.mem_cons_self))
  have hdata := addAll_dataChunks (Header.plain m.canvas) (g := {
      control := some ⟨UInt32.ofNat m.frames.length, m.plays⟩
      frames := [(first.control, [])]
      sequence := 1
      ended := false }) rfl rfl (split limit (compress first.image))
  obtain ⟨sequence, hlater⟩ := addAll_laterChunks (Header.plain m.canvas) (g := {
      control := some ⟨UInt32.ofNat m.frames.length, m.plays⟩
      frames := [stored limit first]
      sequence := 1
      ended := false }) rfl (fun f hf => h.known f (hmem _ (List.mem_cons_of_mem _ hf)))
      (fun f hf => h.fits f (hmem _ (List.mem_cons_of_mem _ hf))) limit
      [Chunk.found ⟨Kind.fileEnd, []⟩]
  refine ⟨sequence, ?_⟩
  rw [Movie.body_eq hframes, List.cons_append, List.cons_append, List.nil_append, List.map_cons,
    List.map_cons, addAll_cons (add_animation _ _ rfl _)]
  refine (addAll_cons hopen _).trans ?_
  rw [List.map_append, List.map_append]
  refine (hdata _).trans (hlater.trans ?_)
  rw [addAll_cons (add_fileEnd _ _ rfl), hframes, List.map_cons, List.reverse_cons]
  rfl

end Gathered

/-! ## §4 The frames -/

/-- The frames are decompressed one by one. -/
theorem decodeFrames_stored {canvas : Canvas} {frames : List MovieFrame}
    (hfits : ∀ f ∈ frames, f.control.fits canvas = true)
    (hregion : ∀ f ∈ frames, f.image.canvas = f.control.region) (limit : Nat) :
    decodeFrames (Prelude.ofHeader (Header.plain canvas))
      (frames.map (Gathered.stored limit)) = .ok frames := by
  induction frames with
  | nil => rfl
  | cons f frames ih =>
    have hcanvas := hregion f List.mem_cons_self
    have hpixels : f.image.canvas.hasPixels = true :=
      hcanvas ▸ FrameControl.region_hasPixels (hfits f List.mem_cons_self)
    have himage := decompress_pieces hpixels (split_ne_nil limit _) (flatten_split limit _)
    rw [hcanvas] at himage
    have hrest := ih (fun f' hf' => hfits f' (List.mem_cons_of_mem _ hf'))
      (fun f' hf' => hregion f' (List.mem_cons_of_mem _ hf'))
    have hprelude : (Prelude.ofHeader (Header.plain canvas)).forRegion f.control.region =
        Prelude.ofHeader (Header.plain f.control.region) := rfl
    rw [List.map_cons, Gathered.stored, decodeFrames, hprelude, himage]
    simp only [bind, Except.bind, hrest]
    rfl

/-! ## §5 The file -/

theorem fits_numberedData {limit sequence : Nat} {data : List Bytes}
    (h : ∀ piece ∈ data, piece.length ≤ limit) (hmax : limit ≤ chunkMax - 4) :
    ∀ c ∈ numberedData sequence data, c.Fits := by
  induction data generalizing sequence with
  | nil => simp [numberedData]
  | cons piece rest ih =>
    intro c hc
    rw [numberedData, List.mem_cons] at hc
    rcases hc with rfl | hc
    · have hpiece := h piece List.mem_cons_self
      have hlt : chunkMax - 4 + 4 < 0x100000000 := by decide
      rw [Chunk.Fits, List.length_append, length_bigEndian]
      omega
    · exact ih (fun p hp => h p (List.mem_cons_of_mem _ hp)) c hc

theorem fits_control (sequence : Nat) (c : FrameControl) :
    Chunk.Fits ⟨Kind.frame, c.write sequence⟩ := by
  rw [Chunk.Fits, c.length_write]
  decide

theorem fits_laterChunks {limit : Nat} (hs : 0 < limit) (hmax : limit ≤ chunkMax - 4)
    (frames : List MovieFrame) (sequence : Nat) :
    ∀ c ∈ laterChunks limit sequence frames, c.Fits := by
  induction frames generalizing sequence with
  | nil => simp [laterChunks]
  | cons f rest ih =>
    intro c hc
    simp only [laterChunks, List.cons_append, List.mem_cons, List.mem_append] at hc
    rcases hc with rfl | hc | hc
    · exact fits_control sequence f.control
    · exact fits_numberedData (fun p hp => length_le_of_mem_split hs hp) hmax c hc
    · exact ih _ c hc

theorem Movie.fits_chunks {limit : Nat} (hs : 0 < limit) (hmax : limit ≤ chunkMax - 4)
    (m : Movie) : ∀ c ∈ m.chunks limit, c.Fits := by
  intro c hc
  simp only [Movie.chunks, List.cons_append, List.mem_cons, List.mem_append, List.not_mem_nil,
    or_false] at hc
  rcases hc with rfl | rfl | hc | rfl
  · exact fits_header m.canvas
  · rw [Chunk.Fits, AnimationControl.length_write]
    decide
  · cases hframes : m.frames with
    | nil => simp [frameChunks, hframes] at hc
    | cons first later =>
      simp only [hframes, frameChunks, List.cons_append, List.mem_cons, List.mem_append,
        List.mem_map] at hc
      rcases hc with rfl | ⟨piece, hp, rfl⟩ | hc
      · exact fits_control 0 first.control
      · exact fits_dataChunk_of_mem_split hs (by omega) hp
      · exact fits_laterChunks hs hmax later 1 c hc
  · exact fits_fileEnd

/-- What follows the data of the first frame is never image data. -/
theorem exists_next_chunk (limit sequence : Nat) (frames : List MovieFrame) :
    ∃ next rest, laterChunks limit sequence frames ++ [⟨Kind.fileEnd, []⟩] = next :: rest ∧
      next.kind ≠ Kind.imageData := by
  cases frames with
  | nil => exact ⟨_, _, rfl, by decide⟩
  | cons f frames => exact ⟨_, _, rfl, by simp; decide⟩

/-- The prelude of a movie is that of its header. -/
theorem Movie.readPrelude_body {m : Movie} (h : m.WellFormed) (limit : Nat) :
    ∃ rest, readPrelude (Prelude.ofHeader (Header.plain m.canvas)) 0
      ((m.body limit).map Chunk.found) = .ok (Prelude.ofHeader (Header.plain m.canvas), rest) := by
  obtain ⟨first, later, hframes⟩ := List.exists_cons_of_ne_nil h.frames_ne_nil
  have hknown := h.known first (hframes ▸ List.mem_cons_self)
  have hcovers : first.control.covers m.canvas = true := h.covers first (by rw [hframes]; rfl)
  obtain ⟨piece, more, hsplit⟩ :=
    List.exists_cons_of_ne_nil (split_ne_nil limit (compress first.image))
  have hlead := addsNothing_controls hknown hcovers
    (AnimationControl.write ⟨UInt32.ofNat m.frames.length, m.plays⟩) (dataChunk piece).found
    ((more.map dataChunk ++
      (laterChunks limit 1 later ++ [(⟨Kind.fileEnd, []⟩ : Chunk)])).map Chunk.found) rfl
  refine ⟨_, Eq.trans ?_ hlead⟩
  rw [Movie.body_eq hframes, hsplit, List.map_append]
  rfl

/-- **A movie survives its file.** -/
theorem Movie.decode_encode {m : Movie} (h : m.WellFormed) : Movie.decode m.encode = .ok m := by
  obtain ⟨sequence, hgather⟩ := Gathered.addAll_chunks h (chunkMax - 4)
  obtain ⟨rest, hprelude⟩ := Movie.readPrelude_body h (chunkMax - 4)
  have hcount : (UInt32.ofNat m.frames.length).toNat = m.frames.length := by
    rw [UInt32.toNat_ofNat']
    exact Nat.mod_eq_of_lt h.length_lt
  have hlength : ((m.frames.map (Gathered.stored (chunkMax - 4))).reverse).length =
      m.frames.length := by
    rw [List.length_reverse, List.length_map]
  rw [Movie.decode, Movie.encode, chunksOf?_fileOf (m.fits_chunks (by decide) le_rfl),
    Movie.chunks_eq_cons, List.map_cons]
  simp only [splitHeader_plain h.hasPixels, hprelude, hgather, bind, Except.bind, hlength, hcount,
    List.reverse_reverse, decodeFrames_stored h.fits h.region, Bool.not_true,
    Bool.false_eq_true, ne_eq, not_true_eq_false, if_false]
  rfl

/-- The still image of a movie's file is its first frame. -/
theorem Movie.decodeStill_encode {m : Movie} (h : m.WellFormed) {first : MovieFrame}
    (hfirst : m.frames.head? = some first) : decodeStill m.encode = .ok first.image := by
  obtain ⟨later, hframes⟩ := List.head?_eq_some_iff.mp hfirst
  have hmem : first ∈ m.frames := hframes ▸ List.mem_cons_self
  have hcovers : first.control.covers m.canvas = true := h.covers first hfirst
  have hregion : first.control.region = m.canvas := by
    simp only [FrameControl.covers, Bool.and_eq_true, decide_eq_true_eq] at hcovers
    exact hcovers.1.1
  have hcanvas : first.image.canvas = m.canvas := (h.region first hmem).trans hregion
  obtain ⟨next, rest, hnext, hkind⟩ := exists_next_chunk (chunkMax - 4) 1 later
  refine decodeStill_fileOf (hcanvas ▸ h.hasPixels)
    (hcanvas ▸ addsNothing_controls (h.known first hmem) hcovers
      (AnimationControl.write ⟨UInt32.ofNat m.frames.length, m.plays⟩)) (split_ne_nil _ _)
    (flatten_split (chunkMax - 4) _) hkind rest ?_ (m.fits_chunks (by decide) le_rfl)
  rw [Movie.chunks_eq_cons, Movie.body_eq hframes, hnext, hcanvas]

end HueCycle.Png
