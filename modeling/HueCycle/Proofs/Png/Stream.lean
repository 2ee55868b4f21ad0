/-
HueCycle.Proofs.Png.Stream — how the chunks of an animated PNG follow each
other.

The writer goes from frame to frame with one counter for control chunks and
numbered data; the first frame is stored as a still image and its data has no
number. Nothing here depends on what the data is or where it is cut: a frame
is its control with any pieces. `IsStream` says what a file must look like
without saying how it is written, and `isStream_streamOf` shows it of the
writer.

  §1 Writing     — runs of chunks, and a movie's chunks as runs
  §2 Well-formed — `IsRun`, `IsStream`
  §3 Numbers     — one run goes on where the last one stopped, so all of them count
  §4 The stream
-/
import Mathlib
import HueCycle.Proofs.Png.MovieFile

namespace HueCycle.Png

/-! ## §1 Writing -/

/-- A frame on its way into a file: its control, and its data in pieces. -/
abbrev CutFrame := FrameControl × List Bytes

/-- The chunks of the first frame. -/
def firstRun (f : CutFrame) : List Chunk := ⟨Kind.frame, f.1.write 0⟩ :: f.2.map dataChunk

/-- The chunks of a later frame, with sequence numbers from `sequence` on. -/
def laterRun (sequence : Nat) (f : CutFrame) : List Chunk :=
  ⟨Kind.frame, f.1.write sequence⟩ :: numberedData (sequence + 1) f.2

/-- The chunks of the frames after the first one, frame by frame. -/
def laterRuns (sequence : Nat) : List CutFrame → List (List Chunk)
  | [] => []
  | f :: rest => laterRun sequence f :: laterRuns (sequence + (f.2.length + 1)) rest

/-- The chunks of all frames, frame by frame. -/
def runsOf : List CutFrame → List (List Chunk)
  | [] => []
  | f :: rest => firstRun f :: laterRuns 1 rest

/-- The chunks of an animated PNG whose frames are cut into pieces. -/
def streamOf (canvas : Canvas) (plays : UInt32) (frames : List CutFrame) : List Chunk :=
  ⟨Kind.header, (Header.plain canvas).write⟩ ::
    ⟨Kind.animation, AnimationControl.write ⟨UInt32.ofNat frames.length, plays⟩⟩ ::
      (runsOf frames).flatten ++ [⟨Kind.fileEnd, []⟩]

theorem laterChunks_eq_laterRuns (limit sequence : Nat) (frames : List MovieFrame) :
    laterChunks limit sequence frames =
      (laterRuns sequence (frames.map (Gathered.stored limit))).flatten := by
  induction frames generalizing sequence with
  | nil => rfl
  | cons f rest ih =>
    have hnext : sequence + 1 + (split limit (compress f.image)).length =
        sequence + ((Gathered.stored limit f).2.length + 1) := by
      show _ = sequence + ((split limit (compress f.image)).length + 1)
      omega
    rw [laterChunks, hnext, ih, List.map_cons, laterRuns, List.flatten_cons]
    rfl

/-- **A movie is written frame by frame**, with the data of each cut at the limit. -/
theorem Movie.chunks_eq_streamOf (limit : Nat) (m : Movie) :
    m.chunks limit = streamOf m.canvas m.plays (m.frames.map (Gathered.stored limit)) := by
  have hframes : frameChunks limit m.frames =
      (runsOf (m.frames.map (Gathered.stored limit))).flatten := by
    cases m.frames with
    | nil => rfl
    | cons first later =>
      rw [frameChunks, laterChunks_eq_laterRuns]
      rfl
  rw [chunks, streamOf, hframes, List.length_map]

/-! ## §2 Well-formed streams -/

namespace Chunk

/-- The sequence number that a chunk carries, if its kind has one. -/
def sequence? (c : Chunk) : Option Nat :=
  if c.kind = Kind.frame ∨ c.kind = Kind.frameData then some (ofBigEndian (c.data.take 4))
  else none

/-- What a data chunk holds of a frame: everything behind its number, if it has one. -/
def payload (c : Chunk) : Bytes := if c.kind = Kind.frameData then c.data.drop 4 else c.data

end Chunk

/-- The sequence numbers of chunks in their order. -/
def numbersOf (chunks : List Chunk) : List Nat := chunks.filterMap Chunk.sequence?

/-- The chunks of one frame: its control, and behind it all of its data in at least one chunk of
the given kind. -/
structure IsRun (kind : Kind) (frame : FrameControl × Bytes) (run : List Chunk) : Prop where
  opens : ∃ c ∈ run.head?, c.kind = Kind.frame ∧
    ∃ n, FrameControl.read? c.data = some (n, frame.1)
  goes_on : run.tail ≠ []
  kinds : ∀ c ∈ run.tail, c.kind = kind
  payloads : (run.tail.map Chunk.payload).flatten = frame.2

/-- The chunks of all frames: the data of the first one is image data, that of the others is
numbered. -/
def AreRuns : List (FrameControl × Bytes) → List (List Chunk) → Prop
  | first :: later, run :: runs =>
    IsRun Kind.imageData first run ∧ List.Forall₂ (IsRun Kind.frameData) later runs
  | _, _ => False

/-- The chunks of an animated PNG with the given frames: a header with the canvas, the number of
frames and plays, the chunks of each frame, and the end. There are as many frame controls as
frames, and the sequence numbers, in fields of 32 bits, count from zero. -/
structure IsStream (canvas : Canvas) (plays : UInt32) (frames : List (FrameControl × Bytes))
    (chunks : List Chunk) : Prop where
  layout : ∃ header animation runs,
    chunks = header :: animation :: runs.flatten ++ [⟨Kind.fileEnd, []⟩] ∧
      header.kind = Kind.header ∧ Header.read? header.data = some (Header.plain canvas) ∧
      animation.kind = Kind.animation ∧
      (∃ control, AnimationControl.read? animation.data = some control ∧
        control.frames.toNat = frames.length ∧ control.plays = plays) ∧
      AreRuns frames runs
  controls : chunks.countP (fun c => c.kind = Kind.frame) = frames.length
  numbers : numbersOf chunks = (List.range (numbersOf chunks).length).map (· % 0x100000000)
  /-- As far as 32 bits reach there is no gap and no repetition. -/
  consecutive : (numbersOf chunks).length ≤ 0x100000000 →
    numbersOf chunks = List.range (numbersOf chunks).length

/-! ## §3 Numbers -/

@[simp] theorem numbersOf_nil : numbersOf [] = [] := rfl

@[simp] theorem numbersOf_append (a b : List Chunk) :
    numbersOf (a ++ b) = numbersOf a ++ numbersOf b := List.filterMap_append

theorem numbersOf_control (sequence : Nat) (c : FrameControl) (rest : List Chunk) :
    numbersOf (⟨Kind.frame, c.write sequence⟩ :: rest) =
      sequence % 0x100000000 :: numbersOf rest := by
  have hfield : (c.write sequence).take 4 = bigEndian 4 sequence := by
    simp only [FrameControl.write, List.append_assoc]
    exact List.take_left' (length_bigEndian _ _)
  have hnumber : Chunk.sequence? ⟨Kind.frame, c.write sequence⟩ =
      some (sequence % 0x100000000) := by
    rw [Chunk.sequence?, if_pos (.inl rfl), hfield, ofBigEndian_bigEndian]
    rfl
  rw [numbersOf, List.filterMap_cons_some hnumber]
  rfl

/-- Chunks of other kinds do not count. -/
theorem numbersOf_eq_nil {chunks : List Chunk}
    (h : ∀ c ∈ chunks, c.kind ≠ Kind.frame ∧ c.kind ≠ Kind.frameData) : numbersOf chunks = [] := by
  refine List.filterMap_eq_nil_iff.mpr fun c hc => ?_
  rw [Chunk.sequence?, if_neg (not_or.mpr (h c hc))]

/-- Numbered data counts on. -/
theorem numbersOf_numberedData (sequence : Nat) (pieces : List Bytes) :
    numbersOf (numberedData sequence pieces) =
      (List.range' sequence pieces.length).map (· % 0x100000000) := by
  induction pieces generalizing sequence with
  | nil => rfl
  | cons piece rest ih =>
    have hnumber : Chunk.sequence? ⟨Kind.frameData, bigEndian 4 sequence ++ piece⟩ =
        some (sequence % 0x100000000) := by
      rw [Chunk.sequence?, if_pos (.inr rfl), List.take_left' (length_bigEndian _ _),
        ofBigEndian_bigEndian]
      rfl
    rw [numberedData, numbersOf, List.filterMap_cons_some hnumber, ← numbersOf, ih,
      List.length_cons, List.range'_succ, List.map_cons]

/-- A later frame takes one number for its control and one for each piece. -/
theorem numbersOf_laterRun (sequence : Nat) (f : CutFrame) :
    numbersOf (laterRun sequence f) =
      (List.range' sequence (f.2.length + 1)).map (· % 0x100000000) := by
  rw [laterRun, numbersOf_control, numbersOf_numberedData, List.range'_succ, List.map_cons]

/-- Frame after frame the numbers go on where the last frame stopped. -/
theorem numbersOf_laterRuns (sequence : Nat) (frames : List CutFrame) :
    ∃ count, numbersOf (laterRuns sequence frames).flatten =
      (List.range' sequence count).map (· % 0x100000000) := by
  induction frames generalizing sequence with
  | nil => exact ⟨0, rfl⟩
  | cons f rest ih =>
    obtain ⟨count, hrest⟩ := ih (sequence + (f.2.length + 1))
    refine ⟨f.2.length + 1 + count, ?_⟩
    rw [laterRuns, List.flatten_cons, numbersOf_append, numbersOf_laterRun, hrest,
      ← List.map_append, List.range'_append_1]

theorem numbersOf_firstRun (f : CutFrame) : numbersOf (firstRun f) = [0] := by
  have hdata : numbersOf (f.2.map dataChunk) = [] := by
    refine numbersOf_eq_nil fun c hc => ?_
    obtain ⟨piece, -, rfl⟩ := List.mem_map.mp hc
    have hkinds : Kind.imageData ≠ Kind.frame ∧ Kind.imageData ≠ Kind.frameData := by decide
    exact hkinds
  rw [firstRun, numbersOf_control, hdata]

/-- **All sequence numbers of a stream** count from zero. -/
theorem numbersOf_streamOf (canvas : Canvas) (plays : UInt32) (frames : List CutFrame) :
    ∃ count, numbersOf (streamOf canvas plays frames) =
      (List.range count).map (· % 0x100000000) := by
  have hruns : ∃ count, numbersOf (runsOf frames).flatten =
      (List.range' 0 count).map (· % 0x100000000) := by
    cases frames with
    | nil => exact ⟨0, rfl⟩
    | cons first later =>
      obtain ⟨count, hlater⟩ := numbersOf_laterRuns 1 later
      refine ⟨count + 1, ?_⟩
      rw [runsOf, List.flatten_cons, numbersOf_append, numbersOf_firstRun, hlater,
        List.range'_succ, List.map_cons]
      rfl
  obtain ⟨count, hcount⟩ := hruns
  refine ⟨count, ?_⟩
  have hend : numbersOf [⟨Kind.fileEnd, []⟩] = [] := numbersOf_eq_nil (by simp; decide)
  rw [List.range_eq_range', ← hcount]
  show numbersOf ([⟨Kind.header, _⟩, ⟨Kind.animation, _⟩] ++ ((runsOf frames).flatten ++
    [⟨Kind.fileEnd, []⟩])) = _
  rw [numbersOf_append, numbersOf_append, hend, numbersOf_eq_nil (by simp; decide),
    List.nil_append, List.append_nil]

/-! ## §4 The stream -/

section Runs

variable {f : CutFrame} (hknown : f.1.Known) (hpieces : f.2 ≠ [])

include hknown hpieces

theorem isRun_firstRun : IsRun Kind.imageData (f.1, f.2.flatten) (firstRun f) where
  opens := ⟨_, rfl, rfl, _, FrameControl.read?_write hknown 0⟩
  goes_on := by simpa [firstRun] using hpieces
  kinds c hc := by
    obtain ⟨piece, -, rfl⟩ := List.mem_map.mp hc
    rfl
  payloads := by
    have hpayload : Chunk.payload ∘ dataChunk = id := by
      funext piece
      show (if Kind.imageData = Kind.frameData then piece.drop 4 else piece) = piece
      rw [if_neg (by decide)]
    show ((f.2.map dataChunk).map Chunk.payload).flatten = f.2.flatten
    rw [List.map_map, hpayload, List.map_id]

omit hknown hpieces in
theorem kind_of_mem_numberedData {sequence : Nat} {pieces : List Bytes} {c : Chunk}
    (h : c ∈ numberedData sequence pieces) : c.kind = Kind.frameData := by
  induction pieces generalizing sequence with
  | nil => cases h
  | cons piece rest ih =>
    rcases List.mem_cons.mp h with rfl | h
    · rfl
    · exact ih h

omit hknown hpieces in
theorem map_payload_numberedData (sequence : Nat) (pieces : List Bytes) :
    (numberedData sequence pieces).map Chunk.payload = pieces := by
  induction pieces generalizing sequence with
  | nil => rfl
  | cons piece rest ih =>
    have hpayload : Chunk.payload ⟨Kind.frameData, bigEndian 4 sequence ++ piece⟩ = piece := by
      rw [Chunk.payload, if_pos rfl]
      exact List.drop_left' (length_bigEndian _ _)
    rw [numberedData, List.map_cons, hpayload, ih]

theorem isRun_laterRun (sequence : Nat) :
    IsRun Kind.frameData (f.1, f.2.flatten) (laterRun sequence f) where
  opens := ⟨_, rfl, rfl, _, FrameControl.read?_write hknown sequence⟩
  goes_on := by
    obtain ⟨piece, rest, hf⟩ := List.exists_cons_of_ne_nil hpieces
    simp [laterRun, hf, numberedData]
  kinds c hc := kind_of_mem_numberedData hc
  payloads := by
    show ((numberedData (sequence + 1) f.2).map Chunk.payload).flatten = f.2.flatten
    rw [map_payload_numberedData]

end Runs

/-- A frame in one piece. -/
def CutFrame.joined (f : CutFrame) : FrameControl × Bytes := (f.1, f.2.flatten)

theorem forall₂_laterRuns {frames : List CutFrame} (hknown : ∀ f ∈ frames, f.1.Known)
    (hpieces : ∀ f ∈ frames, f.2 ≠ []) (sequence : Nat) :
    List.Forall₂ (IsRun Kind.frameData) (frames.map CutFrame.joined)
      (laterRuns sequence frames) := by
  induction frames generalizing sequence with
  | nil => exact .nil
  | cons f rest ih =>
    have hrest := ih (fun g hg => hknown g (List.mem_cons_of_mem _ hg))
      (fun g hg => hpieces g (List.mem_cons_of_mem _ hg)) (sequence + (f.2.length + 1))
    exact .cons (isRun_laterRun (hknown f List.mem_cons_self) (hpieces f List.mem_cons_self)
      sequence) hrest

/-- Each run has one frame control. -/
theorem IsRun.countP_controls {kind : Kind} (hkind : kind ≠ Kind.frame)
    {frame : FrameControl × Bytes} {run : List Chunk} (h : IsRun kind frame run) :
    run.countP (fun c => c.kind = Kind.frame) = 1 := by
  obtain ⟨c, hc, hcontrol, -⟩ := h.opens
  obtain ⟨rest, rfl⟩ := List.head?_eq_some_iff.mp hc
  have hrest : rest.countP (fun c => c.kind = Kind.frame) = 0 := by
    refine List.countP_eq_zero.mpr fun d hd => ?_
    rw [h.kinds d hd]
    simpa using hkind
  rw [List.countP_cons, hrest, if_pos (by simpa using hcontrol)]

theorem AreRuns.countP_controls {frames : List (FrameControl × Bytes)} {runs : List (List Chunk)}
    (h : AreRuns frames runs) :
    runs.flatten.countP (fun c => c.kind = Kind.frame) = frames.length := by
  match frames, runs, h with
  | first :: later, run :: runs, ⟨hfirst, hlater⟩ =>
    have hrest : runs.flatten.countP (fun c => c.kind = Kind.frame) = later.length := by
      induction hlater with
      | nil => rfl
      | cons hrun hrest ih =>
        rw [List.flatten_cons, List.countP_append, hrun.countP_controls (by decide), ih,
          List.length_cons, Nat.add_comm]
    rw [List.flatten_cons, List.countP_append, hfirst.countP_controls (by decide), hrest,
      List.length_cons, Nat.add_comm]

/-- **Wherever the data of the frames is cut**, their chunks are those of an animated PNG. -/
theorem isStream_streamOf {canvas : Canvas} (hpixels : canvas.hasPixels = true) (plays : UInt32)
    (frames : List CutFrame) (hne : frames ≠ []) (hlength : frames.length < 0x100000000)
    (hknown : ∀ f ∈ frames, f.1.Known) (hpieces : ∀ f ∈ frames, f.2 ≠ []) :
    IsStream canvas plays (frames.map CutFrame.joined) (streamOf canvas plays frames) := by
  have hruns : AreRuns (frames.map CutFrame.joined) (runsOf frames) := by
    obtain ⟨first, later, rfl⟩ := List.exists_cons_of_ne_nil hne
    exact ⟨isRun_firstRun (hknown first List.mem_cons_self) (hpieces first List.mem_cons_self),
      forall₂_laterRuns (fun f hf => hknown f (List.mem_cons_of_mem _ hf))
        (fun f hf => hpieces f (List.mem_cons_of_mem _ hf)) 1⟩
  have hcount : (UInt32.ofNat frames.length).toNat = (frames.map CutFrame.joined).length := by
    rw [UInt32.toNat_ofNat', List.length_map]
    exact Nat.mod_eq_of_lt hlength
  obtain ⟨count, hnumbers⟩ := numbersOf_streamOf canvas plays frames
  refine ⟨⟨_, _, _, rfl, rfl, Header.read?_write_plain hpixels, rfl,
    ⟨_, AnimationControl.read?_write _, hcount, rfl⟩, hruns⟩, ?_, ?_, ?_⟩
  · have hothers : ∀ kind data, kind ≠ Kind.frame →
        List.countP (fun c => c.kind = Kind.frame) [(⟨kind, data⟩ : Chunk)] = 0 := by
      intro kind data hkind
      simp [hkind]
    show List.countP _ ([⟨Kind.header, _⟩] ++ ([⟨Kind.animation, _⟩] ++ ((runsOf frames).flatten ++
      [⟨Kind.fileEnd, []⟩]))) = _
    rw [List.countP_append, List.countP_append, List.countP_append, hothers _ _ (by decide),
      hothers _ _ (by decide), hothers _ _ (by decide), hruns.countP_controls]
    omega
  · rw [hnumbers, List.length_map, List.length_range]
  · rw [hnumbers, List.length_map, List.length_range]
    intro hfew
    refine (List.map_congr_left fun k hk => ?_).trans (List.map_id _)
    exact Nat.mod_eq_of_lt ((List.mem_range.mp hk).trans_le hfew)

end HueCycle.Png
