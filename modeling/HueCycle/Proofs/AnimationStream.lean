/-
HueCycle.Proofs.AnimationStream — the chunks in the file of an animation.

An animation that is accepted becomes a stream of chunks with one control for
each frame, all alike, and one count of sequence numbers. The file that is
written is the case where the data of a frame is its compressed rows, cut at
the greatest length of a chunk. Main statement: `Animation.encode_isStream`.
-/
import Mathlib
import HueCycle.Proofs.AnimationFile
import HueCycle.Proofs.Png.Stream

namespace HueCycle

open Png

namespace Animation

/-- The control that every frame of an animation has. -/
def control (a : Animation) : FrameControl := .full a.canvas a.delay

/-- The frames of an animation, however their data is cut, make a stream. -/
theorem isStream_of_pieces {a : Animation} (hlength : a.length < 0x100000000) (plays : UInt32)
    (pieces : List (List Bytes)) (hcount : pieces.length = a.length)
    (hpieces : ∀ p ∈ pieces, p ≠ []) :
    IsStream a.canvas plays (pieces.map fun p => (a.control, p.flatten))
      (streamOf a.canvas plays (pieces.map fun p => (a.control, p))) := by
  have hne : pieces ≠ [] := by
    rintro rfl
    exact a.frames_ne_nil (List.length_eq_zero_iff.mp hcount.symm)
  have hstream := isStream_streamOf a.hasPixels plays (pieces.map fun p => (a.control, p))
    (by simpa using hne) (by rw [List.length_map, hcount]; exact hlength) ?_ ?_
  · rw [List.map_map] at hstream
    exact hstream
  · intro f hf
    obtain ⟨p, -, rfl⟩ := List.mem_map.mp hf
    exact FrameControl.known_full _ _
  · intro f hf
    obtain ⟨p, hp, rfl⟩ := List.mem_map.mp hf
    exact hpieces p hp

/-- **The file of an animation is a well-formed stream.** Its chunks are the header, the number of
frames, for each frame its control and its data, and the end. There are as many frame controls as
the header says and the animation has frames; each covers the canvas from the corner on, has the
delay of the animation, stays, and replaces what was there. Control chunks and numbered data count
one sequence from zero, in fields of 32 bits. All of it holds for any data in the frames and
wherever that is cut. -/
theorem encode_isStream {a : Animation} {file : Bytes} (h : a.encode = .ok file) :
    (∃ chunks, chunksOf? file = some (chunks.map Chunk.found, []) ∧
      IsStream a.canvas a.loopMode.count
        (a.frames.map fun image =>
          (⟨a.canvas, 0, 0, a.delay, 0, 0⟩, compress image.toBitmap)) chunks) ∧
    ∀ pieces : List (List Bytes), pieces.length = a.length → (∀ p ∈ pieces, p ≠ []) →
      IsStream a.canvas a.loopMode.count
        (pieces.map fun p => (⟨a.canvas, 0, 0, a.delay, 0, 0⟩, p.flatten))
        (streamOf a.canvas a.loopMode.count
          (pieces.map fun p => (⟨a.canvas, 0, 0, a.delay, 0, 0⟩, p))) := by
  obtain ⟨hlength, -, hfile⟩ := of_encode h
  refine ⟨?_, fun pieces hcount hpieces => isStream_of_pieces hlength _ pieces hcount hpieces⟩
  have hcut : (a.movie a.loopMode.count).frames.map (Gathered.stored (chunkMax - 4)) =
      (a.frames.map fun image => split (chunkMax - 4) (compress image.toBitmap)).map
        fun p => (a.control, p) := by
    rw [frames_movie, List.map_map, List.map_map]
    rfl
  have hjoined : (a.frames.map fun image => split (chunkMax - 4) (compress image.toBitmap)).map
      (fun p => (a.control, p.flatten)) =
        a.frames.map fun image => (a.control, compress image.toBitmap) := by
    rw [List.map_map]
    exact List.map_congr_left fun image _ => congrArg _ (flatten_split _ _)
  have hstream := isStream_of_pieces hlength a.loopMode.count
    (a.frames.map fun image => split (chunkMax - 4) (compress image.toBitmap))
    (List.length_map _) (by simp)
  rw [hjoined, ← hcut] at hstream
  refine ⟨_, ?_, hstream⟩
  rw [← hfile, Movie.encode, chunksOf?_fileOf (Movie.fits_chunks (by decide) le_rfl _),
    Movie.chunks_eq_streamOf]
  rfl

/-- Two frames of two pixels, the second one cut in two. -/
theorem encode_isStream_two_frames :
    let a : Animation := {
      frames := [⟨⟨⟨2, 1⟩, #[⟨200, 10, 0, 0⟩, ⟨0, 0, 7, 128⟩], rfl⟩, []⟩,
        ⟨⟨⟨2, 1⟩, #[⟨0, 0, 7, 128⟩, ⟨200, 10, 0, 0⟩], rfl⟩, []⟩]
      canvas := ⟨2, 1⟩
      delay := ⟨1, 25⟩
      loopMode := .finite 3
      frames_ne_nil := by simp
      canvas_eq := by simp
      hasPixels := by decide
      den_ne_zero := by decide }
    (∃ file, a.encode = .ok file) ∧
    (∃ file, ∃ chunks : List Chunk, a.encode = .ok file ∧
      chunksOf? file = some (chunks.map Chunk.found, []) ∧
      chunks.countP (fun c => c.kind = Kind.frame) = 2) ∧
    numbersOf (streamOf ⟨2, 1⟩ 3
      [(⟨⟨2, 1⟩, 0, 0, ⟨1, 25⟩, 0, 0⟩, [[1]]), (⟨⟨2, 1⟩, 0, 0, ⟨1, 25⟩, 0, 0⟩, [[2], [3, 4]])]) =
        [0, 1, 2, 3] := by
  intro a
  have hfile := encode_eq_ok (a := a) (by decide) (by decide) (by simp [a])
  obtain ⟨⟨chunks, hchunks, hstream⟩, hcut⟩ := encode_isStream hfile
  have hpieces := hcut [[[1]], [[2], [3, 4]]] rfl (by simp)
  refine ⟨⟨_, hfile⟩, ⟨_, chunks, hfile, hchunks, hstream.controls⟩, ?_⟩
  exact hpieces.consecutive (by decide)

end Animation

end HueCycle
