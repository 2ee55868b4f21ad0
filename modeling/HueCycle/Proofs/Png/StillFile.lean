/-
HueCycle.Proofs.Png.StillFile — the PNG file of an image is read back as the
image.

The statement is about a little more than the files this library writes for
one image: chunks that add nothing may stand before the image data, and any
chunks of another kind behind it. So it covers the still image of an
animation too.
-/
import Mathlib
import HueCycle.Animation
import HueCycle.Source
import HueCycle.Proofs.Png.Controls
import HueCycle.Proofs.Png.Rows

namespace HueCycle.Png

/-! ## §1 Lists of chunks -/

/-- A piece of image data as a chunk. -/
def dataChunk (data : Bytes) : Chunk := ⟨Kind.imageData, data⟩

/-- Chunks that leave the prelude of an image as its header made it, when image
data follows. -/
def AddsNothing (canvas : Canvas) (lead : List Chunk) : Prop :=
  ∀ (c : FoundChunk) (rest : List FoundChunk), c.chunk.kind = Kind.imageData →
    readPrelude (Prelude.ofHeader (Header.plain canvas)) 0 (lead.map Chunk.found ++ c :: rest) =
      .ok (Prelude.ofHeader (Header.plain canvas), c :: rest)

theorem addsNothing_nil (canvas : Canvas) : AddsNothing canvas [] := by
  intro c rest hc
  rw [List.map_nil, List.nil_append, readPrelude, if_pos hc]

theorem splitHeader_plain {canvas : Canvas} (h : canvas.hasPixels = true)
    (rest : List FoundChunk) :
    splitHeader (Chunk.found ⟨Kind.header, (Header.plain canvas).write⟩ :: rest) =
      .ok (Header.plain canvas, rest) := by
  simp only [splitHeader, Chunk.found, ne_eq, not_true_eq_false, if_false,
    Header.read?_write_plain h]
  rfl

/-- The run of image data is cut off in front of a chunk of another kind. -/
theorem takeWhile_dataChunks (pieces : List Bytes) {next : Chunk} (h : next.kind ≠ Kind.imageData)
    (rest : List Chunk) :
    ((pieces.map dataChunk ++ next :: rest).map Chunk.found).takeWhile
        (fun c => decide (c.chunk.kind = Kind.imageData)) =
      (pieces.map dataChunk).map Chunk.found := by
  induction pieces with
  | nil => simp [Chunk.found, h]
  | cons piece pieces ih => simpa [Chunk.found, dataChunk] using ih

theorem dropWhile_dataChunks (pieces : List Bytes) {next : Chunk} (h : next.kind ≠ Kind.imageData)
    (rest : List Chunk) :
    ((pieces.map dataChunk ++ next :: rest).map Chunk.found).dropWhile
        (fun c => decide (c.chunk.kind = Kind.imageData)) =
      (next :: rest).map Chunk.found := by
  induction pieces with
  | nil => simp [Chunk.found, h]
  | cons piece pieces ih => simpa [Chunk.found, dataChunk] using ih

/-! ## §2 The image of a file -/

/-- **The still image of a file** is the one that its image data stands for, whatever stands
behind the data. -/
theorem decodeStill_fileOf_eq {image : Bitmap} (hpixels : image.canvas.hasPixels = true)
    {lead : List Chunk} (hlead : AddsNothing image.canvas lead) {pieces : List Bytes}
    (hne : pieces ≠ [])
    (hp : (Prelude.ofHeader (Header.plain image.canvas)).decompress pieces = .ok image)
    {next : Chunk} (hnext : next.kind ≠ Kind.imageData) (rest : List Chunk) {chunks : List Chunk}
    (hchunks : chunks = ⟨Kind.header, (Header.plain image.canvas).write⟩ ::
      (lead ++ (pieces.map dataChunk ++ next :: rest)))
    (hfits : ∀ c ∈ chunks, c.Fits) :
    decodeStill (fileOf chunks) = .ok image := by
  obtain ⟨piece, more, rfl⟩ := List.exists_cons_of_ne_nil hne
  have hprelude : readPrelude (Prelude.ofHeader (Header.plain image.canvas)) 0
      ((lead ++ ((piece :: more).map dataChunk ++ next :: rest)).map Chunk.found) =
        .ok (Prelude.ofHeader (Header.plain image.canvas),
          ((piece :: more).map dataChunk ++ next :: rest).map Chunk.found) := by
    rw [List.map_append]
    exact hlead (dataChunk piece).found ((more.map dataChunk ++ next :: rest).map Chunk.found) rfl
  have hrun := takeWhile_dataChunks (piece :: more) hnext rest
  have hdrop := dropWhile_dataChunks (piece :: more) hnext rest
  have hintact : (((piece :: more).map dataChunk).map Chunk.found).all FoundChunk.intact = true := by
    simp [Chunk.found]
  have hdata : (((piece :: more).map dataChunk).map Chunk.found).map (fun c => c.chunk.data) =
      piece :: more := by
    simp [Chunk.found, dataChunk, Function.comp_def]
  rw [decodeStill, chunksOf?_fileOf hfits, hchunks, List.map_cons]
  simp only [splitHeader_plain hpixels, hprelude, bind, Except.bind, hrun, hdrop, hintact, hdata]
  exact hp

/-- The still image of a file whose image data are the compressed rows of `image`. -/
theorem decodeStill_fileOf {image : Bitmap} (hpixels : image.canvas.hasPixels = true)
    {lead : List Chunk} (hlead : AddsNothing image.canvas lead) {pieces : List Bytes}
    (hne : pieces ≠ []) (hp : pieces.flatten = compress image) {next : Chunk}
    (hnext : next.kind ≠ Kind.imageData) (rest : List Chunk) {chunks : List Chunk}
    (hchunks : chunks = ⟨Kind.header, (Header.plain image.canvas).write⟩ ::
      (lead ++ (pieces.map dataChunk ++ next :: rest)))
    (hfits : ∀ c ∈ chunks, c.Fits) :
    decodeStill (fileOf chunks) = .ok image :=
  decodeStill_fileOf_eq hpixels hlead hne (decompress_pieces hpixels hne hp) hnext rest hchunks hfits

theorem fits_header (canvas : Canvas) :
    Chunk.Fits ⟨Kind.header, (Header.plain canvas).write⟩ := by
  rw [Chunk.Fits, length_write_plain]
  decide

theorem fits_fileEnd : Chunk.Fits ⟨Kind.fileEnd, []⟩ := by
  rw [Chunk.Fits]
  decide

theorem fits_dataChunk_of_mem_split {size : Nat} (hs : 0 < size) (hmax : size ≤ chunkMax)
    {data piece : Bytes} (hp : piece ∈ split size data) : (dataChunk piece).Fits := by
  have hle := length_le_of_mem_split hs hp
  have hlt : chunkMax < 0x100000000 := by decide
  show piece.length < 0x100000000
  omega

theorem fits_stillChunks {limit : Nat} (hs : 0 < limit) (hmax : limit ≤ chunkMax) (image : Bitmap) :
    ∀ c ∈ stillChunks limit image, c.Fits := by
  intro c hc
  simp only [stillChunks, List.cons_append, List.mem_cons, List.mem_append, List.mem_map,
    List.not_mem_nil, or_false] at hc
  rcases hc with rfl | ⟨piece, hp, rfl⟩ | rfl
  · exact fits_header image.canvas
  · exact fits_dataChunk_of_mem_split hs hmax hp
  · exact fits_fileEnd

/-- What does not begin with the signature is no file of an image. -/
theorem decodeStill_eq_noSignature {file : Bytes} (h : file.take 8 ≠ signature) :
    decodeStill file = .error .noSignature := by
  have hchunks : chunksOf? file = none := by
    rw [chunksOf?, if_neg h]
  rw [decodeStill, hchunks]
  rfl

/-- **An image survives its file.** -/
theorem decodeStill_encodeStill {image : Bitmap} (h : image.canvas.hasPixels = true) :
    decodeStill (encodeStill image) = .ok image := by
  have hend : (⟨Kind.fileEnd, []⟩ : Chunk).kind ≠ Kind.imageData := by decide
  exact decodeStill_fileOf h (addsNothing_nil _) (split_ne_nil _ _) (flatten_split chunkMax _) hend
    [] rfl (fits_stillChunks (by decide) le_rfl image)

end HueCycle.Png

namespace HueCycle.Source

/-- An image with pixels whose file is read makes a source. -/
theorem decode_of_decodeStill {file : Bytes} {image : Bitmap} (h : Png.decodeStill file = .ok image)
    (hpixels : image.canvas.hasPixels = true) : decode file = .ok ⟨none, image.toImage⟩ := by
  have hread : Png.reader file = .ok image.raster := by
    rw [Png.reader, h]
    rfl
  rw [decode, decodeWith, hread]
  show ofImage (Bitmap.ofFn image.canvas image.raster.colour).toImage = _
  rw [image.ofFn_raster]
  exact if_pos hpixels

/-- **The file of an image with pixels makes a source of it.** -/
theorem decode_encodeStill {image : Bitmap} (h : image.canvas.hasPixels = true) :
    decode (Png.encodeStill image) = .ok ⟨none, image.toImage⟩ :=
  decode_of_decodeStill (Png.decodeStill_encodeStill h) h

end HueCycle.Source
