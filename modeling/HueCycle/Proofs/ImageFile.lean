/-
HueCycle.Proofs.ImageFile — an image survives its file.

An image with pixels has a PNG file, and the image that the file decodes to is
the same in every sample, be it seen or not. Another writer may choose other
filters, compress in another way and cut the data elsewhere: as long as the
compressed data stand for the rows, its file decodes to the image too. Main
statement: `Image.decode_png`.
-/
import Mathlib
import HueCycle.Proofs.Files.Preview
import HueCycle.Proofs.Png.Filters

namespace HueCycle

namespace Png

/-- A file of one image with plain samples whose image data come in the given pieces. -/
def plainFile (canvas : Canvas) (pieces : List Bytes) : Bytes :=
  fileOf (⟨Kind.header, (Header.plain canvas).write⟩ ::
    (pieces.map dataChunk ++ [⟨Kind.fileEnd, []⟩]))

/-- Without image data there are no rows. -/
theorem ne_nil_of_decompress {header : Header} {pieces : List Bytes} {rows : Bytes}
    (h : header.decompress pieces = .ok rows) : pieces ≠ [] := by
  rintro rfl
  cases h

/-- Data that stand for the rows of an image decode to the image, whichever filters the rows are
stored with. -/
theorem decodeStill_plainFile {image : Bitmap} (hpixels : image.canvas.hasPixels = true)
    {filters : List UInt8} (hlength : filters.length = image.canvas.height.toNat)
    (hfilters : ∀ f ∈ filters, f ≤ 4) {pieces : List Bytes}
    (hfits : ∀ piece ∈ pieces, piece.length < 0x100000000)
    (hdata : (Header.plain image.canvas).decompress pieces =
      .ok (filteredImageRows image filters)) :
    decodeStill (plainFile image.canvas pieces) = .ok image := by
  have hdecompress : (Prelude.ofHeader (Header.plain image.canvas)).decompress pieces =
      .ok image := by
    have hheader :
        (Prelude.ofHeader (Header.plain image.canvas)).header = Header.plain image.canvas := rfl
    rw [Prelude.decompress, hheader, hdata]
    exact image_filteredImageRows hpixels hlength hfilters
  have hend : (⟨Kind.fileEnd, []⟩ : Chunk).kind ≠ Kind.imageData := by decide
  refine decodeStill_fileOf_eq hpixels (addsNothing_nil _) (ne_nil_of_decompress hdata)
    hdecompress hend [] rfl fun c hc => ?_
  simp only [List.mem_cons, List.mem_append, List.mem_map, List.not_mem_nil, or_false]
    at hc
  rcases hc with rfl | ⟨piece, hpiece, rfl⟩ | rfl
  · exact fits_header image.canvas
  · exact hfits piece hpiece
  · exact fits_fileEnd

end Png

/-- **An image survives its file.** Every image with a pixel has a PNG file, and the file decodes to
the image: its canvas and all samples, those of pixels that cannot be seen included. Whichever
filters another writer stores the rows with, in whatever way it compresses them and wherever it cuts
the data, its file decodes to the image as well. What is behind the pixels in the buffer is left
out, so the image that comes back is the same if there was nothing. -/
theorem Image.decode_png (image : Image) (hwidth : image.canvas.width ≠ 0)
    (hheight : image.canvas.height ≠ 0) :
    (∃ file, image.png = .ok file ∧
      Source.decode file = .ok ⟨none, image.toBitmap.toImage⟩) ∧
    (∀ (filters : List UInt8) (pieces : List Bytes),
      filters.length = image.canvas.height.toNat → (∀ f ∈ filters, f ≤ 4) →
      (∀ piece ∈ pieces, piece.length < 0x100000000) →
      (Png.Header.plain image.canvas).decompress pieces =
        .ok (Png.filteredImageRows image.toBitmap filters) →
      Source.decode (Png.plainFile image.canvas pieces) = .ok ⟨none, image.toBitmap.toImage⟩) ∧
    (image.surplus = [] → image.toBitmap.toImage = image) := by
  have hpixels : image.canvas.hasPixels = true := by simp [Canvas.hasPixels, hwidth, hheight]
  refine ⟨⟨_, Image.png_eq_ok hpixels, ?_⟩,
    fun filters pieces hlength hfilters hfits hdata => ?_, Image.toImage_toBitmap⟩
  · exact Source.decode_encodeStill hpixels
  · exact Source.decode_of_decodeStill
      (Png.decodeStill_plainFile hpixels hlength hfilters hfits hdata) hpixels

/-- Two rows of a colour that cannot be seen: written with no filter and uncompressed, and as
differences to the left and to the nearest neighbour, compressed and in two pieces. -/
theorem Image.decode_png_invisible_colour :
    let image : Image := ⟨⟨⟨2, 2⟩, Array.replicate 4 ⟨200, 10, 30, 0⟩, rfl⟩, []⟩
    (image.canvas.width ≠ 0 ∧ image.canvas.height ≠ 0) ∧
    (∃ file, image.png = .ok file ∧ Source.decode file = .ok ⟨none, image⟩) ∧
    Source.decode (Png.plainFile image.canvas
      [[120, 1, 99, 60, 193], [37, 199, 0, 2, 44, 12, 80, 0, 0, 15, 242, 0, 246]]) =
        .ok ⟨none, image⟩ := by
  intro image
  have hinflate : Png.inflatePieces? 18 []
      [[120, 1, 99, 60, 193], [37, 199, 0, 2, 44, 12, 80, 0, 0, 15, 242, 0, 246]] =
        some [1, 200, 10, 30, 0, 0, 0, 0, 0, 4, 0, 0, 0, 0, 0, 0, 0, 0] := by
    decide +kernel
  have hdata : (Png.Header.plain ⟨2, 2⟩).decompress
      [[120, 1, 99, 60, 193], [37, 199, 0, 2, 44, 12, 80, 0, 0, 15, 242, 0, 246]] =
        .ok [1, 200, 10, 30, 0, 0, 0, 0, 0, 4, 0, 0, 0, 0, 0, 0, 0, 0] := by
    rw [Png.Header.decompress, show (Png.Header.plain ⟨2, 2⟩).dataSize = 18 from rfl, hinflate]
  have hrows : Png.filteredImageRows image.toBitmap [1, 4] =
      [1, 200, 10, 30, 0, 0, 0, 0, 0, 4, 0, 0, 0, 0, 0, 0, 0, 0] := by decide +kernel
  obtain ⟨hwritten, hother, -⟩ := Image.decode_png image (by decide) (by decide)
  exact ⟨⟨by decide, by decide⟩, hwritten,
    hother [1, 4] _ rfl (by decide +kernel) (by decide +kernel) (hrows ▸ hdata)⟩

end HueCycle
