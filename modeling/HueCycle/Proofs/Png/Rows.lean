/-
HueCycle.Proofs.Png.Rows — the rows of an image are read back as its pixels.

The rows that are written carry the filter that predicts nothing, so undoing
it leaves the octets as they are. Octet `c` of the pixel at column `x` of row
`y` is then sample `4 * (y * width + x) + c` of the image.
-/
import Mathlib
import HueCycle.Png.Still
import HueCycle.Proofs.Png.Stored

namespace HueCycle.Png

/-! ## §1 Sizes -/

theorem rowBytes_plain (canvas : Canvas) (width : Nat) :
    (Header.plain canvas).rowBytes width = 4 * width := by
  show (width * 32 + 7) / 8 = 4 * width
  omega

theorem stride_plain (canvas : Canvas) : (Header.plain canvas).stride = 4 := by
  show max 1 (8 * 4 / 8) = 4
  decide

theorem passes_plain (canvas : Canvas) : (Header.plain canvas).passes = [Pass.whole] := rfl

theorem Pass.width_whole (canvas : Canvas) : Pass.whole.width canvas = canvas.width.toNat := by
  simp [Pass.width, Pass.count, Pass.whole]

theorem Pass.height_whole (canvas : Canvas) : Pass.whole.height canvas = canvas.height.toNat := by
  simp [Pass.height, Pass.count, Pass.whole]

theorem Pass.meets_whole (x y : Nat) : Pass.whole.meets x y = true := by
  simp [Pass.meets, Pass.whole, Nat.mod_one]

/-- A canvas with pixels has a column. -/
theorem toNat_width_pos {canvas : Canvas} (h : canvas.hasPixels = true) :
    0 < canvas.width.toNat := by
  rcases Nat.eq_zero_or_pos canvas.width.toNat with hzero | hpos
  · have hw : canvas.width = 0 := UInt32.toNat_inj.mp hzero
    simp [Canvas.hasPixels, hw] at h
  · exact hpos

theorem Pass.rowCount_whole {canvas : Canvas} (h : canvas.hasPixels = true) :
    Pass.whole.rowCount canvas = canvas.height.toNat := by
  rw [Pass.rowCount, Pass.width_whole, if_neg (toNat_width_pos h).ne', Pass.height_whole]

theorem dataSize_plain {canvas : Canvas} (h : canvas.hasPixels = true) :
    (Header.plain canvas).dataSize = canvas.height.toNat * (4 * canvas.width.toNat + 1) := by
  have hcanvas : (Header.plain canvas).canvas = canvas := rfl
  rw [Header.dataSize, passes_plain]
  simp only [List.foldl_cons, List.foldl_nil, hcanvas, Pass.rowCount_whole h, Pass.width_whole,
    rowBytes_plain, Nat.zero_add]

theorem length_flatMap_samples (pixels : List Pixel) :
    (pixels.flatMap Pixel.samples).length = 4 * pixels.length := by
  induction pixels with
  | nil => rfl
  | cons p rest ih =>
    rw [List.flatMap_cons, List.length_append, ih, List.length_cons, Pixel.samples]
    simp only [List.length_cons, List.length_nil]
    omega

theorem length_samples (image : Bitmap) : image.samples.length = 4 * image.canvas.area := by
  rw [Bitmap.samples, length_flatMap_samples, Array.length_toList, image.size_eq]

/-- The samples of an image fill its rows. -/
theorem length_samples_rows (image : Bitmap) : image.samples.length =
    4 * image.canvas.width.toNat * image.canvas.height.toNat := by
  rw [length_samples, Canvas.area]
  ring

theorem length_scanlines {width rows : Nat} {samples : Bytes}
    (h : samples.length = 4 * width * rows) :
    (scanlines width rows samples).length = rows * (4 * width + 1) := by
  induction rows generalizing samples with
  | zero => simp [scanlines]
  | succ rows ih =>
    rw [Nat.mul_succ] at h
    have hrest : (samples.drop (4 * width)).length = 4 * width * rows := by
      rw [List.length_drop]
      omega
    have htake : (samples.take (4 * width)).length = 4 * width := by
      rw [List.length_take]
      omega
    rw [scanlines, List.cons_append, List.length_cons, List.length_append, ih hrest, htake]
    ring

theorem length_imageRows {image : Bitmap} (h : image.canvas.hasPixels = true) :
    (imageRows image).length = (Header.plain image.canvas).dataSize := by
  rw [imageRows, length_scanlines (length_samples_rows image), dataSize_plain h]

/-! ## §2 Rows -/

/-- The filter that predicts nothing leaves a row as it is. -/
theorem unfilter_zero (stride : Nat) (above : Row) (stored : Bytes) :
    unfilter 0 stride above stored = stored.toArray := by
  have hpush : ∀ row : Row,
      stored.foldl (fun (row : Row) b => row.push (b + 0)) row = row ++ stored.toArray := by
    induction stored with
    | nil => simp
    | cons b rest ih =>
      intro row
      rw [List.foldl_cons, ih]
      simp
  have hall := hpush #[]
  rw [Array.empty_append] at hall
  exact hall

/-- Row `y` of samples with `width` pixels a row. -/
def sampleRow (width : Nat) (samples : Bytes) (y : Nat) : Row :=
  ((samples.drop (4 * width * y)).take (4 * width)).toArray

/-- Rows that are written are read back, and nothing is left. -/
theorem readRows_scanlines {width rows : Nat} {samples : Bytes} (stride : Nat) (above : Row)
    (h : samples.length = 4 * width * rows) :
    readRows stride (4 * width) rows above (scanlines width rows samples) =
      .ok ((List.range rows).map (sampleRow width samples), []) := by
  induction rows generalizing samples above with
  | zero => rfl
  | succ rows ih =>
    rw [Nat.mul_succ] at h
    have hrest : (samples.drop (4 * width)).length = 4 * width * rows := by
      rw [List.length_drop]
      omega
    have htake : (samples.take (4 * width)).length = 4 * width := by
      rw [List.length_take]
      omega
    have hrow (y : Nat) :
        sampleRow width (samples.drop (4 * width)) y = sampleRow width samples (y + 1) := by
      rw [sampleRow, sampleRow, List.drop_drop, Nat.mul_succ, Nat.add_comm]
    have hfirst : (samples.take (4 * width)).toArray = sampleRow width samples 0 := by
      rw [sampleRow, Nat.mul_zero, List.drop_zero]
    rw [scanlines, List.cons_append, readRows, List.splitAt_eq, List.take_left' htake,
      List.drop_left' htake]
    have hfilter : ¬ (4 : UInt8) < 0 := by decide
    have hstored : ¬ (samples.take (4 * width)).length < 4 * width := by omega
    have hzero : (0 : UInt8).toNat = 0 := rfl
    simp only [if_neg hfilter, if_neg hstored, hzero, unfilter_zero, ih _ hrest,
      List.range_succ_eq_map, List.map_cons, List.map_map, hfirst]
    rw [List.map_congr_left fun y _ => hrow y]
    rfl

/-! ## §3 Pixels -/

/-- The samples of pixel `i` stand at `4 * i`. -/
theorem getElem?_flatMap_samples {pixels : List Pixel} {i : Nat} (hi : i < pixels.length) {c : Nat}
    (hc : c < 4) :
    (pixels.flatMap Pixel.samples)[4 * i + c]? = pixels[i].samples[c]? := by
  induction pixels generalizing i with
  | nil => simp at hi
  | cons p rest ih =>
    have hlen : p.samples.length = 4 := rfl
    cases i with
    | zero => rw [List.flatMap_cons, List.getElem?_append_left (by omega)]; simp
    | succ i =>
      rw [List.flatMap_cons, List.getElem?_append_right (by omega), hlen,
        show 4 * (i + 1) + c - 4 = 4 * i + c by omega]
      exact ih (by simpa using hi)

theorem sampleAt_eight (row : Row) (i : Nat) : sampleAt 8 row i = ((row[i]?).getD 0).toNat := rfl

theorem toEight_eight (b : UInt8) : toEight 8 b.toNat = b := UInt8.ofNat_toNat

/-- A pixel of a row of four samples of eight bits. -/
theorem pixel_plain (canvas : Canvas) (entries : Array Pixel) {row : Row} {x : Nat} {p : Pixel}
    (h : ∀ c < 4, row[x * 4 + c]? = p.samples[c]?) :
    (Prelude.ofHeader (Header.plain canvas)).pixel entries row x = p := by
  have hlevel (c : Nat) : toEight 8 (sampleAt 8 row (x * 4 + c)) = (row[x * 4 + c]?).getD 0 := by
    rw [sampleAt_eight, toEight_eight]
  show Pixel.mk (toEight 8 (sampleAt 8 row (x * 4 + 0))) (toEight 8 (sampleAt 8 row (x * 4 + 1)))
    (toEight 8 (sampleAt 8 row (x * 4 + 2))) (toEight 8 (sampleAt 8 row (x * 4 + 3))) = p
  rw [hlevel, hlevel, hlevel, hlevel, h 0 (by decide), h 1 (by decide), h 2 (by decide),
    h 3 (by decide)]
  rfl

/-- Row `i / width` holds the samples of pixel `i` at column `i % width`. -/
theorem getElem?_sampleRow {pixels : List Pixel} {width i : Nat} (hw : 0 < width)
    (hi : i < pixels.length) {c : Nat} (hc : c < 4) :
    (sampleRow width (pixels.flatMap Pixel.samples) (i / width))[i % width * 4 + c]? =
      pixels[i].samples[c]? := by
  have hx := Nat.mod_lt i hw
  have hpos : 4 * width * (i / width) + (i % width * 4 + c) = 4 * i + c := by
    have := Nat.div_add_mod i width
    rw [Nat.mul_assoc]
    omega
  rw [sampleRow, List.getElem?_toArray, List.getElem?_take_of_lt (by omega), List.getElem?_drop,
    hpos, getElem?_flatMap_samples hi hc]

/-- Data whose rows hold the samples of an image stands for the image. -/
theorem image_of_readRows {image : Bitmap} (h : image.canvas.hasPixels = true) {data : Bytes}
    (hrows : readRows 4 (4 * image.canvas.width.toNat) image.canvas.height.toNat #[] data =
      .ok ((List.range image.canvas.height.toNat).map
        (sampleRow image.canvas.width.toNat image.samples), [])) :
    (Prelude.ofHeader (Header.plain image.canvas)).image data = .ok image := by
  obtain ⟨canvas, pixels, hsize⟩ := image
  have hw := toNat_width_pos h
  have hpasses : readPasses (Header.plain canvas) [Pass.whole] data =
      .ok [⟨Pass.whole, ((List.range canvas.height.toNat).map
        (sampleRow canvas.width.toNat (pixels.toList.flatMap Pixel.samples))).toArray⟩] := by
    simp only [readPasses, stride_plain, Pass.width_whole, rowBytes_plain]
    rw [show (Header.plain canvas).canvas = canvas from rfl, Pass.rowCount_whole h]
    simp only [hrows]
    rfl
  rw [Prelude.image]
  simp only [Prelude.ofHeader, passes_plain]
  rw [hpasses]
  show Except.ok (Bitmap.ofFn canvas _) = _
  congr 1
  refine Bitmap.ext rfl ?_
  show Array.ofFn _ = pixels
  refine Array.ext (by rw [Array.size_ofFn, hsize]) ?_
  intro i hi hi'
  have hy : i / canvas.width.toNat < canvas.height.toNat := by
    rw [hsize, Canvas.area] at hi'
    exact Nat.div_lt_of_lt_mul hi'
  rw [Array.getElem_ofFn]
  simp only [Prelude.pixelAt, List.find?_cons, Pass.meets_whole]
  show Prelude.pixel _ _ _ _ = _
  simp only [Pass.whole, Nat.sub_zero, Nat.div_one, List.getElem?_toArray, List.getElem?_map,
    List.getElem?_range hy, Option.map_some, Option.getD_some]
  refine pixel_plain canvas _ ?_
  intro c hc
  rw [getElem?_sampleRow hw (by simpa using hi') hc, Array.getElem_toList]

/-- **The rows of an image stand for the image.** -/
theorem image_imageRows {image : Bitmap} (h : image.canvas.hasPixels = true) :
    (Prelude.ofHeader (Header.plain image.canvas)).image (imageRows image) = .ok image :=
  image_of_readRows h (readRows_scanlines 4 #[] (length_samples_rows image))

/-! ## §4 Compressed rows -/

/-- However the compressed rows of an image are cut into pieces, they stand
for the image. -/
theorem decompress_pieces {image : Bitmap} (h : image.canvas.hasPixels = true)
    {pieces : List Bytes} (hne : pieces ≠ []) (hp : pieces.flatten = compress image) :
    (Prelude.ofHeader (Header.plain image.canvas)).decompress pieces = .ok image := by
  have hrows : inflatePieces? (Header.plain image.canvas).dataSize [] pieces =
      some (imageRows image) := by
    rw [← length_imageRows h]
    exact inflatePieces?_store hne hp
  have hheader : (Prelude.ofHeader (Header.plain image.canvas)).header = Header.plain image.canvas :=
    rfl
  rw [Prelude.decompress, Header.decompress, hheader, hrows]
  exact image_imageRows h

theorem flatten_pieces (size full : Nat) (data : Bytes) : (pieces size full data).flatten = data := by
  induction full generalizing data with
  | zero => simp [pieces]
  | succ full ih => rw [pieces, List.flatten_cons, ih, List.take_append_drop]

@[simp] theorem flatten_split (size : Nat) (data : Bytes) : (split size data).flatten = data :=
  flatten_pieces size _ data

theorem pieces_ne_nil (size full : Nat) (data : Bytes) : pieces size full data ≠ [] := by
  cases full <;> simp [pieces]

@[simp] theorem split_ne_nil (size : Nat) (data : Bytes) : split size data ≠ [] :=
  pieces_ne_nil size _ data

theorem length_le_of_mem_pieces {size full : Nat} {data piece : Bytes}
    (h : data.length ≤ (full + 1) * size) (hp : piece ∈ pieces size full data) :
    piece.length ≤ size := by
  induction full generalizing data with
  | zero =>
    rw [pieces, List.mem_singleton] at hp
    subst hp
    simpa using h
  | succ full ih =>
    rw [pieces, List.mem_cons] at hp
    rcases hp with rfl | hp
    · exact List.length_take_le _ _
    · refine ih ?_ hp
      rw [List.length_drop]
      rw [Nat.succ_mul] at h
      omega

/-- No piece is longer than asked for. -/
theorem length_le_of_mem_split {size : Nat} (hs : 0 < size) {data piece : Bytes}
    (hp : piece ∈ split size data) : piece.length ≤ size := by
  refine length_le_of_mem_pieces ?_ hp
  have := Nat.lt_div_mul_add hs (a := data.length)
  rw [Nat.succ_mul]
  omega

end HueCycle.Png

namespace HueCycle.Image

/-- A buffer has four samples for each pixel, and what is behind them. -/
theorem length_samples (image : Image) :
    image.samples.length = 4 * image.canvas.area + image.surplus.length := by
  rw [samples, List.length_append, Png.length_samples]

end HueCycle.Image
