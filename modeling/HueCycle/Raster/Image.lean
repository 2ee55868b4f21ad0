/-
HueCycle.Raster.Image — RGBA pixels with eight bits a channel, bitmaps of
them, and images.

The number of pixels of a bitmap is tied to its canvas by the type, so a map
over the pixels cannot change the shape. An image is a bitmap at the beginning
of a buffer. The buffer may be longer than the pixels need: what is behind the
last pixel belongs to none and goes along with every copy.
-/
import HueCycle.Raster.Canvas
import HueCycle.Text.Utf8

namespace HueCycle

/-- One RGBA pixel, straight alpha. -/
structure Pixel where
  red : UInt8
  green : UInt8
  blue : UInt8
  alpha : UInt8
deriving Repr, DecidableEq

namespace Pixel

/-- The four samples in storage order. -/
def samples (p : Pixel) : List UInt8 := [p.red, p.green, p.blue, p.alpha]

/-- Pixels from samples in storage order, four at a time; a last group of
fewer than four is dropped. -/
def ofSamples : List UInt8 → List Pixel
  | r :: g :: b :: a :: rest => ⟨r, g, b, a⟩ :: ofSamples rest
  | _ => []

/-- The inverse of `samples`, pixel by pixel. -/
theorem ofSamples_flatMap_samples (ps : List Pixel) :
    ofSamples (ps.flatMap samples) = ps := by
  induction ps with
  | nil => rfl
  | cons p ps ih =>
    rw [List.flatMap_cons]
    show p :: ofSamples (ps.flatMap samples) = p :: ps
    rw [ih]

end Pixel

/-! ## Bitmaps -/

/-- A bitmap: the pixels row by row from the top, left to right. -/
structure Bitmap where
  canvas : Canvas
  pixels : Array Pixel
  size_eq : pixels.size = canvas.area
deriving Repr, DecidableEq

namespace Bitmap

/-- A bitmap from its pixels, if their number fits the canvas. -/
def ofPixels? (canvas : Canvas) (pixels : Array Pixel) : Option Bitmap :=
  if h : pixels.size = canvas.area then some ⟨canvas, pixels, h⟩ else none

/-- The bitmap whose pixel at row `y` and column `x` is `at? x y`. -/
def ofFn (canvas : Canvas) (at? : Nat → Nat → Pixel) : Bitmap where
  canvas := canvas
  pixels := Array.ofFn fun i : Fin canvas.area =>
    at? (i.val % canvas.width.toNat) (i.val / canvas.width.toNat)
  size_eq := Array.size_ofFn

/-- The same canvas with every pixel replaced. -/
def map (f : Pixel → Pixel) (bitmap : Bitmap) : Bitmap where
  canvas := bitmap.canvas
  pixels := bitmap.pixels.map f
  size_eq := by rw [Array.size_map, bitmap.size_eq]

/-- All samples, row by row. -/
def samples (bitmap : Bitmap) : Bytes := bitmap.pixels.toList.flatMap Pixel.samples

/-- Canvas and pixels determine a bitmap. -/
theorem ext {a b : Bitmap} (hc : a.canvas = b.canvas) (hp : a.pixels = b.pixels) : a = b := by
  cases a; cases b; cases hc; cases hp; rfl

end Bitmap

/-! ## Images -/

/-- An image: a bitmap at the beginning of a buffer. -/
structure Image extends Bitmap where
  /-- The octets of the buffer behind the last pixel. -/
  surplus : Bytes
deriving Repr, DecidableEq

/-- The image of a bitmap and nothing behind it. -/
def Bitmap.toImage (bitmap : Bitmap) : Image := ⟨bitmap, []⟩

namespace Image

/-- An image from the pixels in its buffer, if there are enough for the canvas. -/
def ofPixels? (canvas : Canvas) (pixels : Array Pixel) : Option Image :=
  if h : canvas.area ≤ pixels.size then
    some {
      canvas
      pixels := pixels.extract 0 canvas.area
      size_eq := by rw [Array.size_extract, Nat.min_eq_left h, Nat.sub_zero]
      surplus := (pixels.toList.drop canvas.area).flatMap Pixel.samples }
  else none

/-- Every pixel replaced, in a copy of the buffer. -/
def map (f : Pixel → Pixel) (image : Image) : Image := ⟨image.toBitmap.map f, image.surplus⟩

/-- All of the buffer: the samples of the pixels, and what is behind them. -/
def samples (image : Image) : Bytes := image.toBitmap.samples ++ image.surplus

@[simp] theorem canvas_map (f : Pixel → Pixel) (image : Image) :
    (image.map f).canvas = image.canvas := rfl

@[simp] theorem surplus_map (f : Pixel → Pixel) (image : Image) :
    (image.map f).surplus = image.surplus := rfl

theorem getElem?_map (f : Pixel → Pixel) (image : Image) (i : Nat) :
    (image.map f).pixels[i]? = image.pixels[i]?.map f := by
  simp [map, Bitmap.map]

/-- An image with nothing behind its pixels is that of its bitmap. -/
theorem toImage_toBitmap {image : Image} (h : image.surplus = []) :
    image.toBitmap.toImage = image := by
  rw [Bitmap.toImage, ← h]

end Image

/-! ## Rasters -/

/-- What a reader of image files hands out: dimensions, and the colour at each column and row. -/
structure Raster where
  canvas : Canvas
  colour : Nat → Nat → Pixel

namespace Bitmap

/-- The pixels of a bitmap by column and row. -/
def raster (bitmap : Bitmap) : Raster where
  canvas := bitmap.canvas
  colour x y := (bitmap.pixels[y * bitmap.canvas.width.toNat + x]?).getD ⟨0, 0, 0, 0⟩

/-- A bitmap is a copy of its raster. -/
theorem ofFn_raster (bitmap : Bitmap) : ofFn bitmap.canvas bitmap.raster.colour = bitmap := by
  refine ext rfl (Array.ext (by rw [ofFn, Array.size_ofFn, bitmap.size_eq]) ?_)
  intro i hi hi'
  have hposition : i / bitmap.canvas.width.toNat * bitmap.canvas.width.toNat +
      i % bitmap.canvas.width.toNat = i := Nat.div_add_mod' i _
  simp only [ofFn, raster, Array.getElem_ofFn, hposition]
  rw [Array.getElem?_eq_getElem hi', Option.getD_some]

end Bitmap

end HueCycle
