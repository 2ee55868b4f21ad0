/-
HueCycle.Raster.Canvas — the dimensions of a raster in pixels.
-/

namespace HueCycle

/-- Raster dimensions in pixels. -/
structure Canvas where
  width : UInt32
  height : UInt32
deriving Repr, DecidableEq

namespace Canvas

/-- The number of pixels covered. -/
def area (c : Canvas) : Nat := c.width.toNat * c.height.toNat

/-- Whether there is at least one pixel. -/
def hasPixels (c : Canvas) : Bool := c.width != 0 && c.height != 0

/-- Width and height with a cross between them, as in `5x3`. -/
def text (c : Canvas) : String := s!"{c.width.toNat}x{c.height.toNat}"

end Canvas

end HueCycle
