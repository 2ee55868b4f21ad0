/-
HueCycle.Source — the source image, and the red baseline that every frame
is rendered from.

Image files come in many formats. What reads them is a parameter here: any
function from octets to a raster or a fault. `Png.reader` is the one for PNG
files.
-/
import HueCycle.Color.Recolor
import HueCycle.Png.Still

namespace HueCycle

/-- The reader of PNG files. -/
def Png.reader (file : Bytes) : Except Png.Fault Raster := (Png.decodeStill file).map Bitmap.raster

/-- A source image, with the file it was read from if there is one. -/
structure Source where
  path : Option Path
  image : Image

namespace Source

variable {ε : Type} (reader : Bytes → Except ε Raster)

/-- An image with at least one pixel as a source. -/
def ofImage (image : Image) : Except Error Source :=
  if image.canvas.hasPixels then .ok ⟨none, image⟩ else .error (.decode .noPixels)

/-- The source that the octets of an image file hold, for a reader of any
formats. -/
def decodeWith (file : Bytes) : Except Error Source :=
  match reader file with
  | .error _ => .error (.decode .undecodable)
  | .ok raster => ofImage (Bitmap.ofFn raster.canvas raster.colour).toImage

/-- The source that the octets of a PNG file hold. -/
def decode : Bytes → Except Error Source := decodeWith Png.reader

/-- The source that the contents of the file at `path` hold; a fault names
the file. -/
def decodeFile (path : Path) (file : Bytes) : Except Error Source :=
  match decodeWith reader file with
  | .ok source => .ok { source with path := some path }
  | .error (.decode fault) => .error (.decode (.inFile path fault))
  | .error e => .error e

def canvas (s : Source) : Canvas := s.image.canvas

/-- The source reduced to its red part. -/
def baseline (s : Source) : Image := s.image.keepRed

end Source

end HueCycle
