import HueCycle.Main
import HueCycle.Json.Values
import HueCycle.Png.Listing
import HueCycle.Proofs.Render.Range
import HueCycle.Proofs.Render.EmptyRange
import HueCycle.Proofs.AnimationFile
import HueCycle.Proofs.AnimationStream
import HueCycle.Proofs.Files.Jobs
import HueCycle.Proofs.Files.Preview
import HueCycle.Proofs.Numeric.Rounding
import HueCycle.Proofs.Numeric.Values
import HueCycle.Proofs.Numeric.WholeNumbers
import HueCycle.Proofs.Numeric.Rationals
import HueCycle.Proofs.Timing.Delay
import HueCycle.Proofs.Timing.FrameCount
import HueCycle.Proofs.Acceptance
import HueCycle.Proofs.Families
import HueCycle.Proofs.Shapes
import HueCycle.Proofs.Color.Sextants
import HueCycle.Proofs.Color.RoundTrip
import HueCycle.Proofs.PixelLaw
import HueCycle.Proofs.Files.Failures
import HueCycle.Proofs.Decimal.Shortest
import HueCycle.Proofs.Json.Scale
import HueCycle.Proofs.Json.Numbers
import HueCycle.Proofs.Json.Reread
import HueCycle.Proofs.Json.Records
import HueCycle.Proofs.SettingsText
import HueCycle.Proofs.SettingsObjects
import HueCycle.Proofs.Timing.Tolerance
import HueCycle.Proofs.Render.Counters
import HueCycle.Proofs.ImageFile
import HueCycle.Proofs.Timing.Seam
import HueCycle.Proofs.Color.WrappedHue
import HueCycle.Encoding
import HueCycle.Proofs.AnimationMaking
import HueCycle.Proofs.Files.Contents
import HueCycle.Proofs.Files.Directories
import HueCycle.Proofs.CommandLine.EffectiveSettings
import HueCycle.Proofs.CommandLine.Overridden
import HueCycle.Proofs.CommandLine.Lines
import HueCycle.Proofs.CommandLine.Agreement
import HueCycle.Proofs.SettingsPaths
import HueCycle.Proofs.Json.Forms
