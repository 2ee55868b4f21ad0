/-
HueCycle.Container — the container an animation is written to, chosen by
the extension of the output path.
-/
import HueCycle.Error

namespace HueCycle

/-- The containers an animation can be written to. -/
inductive Container where
  /-- An animated PNG. -/
  | apng
deriving Repr, DecidableEq

/-- The extension of a path as lower-case text, if it has one that is text. -/
def Path.textExtension? (path : Path) : Option String :=
  match path.extension? with
  | none => none
  | some octets =>
    if Utf8.isValid octets then some ((Utf8.lossy octets).map Char.toLower) else none

/-- The container for a path: `.apng` and `.png` in any case. -/
def Container.ofPath (path : Path) : Except Error Container :=
  match path.textExtension? with
  | none => .error (.config (.noExtension path))
  | some extension =>
    if extension = "apng" ∨ extension = "png" then .ok .apng
    else .error (.config (.unsupportedFormat extension path))

end HueCycle
