/-
HueCycle.Files.Replacement — replacing a file so that whoever reads it sees
the old contents or all of the new ones.

The contents go to a temporary file beside the target, which is renamed
over the target once it is stored safely. Whatever fails, the temporary
file is removed and the target stays as it was.
-/
import HueCycle.Files.Script

namespace HueCycle.Files

/-- Make a directory and what is missing above it. The ancestors are tried
from the innermost outwards until one can be made or is there; then the
others are made. `steps` bounds the number of ancestors. -/
def makeDirectories : Nat → Path → Script (Except OsError Unit)
  | 0, _ => pure (.error .notFound)
  | steps + 1, path => do
    match path.parent? with
    | none => return .ok ()
    | some parent =>
      if path.bytes = [] then return .ok ()
      match ← Script.ask (.makeDirectory path) with
      | .ok () => return .ok ()
      | .error .notFound =>
        match ← makeDirectories steps parent with
        | .error e => return .error e
        | .ok () =>
          match ← Script.ask (.makeDirectory path) with
          | .ok () => return .ok ()
          | .error e => return if ← Script.ask (.isDirectory path) then .ok () else .error e
      | .error e => return if ← Script.ask (.isDirectory path) then .ok () else .error e

/-- Make the directory that a path lies in. -/
def makeParent (path : Path) : Job Unit := do
  match path.parent? with
  | none => return
  | some parent =>
    if parent.bytes = [] then return
    match ← ExceptT.lift (makeDirectories (parent.bytes.length + 1) parent) with
    | .ok () => return
    | .error e => throw (.attempt (.createDirectory parent) e)

/-- The directory in which a file of this path lies. -/
def directoryOf (path : Path) : Path :=
  match path.parent? with
  | some parent => if parent.bytes = [] then ⟨[Path.dot]⟩ else parent
  | none => ⟨[Path.dot]⟩

/-- Remove the temporary file and fail. -/
def giveUp {α : Type} (temporary : Path) (e : Error) : Job α := do
  Job.ask (.remove temporary)
  throw e

/-- Put contents at a path, all or nothing. -/
def replaceFile (path : Path) (content : Bytes) : Job Unit := do
  makeParent path
  let directory := directoryOf path
  match ← Job.ask (.makeTemporary directory) with
  | .error e => throw (.attempt (.createTemporary directory) e)
  | .ok temporary =>
    match ← Job.ask (.write temporary content) with
    | .error e => giveUp temporary (.attempt (.writeTemporary temporary) e)
    | .ok () =>
      match ← Job.ask (.sync temporary) with
      | .error e => giveUp temporary (.attempt (.syncTemporary temporary) e)
      | .ok () =>
        match ← Job.ask (.rename temporary path) with
        | .error e => giveUp temporary (.encode (.cannotReplace path e))
        | .ok () => return

end HueCycle.Files
