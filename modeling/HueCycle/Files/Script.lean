/-
HueCycle.Files.Script — programs that use files, as data.

A script is an answer, or a call with what to do with its answer. The same
script can be run on a file system that is a value (`Script.run`), where
every call is a function, or on the machine at hand.
-/
import HueCycle.Error
import HueCycle.Files.FileSystem

namespace HueCycle.Files

/-- A call, with the type of its answer. -/
inductive Call : Type → Type where
  | read (path : Path) : Call (Except FileSystem.ReadFault Bytes)
  | isDirectory (path : Path) : Call Bool
  | makeDirectory (path : Path) : Call (Except OsError Unit)
  /-- Make an empty file with a fresh name in a directory; the answer is its
  path. -/
  | makeTemporary (directory : Path) : Call (Except OsError Path)
  | write (path : Path) (content : Bytes) : Call (Except OsError Unit)
  /-- Wait until a file is stored safely. -/
  | sync (path : Path) : Call (Except OsError Unit)
  | rename (source target : Path) : Call (Except OsError Unit)
  | remove (path : Path) : Call Unit

/-- Carry out a change that may fail; on failure nothing changes. -/
def attempt (fs : FileSystem) : Except OsError FileSystem → Except OsError Unit × FileSystem
  | .ok changed => (.ok (), changed)
  | .error e => (.error e, fs)

/-- The answer of a call and the file system afterwards. -/
def Call.perform {β : Type} : Call β → FileSystem → β × FileSystem
  | .read path, fs => (fs.read path, fs)
  | .isDirectory path, fs => (fs.isDirectory path, fs)
  | .makeDirectory path, fs => attempt fs (fs.makeDirectory path)
  | .makeTemporary directory, fs =>
    match fs.makeTemporary directory with
    | .ok (path, changed) => (.ok path, changed)
    | .error e => (.error e, fs)
  | .write path content, fs => attempt fs (fs.write path content)
  | .sync path, fs => (match fs.resolve path with | .ok _ => .ok () | .error e => .error e, fs)
  | .rename source target, fs => attempt fs (fs.rename source target)
  | .remove path, fs => ((), fs.remove path)

/-- A program that uses files. -/
inductive Script (α : Type) : Type 1 where
  | done (answer : α)
  | call {β : Type} (c : Call β) (next : β → Script α)

namespace Script

/-- Go on with the answer of a script. -/
def bind {α β : Type} : Script α → (α → Script β) → Script β
  | .done a, f => f a
  | .call c next, f => .call c fun b => (next b).bind f

instance : Monad Script where
  pure := .done
  bind := bind

/-- One call. -/
def ask {β : Type} (c : Call β) : Script β := .call c .done

/-- The answer of a script and the file system afterwards. -/
def run {α : Type} : Script α → FileSystem → α × FileSystem
  | .done a, fs => (a, fs)
  | .call c next, fs =>
    let (b, fs) := c.perform fs
    (next b).run fs

@[simp] theorem run_done {α : Type} (a : α) (fs : FileSystem) : (Script.done a).run fs = (a, fs) :=
  rfl

/-- Running a sequence is running its parts one after the other. -/
theorem run_bind {α β : Type} (s : Script α) (f : α → Script β) (fs : FileSystem) :
    (s.bind f).run fs = (f (s.run fs).1).run (s.run fs).2 := by
  induction s generalizing fs with
  | done a => rfl
  | call c next ih => simp only [bind, run]; exact ih _ _

end Script

/-- A program that uses files and may fail. -/
abbrev Job := ExceptT Error Script

/-- One call whose answer is looked at by the caller. -/
def Job.ask {β : Type} (c : Call β) : Job β := ExceptT.lift (Script.ask c)

/-- An answer that was computed without files. -/
def Job.of {α : Type} (answer : Except Error α) : Job α := ExceptT.mk (pure answer)

end HueCycle.Files
