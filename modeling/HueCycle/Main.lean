/-
HueCycle.Main — the program on the machine at hand: the calls of a script
are made for real, and its outcome is printed.
-/
import HueCycle.CommandLine.Command

namespace HueCycle.Files

/-- The number and the text that the machine gives for a failure. -/
def numberOf : IO.Error → Nat × String
  | .alreadyExists _ n text => (n.toNat, text)
  | .otherError n text => (n.toNat, text)
  | .resourceBusy n text => (n.toNat, text)
  | .resourceVanished n text => (n.toNat, text)
  | .unsupportedOperation n text => (n.toNat, text)
  | .hardwareFault n text => (n.toNat, text)
  | .unsatisfiedConstraints n text => (n.toNat, text)
  | .illegalOperation n text => (n.toNat, text)
  | .protocolError n text => (n.toNat, text)
  | .timeExpired n text => (n.toNat, text)
  | .interrupted _ n text => (n.toNat, text)
  | .noFileOrDirectory _ n text => (n.toNat, text)
  | .invalidArgument _ n text => (n.toNat, text)
  | .permissionDenied _ n text => (n.toNat, text)
  | .resourceExhausted _ n text => (n.toNat, text)
  | .inappropriateType _ n text => (n.toNat, text)
  | .noSuchThing _ n text => (n.toNat, text)
  | .unexpectedEof => (0, "unexpected end of file")
  | .userError text => (0, text)

/-- The reason for a failure. -/
def OsError.ofMachine (e : IO.Error) : OsError :=
  match numberOf e with
  | (2, _) => .notFound
  | (16, _) => .busy
  | (17, _) => .exists
  | (20, _) => .notDirectory
  | (21, _) => .isDirectory
  | (22, _) => .invalidArgument
  | (36, _) => .nameTooLong
  | (39, _) => .notEmpty
  | (n, text) => .other s!"{text} (os error {n})"

/-- Do something that may fail. -/
def attempted {α : Type} (act : IO α) : IO (Except OsError α) := do
  match ← act.toBaseIO with
  | .ok a => return .ok a
  | .error e => return .error (.ofMachine e)

/-- Do something with a path, which must have no zero octet. -/
def withPath {α : Type} (path : Path) (act : String → IO α) : IO (Except OsError α) :=
  if FileSystem.hasZero path then return .error .zeroOctet else attempted (act path.text)

/-- Whether there is a directory. -/
def isDirectoryHere (path : Path) : IO Bool := do
  match ← withPath path fun p => do (← IO.FS.realPath p).isDir with
  | .ok answer => return answer
  | .error _ => return false

/-- Make an empty file under a random temporary name, trying a few of them. -/
def makeTemporaryHere (directory : Path) : Nat → IO (Except OsError Path)
  | 0 => return .error .exists
  | tries + 1 => do
    let n ← IO.rand 0 (Nat.pow 26 6 - 1)
    let path := directory.join ⟨FileSystem.temporaryName n⟩
    match ← withPath path fun p => do let _ ← IO.FS.Handle.mk p .writeNew with
    | .ok () => return .ok path
    | .error .exists => makeTemporaryHere directory tries
    | .error e => return .error e

/-- Make a call on the machine. -/
def Call.make {β : Type} : Call β → IO β
  | .read path => do
    match ← withPath path fun p => IO.FS.Handle.mk p .read with
    | .error e => return .error (.cannotOpen e)
    | .ok file =>
      match ← attempted file.readBinToEnd with
      | .error e => return .error (.cannotRead e)
      | .ok content => return .ok content.toList
  | .isDirectory path => isDirectoryHere path
  | .makeDirectory path => withPath path fun p => IO.FS.createDir p
  | .makeTemporary directory => makeTemporaryHere directory 1024
  | .write path content => withPath path fun p => IO.FS.writeBinFile p ⟨content.toArray⟩
  | .sync path => withPath path fun p => do (← IO.FS.Handle.mk p .append).flush
  | .rename source target =>
    if FileSystem.hasZero target then return .error .invalidArgument
    else withPath target fun t => IO.FS.rename source.text t
  | .remove path => do
    let _ ← withPath path fun p => IO.FS.removeFile p
    return ()

/-- Run a script on the machine. -/
def Script.make {α : Type} : Script α → IO α
  | .done answer => return answer
  | .call c next => do
    let b ← c.make
    (next b).make

end HueCycle.Files

open HueCycle

/-- Print the outcome of the command line. -/
def main (args : List String) : IO UInt32 := do
  let outcome ← (CommandLine.run (args.map Utf8.encode)).make
  match outcome with
  | .help => CommandLine.usage.forM IO.println
  | .version => IO.println CommandLine.versionLine
  | .misuse => CommandLine.usage.forM IO.eprintln
  | .finished printed =>
    printed.out.forM IO.println
    printed.err.forM IO.eprintln
  | .failed report => IO.eprintln report
  return outcome.status.toUInt32
