/-
HueCycle.Files.FileSystem — files and directories as a value.

A place is the list of names from the root down. A path is followed name by
name from the root or from the working directory: `.` stays, `..` goes up
(the root is above itself), any other name must be there and, unless it is
the last one, be a directory. Every call either gives its answer and the
new file system, or a reason and no change.
-/
import HueCycle.Files.OsError
import HueCycle.Path

namespace HueCycle.Files

/-- The names from the root down to a file or directory. -/
abbrev Place := List Bytes

/-- What is stored at a place. -/
inductive Entry where
  | file (content : Bytes)
  | directory
deriving Repr, DecidableEq

/-- Files and directories, and the directory that relative paths start from.
The root is a directory without being listed. -/
structure FileSystem where
  entries : List (Place × Entry)
  cwd : Place

namespace FileSystem

/-- What is stored at a place. -/
def entry? (fs : FileSystem) (place : Place) : Option Entry :=
  if place = [] then some .directory else fs.entries.lookup place

/-- Store something at a place. -/
def put (fs : FileSystem) (place : Place) (entry : Entry) : FileSystem :=
  { fs with entries := (place, entry) :: fs.entries.filter fun e => e.1 != place }

/-- Leave a place empty. -/
def erase (fs : FileSystem) (place : Place) : FileSystem :=
  { fs with entries := fs.entries.filter fun e => e.1 != place }

/-! ## Following paths -/

/-- The most octets of a path and of a name. -/
def pathMax : Nat := 4095
def nameMax : Nat := 255

/-- The last step of a path. -/
inductive Last where
  | name (octets : Bytes)
  | here
  | up
  | root
deriving DecidableEq

/-- A path followed up to its last step. -/
structure Located where
  directory : Place
  last : Last
  /-- Whether a slash follows the last name, which only a directory allows. -/
  slash : Bool

/-- The kind of a step. -/
def Last.of (segment : Bytes) : Last :=
  if segment = [Path.dot] then .here
  else if segment = [Path.dot, Path.dot] then .up
  else .name segment

/-- Go from a directory through others. -/
def descend (fs : FileSystem) : Place → List Bytes → Except OsError Place
  | place, [] => .ok place
  | place, segment :: rest =>
    match Last.of segment with
    | .up => descend fs place.dropLast rest
    | .name name =>
      if nameMax < name.length then .error .nameTooLong
      else
        match fs.entry? (place ++ [name]) with
        | none => .error .notFound
        | some (.file _) => .error .notDirectory
        | some .directory => descend fs (place ++ [name]) rest
    | _ => descend fs place rest

/-- Follow a path up to its last step. -/
def locate (fs : FileSystem) (path : Path) : Except OsError Located :=
  if path.bytes = [] then .error .notFound
  else if pathMax < path.bytes.length then .error .nameTooLong
  else
    let segments := (Path.cut path.bytes).filter (· ≠ [])
    match segments.getLast? with
    | none => .ok ⟨[], .root, false⟩
    | some last =>
      match fs.descend (if path.isAbsolute then [] else fs.cwd) segments.dropLast with
      | .error e => .error e
      | .ok directory =>
        .ok ⟨directory, Last.of last, path.bytes.getLast? = some Path.slash⟩

/-- The place of something that is there. -/
def resolve (fs : FileSystem) (path : Path) : Except OsError Place :=
  match fs.locate path with
  | .error e => .error e
  | .ok l =>
    match l.last with
    | .root => .ok []
    | .here => .ok l.directory
    | .up => .ok l.directory.dropLast
    | .name name =>
      if nameMax < name.length then .error .nameTooLong
      else
        match fs.entry? (l.directory ++ [name]) with
        | none => .error .notFound
        | some (.file _) =>
          if l.slash then .error .notDirectory else .ok (l.directory ++ [name])
        | some .directory => .ok (l.directory ++ [name])

/-- Whether a path has a zero octet. -/
def hasZero (path : Path) : Bool := path.bytes.contains 0

/-! ## Calls -/

/-- Why a file could not be read: it could not be opened, or what was opened
has no contents to read. -/
inductive ReadFault where
  | cannotOpen (reason : OsError)
  | cannotRead (reason : OsError)
deriving Repr, DecidableEq

def ReadFault.reason : ReadFault → OsError
  | .cannotOpen reason => reason
  | .cannotRead reason => reason

/-- The contents of a file. -/
def read (fs : FileSystem) (path : Path) : Except ReadFault Bytes :=
  if hasZero path then .error (.cannotOpen .zeroOctet)
  else
    match fs.resolve path with
    | .error e => .error (.cannotOpen e)
    | .ok place =>
      match fs.entry? place with
      | some (.file content) => .ok content
      | some .directory => .error (.cannotRead .isDirectory)
      | none => .error (.cannotOpen .notFound)

/-- Whether a path leads to a directory. -/
def isDirectory (fs : FileSystem) (path : Path) : Bool :=
  !hasZero path &&
    match fs.resolve path with
    | .error _ => false
    | .ok place => fs.entry? place == some .directory

/-- Make one directory. -/
def makeDirectory (fs : FileSystem) (path : Path) : Except OsError FileSystem :=
  if hasZero path then .error .zeroOctet
  else
    match fs.locate path with
    | .error e => .error e
    | .ok l =>
      match l.last with
      | .name name =>
        if nameMax < name.length then .error .nameTooLong
        else
          match fs.entry? (l.directory ++ [name]) with
          | some _ => .error .exists
          | none => .ok (fs.put (l.directory ++ [name]) .directory)
      | _ => .error .exists

/-- The name of temporary file number `n`: six letters between fixed ends. -/
def temporaryName (n : Nat) : Bytes :=
  let letter (i : Nat) : UInt8 := UInt8.ofNat (0x61 + n / Nat.pow 26 i % 26)
  Utf8.encode ".hueloop-" ++ (List.range 6).map letter ++ Utf8.encode ".tmp"

/-- Make an empty file in a directory, under the first temporary name from
number `n` on that is free, trying at most `tries` of them. -/
def makeTemporaryFrom (fs : FileSystem) (directory : Path) :
    Nat → Nat → Except OsError (Path × FileSystem)
  | 0, _ => .error .exists
  | tries + 1, n =>
    let name := temporaryName n
    let path := directory.join ⟨name⟩
    match fs.locate path with
    | .error e => .error e
    | .ok l =>
      match fs.entry? (l.directory ++ [name]) with
      | some _ => makeTemporaryFrom fs directory tries (n + 1)
      | none => .ok (path, fs.put (l.directory ++ [name]) (.file []))

/-- Make an empty file under a free temporary name in a directory. -/
def makeTemporary (fs : FileSystem) (directory : Path) : Except OsError (Path × FileSystem) :=
  if hasZero directory then .error .zeroOctet
  else makeTemporaryFrom fs directory (fs.entries.length + 1) 0

/-- Replace the contents of a file. -/
def write (fs : FileSystem) (path : Path) (content : Bytes) : Except OsError FileSystem :=
  match fs.resolve path with
  | .error e => .error e
  | .ok place =>
    match fs.entry? place with
    | some (.file _) => .ok (fs.put place (.file content))
    | some .directory => .error .isDirectory
    | none => .error .notFound

/-- Give a file another name, in the place of whatever file had it. -/
def rename (fs : FileSystem) (source target : Path) : Except OsError FileSystem :=
  if hasZero target then .error .invalidArgument
  else
    match fs.resolve source, fs.locate target with
    | .error e, _ => .error e
    | _, .error e => .error e
    | .ok origin, .ok l =>
      match fs.entry? origin, l.last with
      | some (.file content), .name name =>
        if nameMax < name.length then .error .nameTooLong
        else if l.slash then .error .notDirectory
        else if fs.entry? (l.directory ++ [name]) = some .directory then .error .isDirectory
        else .ok ((fs.erase origin).put (l.directory ++ [name]) (.file content))
      | some (.file _), _ => .error .busy
      | _, _ => .error .notFound

/-- Remove a file; without one nothing happens. -/
def remove (fs : FileSystem) (path : Path) : FileSystem :=
  match fs.resolve path with
  | .error _ => fs
  | .ok place =>
    match fs.entry? place with
    | some (.file _) => fs.erase place
    | _ => fs

/-! ## Setting up and looking around -/

/-- Put a directory at a place, and what is missing above it. -/
def addDirectory (fs : FileSystem) (place : Place) : FileSystem :=
  (List.range place.length).foldl (fun fs n =>
    let above := place.take (n + 1)
    if (fs.entry? above).isNone then fs.put above .directory else fs) fs

/-- Put a file at a place, and the directories that are missing above it. -/
def addFile (fs : FileSystem) (place : Place) (content : Bytes) : FileSystem :=
  (fs.addDirectory place.dropLast).put place (.file content)

/-- The name of an entry below a directory, with a slash after a directory. -/
def nameBelow (directory : Place) (e : Place × Entry) : Option Bytes :=
  if directory.length < e.1.length ∧ e.1.take directory.length = directory then
    let name := Path.paste (e.1.drop directory.length)
    some (if e.2 = .directory then name ++ [Path.slash] else name)
  else none

/-- The names of all that lies below the working directory. -/
def names (fs : FileSystem) : List Bytes := fs.entries.filterMap (nameBelow fs.cwd)

end FileSystem

end HueCycle.Files
