/-
HueCycle.CommandLine.Arguments — the grammar of the command line.

A subcommand is followed by its options in any order. A value follows its
option in the next argument or after an equals sign. No option may come
twice, except for `-v`, which only counts. An argument that begins with a
minus is no value, unless the option takes negative numbers and the
argument looks like one. The first argument that cannot be understood ends
the reading, and so does a call for help.
-/
import HueCycle.Decimal.Reading
import HueCycle.Path

namespace HueCycle.CommandLine

/-- The options with a meaning of their own. -/
inductive Key where
  | config
  | input
  | fps
  | duration
  | shifts
  | blinks
  | out
  | loops
  | threads
  | frame
  | parallel
  | elide
deriving Repr, DecidableEq

/-- What an option takes. -/
inductive Kind where
  | path
  /-- A whole number with sign from 0 up to and without `2^width`. -/
  | integer (width : Nat)
  /-- A whole number without minus sign below `2^width`. -/
  | natural (width : Nat)
  | number
  /-- Nothing: the option is there or not. -/
  | flag
deriving Repr, DecidableEq

namespace Key

def name : Key → String
  | .config => "config"
  | .input => "in"
  | .fps => "fps"
  | .duration => "duration"
  | .shifts => "shifts"
  | .blinks => "blinks"
  | .out => "out"
  | .loops => "loops"
  | .threads => "threads"
  | .frame => "frame"
  | .parallel => "parallel"
  | .elide => "static-frame-elision"

def kind : Key → Kind
  | .config => .path
  | .input => .path
  | .fps => .integer 32
  | .duration => .number
  | .shifts => .number
  | .blinks => .number
  | .out => .path
  | .loops => .integer 16
  | .threads => .natural 64
  | .frame => .natural 64
  | .parallel => .flag
  | .elide => .flag

/-- Whether a negative number may follow in the next argument. -/
def takesNegative : Key → Bool
  | .shifts => true
  | .blinks => true
  | _ => false

end Key

/-- The things the program can be asked to do. -/
inductive Subcommand where
  | render
  | frame
  | schedule
deriving Repr, DecidableEq

namespace Subcommand

def all : List Subcommand := [.render, .frame, .schedule]

def name : Subcommand → String
  | .render => "render"
  | .frame => "frame"
  | .schedule => "schedule"

/-- The options that every subcommand has. -/
def commonKeys : List Key := [.config, .input, .fps, .duration, .shifts, .blinks]

def keys : Subcommand → List Key
  | .render => commonKeys ++ [.out, .loops, .parallel, .threads, .elide]
  | .frame => commonKeys ++ [.frame, .out]
  | .schedule => commonKeys

/-- The options that must be given. -/
def required : Subcommand → List Key
  | .frame => [.frame, .out]
  | _ => []

end Subcommand

/-- What was given with an option. -/
inductive Value where
  | path (p : Path)
  | whole (n : Nat)
  | number (x : Float)
  | present

/-- The characters of an argument, if it is text. -/
def textOf? (octets : Bytes) : Option (List Char) :=
  if Utf8.isValid octets then some ((Utf8.decode octets).filterMap id) else none

/-- Read the value of an option; a path must not be empty. -/
def readValue? (kind : Kind) (octets : Bytes) : Option Value :=
  match kind with
  | .path => if octets = [] then none else some (.path ⟨octets⟩)
  | .integer width =>
    match (textOf? octets).bind Decimal.readInteger? with
    | some n => if 0 ≤ n ∧ n < (Nat.pow 2 width : Int) then some (.whole n.toNat) else none
    | none => none
  | .natural width =>
    match (textOf? octets).bind Decimal.readNatural? with
    | some n => if n < Nat.pow 2 width then some (.whole n) else none
    | none => none
  | .number => ((textOf? octets).bind Decimal.readFloat?).map .number
  | .flag => none

/-- Whether what follows a minus looks like a number: digits, with a point not
in front and before the exponent, and an exponent not in front, without sign
and not empty. -/
def looksNumeric (octets : Bytes) : Bool :=
  let isDigit (b : UInt8) : Bool := 0x30 ≤ b && b ≤ 0x39
  let isE (b : UInt8) : Bool := b = 0x65 || b = 0x45
  let before := octets.takeWhile fun b => !isE b
  let after := octets.dropWhile fun b => !isE b
  let point := before.dropWhile isDigit
  let mantissa :=
    match point with
    | [] => true
    | b :: rest => b = Path.dot && octets.head? != some Path.dot && rest.all isDigit
  mantissa &&
    match after with
    | [] => true
    | _ :: rest => !before.isEmpty && !rest.isEmpty && rest.all isDigit

/-- What the arguments ask for. -/
inductive Request where
  | help
  | version
  | perform (subcommand : Subcommand) (given : List (Key × Value))
  /-- The arguments cannot be understood. -/
  | misuse

/-- The octets `-` and `=`. -/
def minus : UInt8 := 0x2D
def equals : UInt8 := 0x3D

/-- What an argument looks like. -/
inductive Shape where
  /-- Two minus signs alone: no options follow. -/
  | stop
  /-- A long option, with what follows its equals sign. -/
  | long (name : Bytes) (value : Option Bytes)
  /-- Short options after one minus. -/
  | short (letters : Bytes)
  | plain

/-- The shape of an argument. -/
def shapeOf (argument : Bytes) : Shape :=
  match argument with
  | a :: b :: rest =>
    if a = minus ∧ b = minus then
      if rest = [] then .stop
      else
        match rest.dropWhile (· != equals) with
        | [] => .long rest none
        | _ :: value => .long (rest.takeWhile (· != equals)) (some value)
    else if a = minus then .short (b :: rest)
    else .plain
  | _ => .plain

/-- What letters after one minus ask for. -/
inductive Letters where
  | verbosity
  | help
  | version
  | unknown

/-- Go over letters up to the first one that ends the reading. -/
def readLetters (withVersion : Bool) : Bytes → Letters
  | [] => .verbosity
  | b :: rest =>
    if b = 0x76 then readLetters withVersion rest
    else if b = 0x68 then .help
    else if b = 0x56 ∧ withVersion then .version
    else .unknown

/-- What a subcommand with all its options asks for: nothing unless those that
must be given are there. -/
def complete (s : Subcommand) (given : List (Key × Value)) : Request :=
  if s.required.all fun k => given.any fun g => g.1 == k then .perform s given else .misuse

/-- Read the options of a subcommand. The first argument is an option whose
value must be the next argument of the command line; after a `stop` there must
be no more arguments. -/
def readOptions (s : Subcommand) : Option Key → List (Key × Value) → List Bytes → Request
  | some _, _, [] => .misuse
  | none, given, [] => complete s given
  | some key, given, argument :: rest =>
    let isValue : Bool :=
      match shapeOf argument with
      | .plain => true
      | .short letters => key.takesNegative && looksNumeric letters
      | _ => false
    if isValue && !(given.any fun g => g.1 == key) then
      match readValue? key.kind argument with
      | some value => readOptions s none (given ++ [(key, value)]) rest
      | none => .misuse
    else .misuse
  | none, given, argument :: rest =>
    match shapeOf argument with
    | .stop => if rest.isEmpty then complete s given else .misuse
    | .plain => .misuse
    | .short letters =>
      match readLetters false letters with
      | .verbosity => readOptions s none given rest
      | .help => .help
      | _ => .misuse
    | .long name value =>
      if name = Utf8.encode "verbose" ∧ value.isNone then readOptions s none given rest
      else if name = Utf8.encode "help" ∧ value.isNone then .help
      else
        match s.keys.find? fun k => Utf8.encode k.name == name with
        | none => .misuse
        | some key =>
          if key.kind = .flag then
            if value.isSome ∨ given.any (fun g => g.1 == key) then .misuse
            else readOptions s none (given ++ [(key, .present)]) rest
          else
            match value with
            | none => readOptions s (some key) given rest
            | some octets =>
              match readValue? key.kind octets with
              | none => .misuse
              | some v =>
                if given.any (fun g => g.1 == key) then .misuse
                else readOptions s none (given ++ [(key, v)]) rest

/-- What `help` asks for: help as a whole, or on one subcommand. -/
def readHelp : List Bytes → Request
  | [] => .help
  | [name] =>
    if name = Utf8.encode "help" ∨ Subcommand.all.any (fun s => Utf8.encode s.name == name)
    then .help else .misuse
  | _ => .misuse

/-- Read a whole command line: options of the program, then a subcommand. -/
def read : List Bytes → Request
  | [] => .misuse
  | argument :: rest =>
    match Subcommand.all.find? fun s => Utf8.encode s.name == argument with
    | some s => readOptions s none [] rest
    | none =>
      if argument = Utf8.encode "help" then readHelp rest
      else
        match shapeOf argument with
        | .short letters =>
          match readLetters true letters with
          | .verbosity => read rest
          | .help => .help
          | .version => .version
          | .unknown => .misuse
        | .long name none =>
          if name = Utf8.encode "verbose" then read rest
          else if name = Utf8.encode "help" then .help
          else if name = Utf8.encode "version" then .version
          else .misuse
        | _ => .misuse

end HueCycle.CommandLine
