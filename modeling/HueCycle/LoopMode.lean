/-
HueCycle.LoopMode — how often an animation plays, and its JSON form: the
name `"infinite"`, or an object with the one key `finite` or `infinite`.
-/
import HueCycle.Error
import HueCycle.Json.Record

namespace HueCycle

/-- How often an animation plays. -/
inductive LoopMode where
  | infinite
  /-- This many times; zero is refused when an animation is made. -/
  | finite (times : UInt16)
deriving Repr, DecidableEq

namespace LoopMode

/-- The number of plays as an animated PNG states it, where zero means
without end. -/
def plays : LoopMode → Except Error UInt32
  | .infinite => .ok 0
  | .finite times =>
    if times = 0 then .error (.config .playsZero) else .ok times.toUInt32

open Json

/-- The two names a loop mode can have. -/
inductive Name where
  | infinite
  | finite

/-- The name that the octets spell. -/
def nameOf (octets : Bytes) : Except Fault Name :=
  if octets = Utf8.encode "infinite" then .ok .infinite
  else if octets = Utf8.encode "finite" then .ok .finite
  else .error (.unknownVariant (Utf8.lossy octets) ["infinite", "finite"])

/-- What belongs to a name inside of an object. -/
def readContent : Name → Reader LoopMode
  | .infinite, bytes => (Json.unit bytes).map fun r => (.infinite, r.2)
  | .finite, bytes =>
    (natural 16 bytes).map fun r => (.finite (UInt16.ofNat r.1), r.2)

/-- Read a loop mode. -/
def read : Reader LoopMode := fun bytes => do
  match skipSpace bytes with
  | [] => throw .endInValue
  | b :: rest =>
    if b = 0x7B then
      let (octets, rest) ← Json.string "variant identifier" rest
      let name ← nameOf octets
      let (mode, rest) ← readContent name (← colon rest)
      match skipSpace rest with
      | [] => throw .endInObject
      | c :: rest => if c = 0x7D then return (mode, rest) else throw .expectedValue
    else if b = quoteOctet then
      let (octets, rest) ← readStr rest
      match ← nameOf octets with
      | .infinite => return (.infinite, rest)
      | .finite => throw (.wrongType .unitVariant "newtype variant")
    else throw .expectedValue

/-- The JSON text of a loop mode. -/
def write : LoopMode → Bytes
  | .infinite => writeStr (Utf8.encode "infinite")
  | .finite times => writeObject [("finite", writeNatural times.toNat)]

end LoopMode

end HueCycle
