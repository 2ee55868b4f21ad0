/-
HueCycle.Text.Utf8 — reading octets as UTF-8, one octet at a time.

The decoder keeps what it owes: the value so far, how many octets are
still missing and the bounds of the next one. An octet out of bounds ends
the broken sequence, which counts as one invalid part, and is then looked
at again as a first octet; so an invalid part is never longer than a
prefix of some character. `lossy` puts the replacement character in the
place of each invalid part.
-/

namespace HueCycle

/-- Octets: file contents, paths and unread text. -/
abbrev Bytes := List UInt8

namespace Utf8

/-- A character of which some octets are missing. -/
structure Pending where
  value : Nat
  missing : Nat
  low : UInt8
  high : UInt8

/-- What a first octet says. -/
inductive Lead where
  | done (c : Option Char)
  | more (p : Pending)

/-- The meaning of an octet between characters. -/
def lead (b : UInt8) : Lead :=
  if b < 0x80 then .done (some (Char.ofNat b.toNat))
  else if b < 0xC2 then .done none
  else if b < 0xE0 then .more ⟨b.toNat % 32, 1, 0x80, 0xBF⟩
  else if b < 0xF0 then
    .more ⟨b.toNat % 16, 2, if b = 0xE0 then 0xA0 else 0x80, if b = 0xED then 0x9F else 0xBF⟩
  else if b < 0xF5 then
    .more ⟨b.toNat % 8, 3, if b = 0xF0 then 0x90 else 0x80, if b = 0xF4 then 0x8F else 0xBF⟩
  else .done none

/-- The characters of a text from a given state on; `none` stands for an
invalid part. -/
def decodeFrom : Option Pending → Bytes → List (Option Char)
  | none, [] => []
  | some _, [] => [none]
  | none, b :: rest =>
    match lead b with
    | .done c => c :: decodeFrom none rest
    | .more p => decodeFrom (some p) rest
  | some p, b :: rest =>
    if p.low ≤ b ∧ b ≤ p.high then
      let value := p.value * 64 + b.toNat % 64
      if p.missing = 1 then some (Char.ofNat value) :: decodeFrom none rest
      else decodeFrom (some ⟨value, p.missing - 1, 0x80, 0xBF⟩) rest
    else
      none ::
        match lead b with
        | .done c => c :: decodeFrom none rest
        | .more p => decodeFrom (some p) rest

/-- The characters of a text; `none` stands for an invalid part. -/
def decode (bytes : Bytes) : List (Option Char) := decodeFrom none bytes

/-- Whether the octets are UTF-8. -/
def isValid (bytes : Bytes) : Bool := (decode bytes).all Option.isSome

/-- The text, with U+FFFD for each invalid part. -/
def lossy (bytes : Bytes) : String :=
  String.ofList ((decode bytes).map fun c => c.getD '\uFFFD')

/-- The octets of a text. -/
def encode (s : String) : Bytes := s.toList.flatMap String.utf8EncodeChar

end Utf8

end HueCycle
