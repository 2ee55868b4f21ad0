/-
HueCycle.Json.Str — the inside of JSON strings: reading what stands between
the quotes, octet by octet, and writing it.

The reader keeps one small state between octets: plain text, after a
backslash, or inside a `\u` escape, with the first half of a surrogate
pair once that has been read. Strings whose content matters (`strict`)
must pair their surrogates and be UTF-8; strings that are skipped need
only well-formed escapes.
-/
import HueCycle.Json.Fault
import HueCycle.Text.Utf8

namespace HueCycle.Json

/-- The octet `"`. -/
def quoteOctet : UInt8 := 0x22

/-- The octet `\`. -/
def backslash : UInt8 := 0x5C

/-- The value of a hexadecimal digit. -/
def hexValue? (b : UInt8) : Option Nat :=
  if 0x30 ≤ b ∧ b ≤ 0x39 then some (b.toNat - 0x30)
  else if 0x61 ≤ b ∧ b ≤ 0x66 then some (b.toNat - 0x57)
  else if 0x41 ≤ b ∧ b ≤ 0x46 then some (b.toNat - 0x37)
  else none

/-- Where the reader of a string stands between two octets. -/
inductive StrState where
  | plain
  | escaped
  /-- Inside a `\u` escape: digits still to come, the value so far (none once
  a digit was wrong), and the first half of a pair. -/
  | hex (missing : Nat) (value : Option Nat) (first : Option Nat)
  /-- After the first half of a pair: a backslash must follow. -/
  | pairBackslash (first : Nat)
  /-- After the backslash of the second half: a `u` must follow. -/
  | pairLetter (first : Nat)

/-- The octets of a code point that is no surrogate. -/
def codePointOctets (n : Nat) : Bytes := String.utf8EncodeChar (Char.ofNat n)

/-- What a finished `\u` escape means. -/
def finishHex (strict : Bool) (value : Option Nat) (first : Option Nat) :
    Except Fault (StrState × Bytes) :=
  match value with
  | none => .error .invalidEscape
  | some n =>
    if !strict then .ok (.plain, [])
    else
      match first with
      | none =>
        if 0xDC00 ≤ n ∧ n ≤ 0xDFFF then .error .loneSurrogate
        else if 0xD800 ≤ n ∧ n ≤ 0xDBFF then .ok (.pairBackslash n, [])
        else .ok (.plain, codePointOctets n)
      | some high =>
        if n < 0xDC00 ∨ 0xDFFF < n then .error .loneSurrogate
        else
          .ok (.plain, codePointOctets ((high - 0xD800) * 0x400 + (n - 0xDC00) + 0x10000))

/-- The octet that a one-letter escape stands for. -/
def letterEscape? (b : UInt8) : Option UInt8 :=
  if b = quoteOctet ∨ b = backslash ∨ b = 0x2F then some b
  else if b = 0x62 then some 0x08
  else if b = 0x66 then some 0x0C
  else if b = 0x6E then some 0x0A
  else if b = 0x72 then some 0x0D
  else if b = 0x74 then some 0x09
  else none

/-- One octet of a string other than its closing quote: the next state and
the octets of content that are now certain. -/
def strStep (strict : Bool) : StrState → UInt8 → Except Fault (StrState × Bytes)
  | .plain, b =>
    if b = backslash then .ok (.escaped, [])
    else if b < 0x20 then .error .controlCharacter
    else .ok (.plain, [b])
  | .escaped, b =>
    match letterEscape? b with
    | some c => .ok (.plain, [c])
    | none => if b = 0x75 then .ok (.hex 4 (some 0) none, []) else .error .invalidEscape
  | .hex missing value first, b =>
    let value' := match value, hexValue? b with
      | some v, some d => some (v * 16 + d)
      | _, _ => none
    if missing ≤ 1 then finishHex strict value' first
    else .ok (.hex (missing - 1) value' first, [])
  | .pairBackslash high, b =>
    if b = backslash then .ok (.pairLetter high, []) else .error .hexEscapeEnd
  | .pairLetter high, b =>
    if b = 0x75 then .ok (.hex 4 (some 0) (some high), []) else .error .hexEscapeEnd

/-- The content up to the closing quote, and what follows the quote. -/
def strFrom (strict : Bool) : StrState → Bytes → Except Fault (Bytes × Bytes)
  | _, [] => .error .endInString
  | state, b :: rest =>
    match state, decide (b = quoteOctet) with
    | .plain, true => .ok ([], rest)
    | state, _ =>
      match strStep strict state b with
      | .error fault => .error fault
      | .ok (next, out) =>
        match strFrom strict next rest with
        | .error fault => .error fault
        | .ok (content, after) => .ok (out ++ content, after)

/-- The content of a string whose opening quote has been read. -/
def readStr (bytes : Bytes) : Except Fault (Bytes × Bytes) :=
  match strFrom true .plain bytes with
  | .error fault => .error fault
  | .ok (content, rest) =>
    if Utf8.isValid content then .ok (content, rest) else .error .invalidCodePoint

/-- What follows a string whose content does not matter. -/
def skipStr (bytes : Bytes) : Except Fault Bytes :=
  (strFrom false .plain bytes).map Prod.snd

/-- A lower-case hexadecimal digit. -/
def hexDigit (n : Nat) : UInt8 := if n < 10 then UInt8.ofNat (0x30 + n) else UInt8.ofNat (0x57 + n)

/-- One octet of content as written: quotes, backslashes and controls are
escaped, all else stands for itself. -/
def writeOctet (b : UInt8) : Bytes :=
  if b = quoteOctet ∨ b = backslash then [backslash, b]
  else if b = 0x08 then [backslash, 0x62]
  else if b = 0x09 then [backslash, 0x74]
  else if b = 0x0A then [backslash, 0x6E]
  else if b = 0x0C then [backslash, 0x66]
  else if b = 0x0D then [backslash, 0x72]
  else if b < 0x20 then
    [backslash, 0x75, 0x30, 0x30, hexDigit (b.toNat / 16), hexDigit (b.toNat % 16)]
  else [b]

/-- A string with its quotes. -/
def writeStr (content : Bytes) : Bytes :=
  quoteOctet :: content.flatMap writeOctet ++ [quoteOctet]

end HueCycle.Json
