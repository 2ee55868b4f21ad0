/-
HueCycle.Text.Quoted — a text between double quotes, as messages show it.
Quotes and backslashes get a backslash, the common controls their letter,
and every other character without a visible form its code point in hex.
-/
import HueCycle.Text.Hidden

namespace HueCycle.Text

/-- The code point of a character in lower-case hex between braces. -/
def codePoint (c : Char) : List Char :=
  ['\\', 'u', '\x7b'] ++ Nat.toDigits 16 c.toNat ++ ['\x7d']

/-- One character of a quoted text. -/
def quoteChar (c : Char) : List Char :=
  if c = '"' ∨ c = '\\' then ['\\', c]
  else if c = '\n' then ['\\', 'n']
  else if c = '\r' then ['\\', 'r']
  else if c = '\t' then ['\\', 't']
  else if c = '\x00' then ['\\', '0']
  else if isHidden c then codePoint c
  else [c]

/-- The text between double quotes. -/
def quote (s : String) : String :=
  String.ofList ('"' :: s.toList.flatMap quoteChar ++ ['"'])

end HueCycle.Text
