/-
HueCycle.Proofs.Json.Strings — reading back the strings that are written.

An octet is written in one of three ways (`writeOctet_cases`): as itself, as
an escape of one letter, or as an escape of four hexadecimal digits. Each way
takes the reader from plain text to plain text and yields that octet
(`strFrom_writeOctet`), so the content of a written string is read back, and
is accepted where it is UTF-8 (`readStr_content`).
-/
import HueCycle.Json.Reader

namespace HueCycle.Json

/-! ## §1 One octet -/

section Steps

variable {strict : Bool} {tail : Bytes}

/-- What a reader yields after an octet of content. -/
def yielding (out : Bytes) (r : Except Fault (Bytes × Bytes)) : Except Fault (Bytes × Bytes) :=
  r.map fun r => (out ++ r.1, r.2)

theorem yielding_nil (r : Except Fault (Bytes × Bytes)) : yielding [] r = r := by
  cases r <;> rfl

/-- A step in plain text. -/
theorem strFrom_plain {b : UInt8} (hb : b ≠ quoteOctet) {next : StrState} {out : Bytes}
    (h : strStep strict .plain b = .ok (next, out)) :
    strFrom strict .plain (b :: tail) = yielding out (strFrom strict next tail) := by
  have hquote : decide (b = quoteOctet) = false := decide_eq_false hb
  rw [strFrom.eq_def]
  simp only [hquote, h]
  cases strFrom strict next tail <;> rfl

/-- A step inside of an escape, where a quote is an octet like any other. -/
theorem strFrom_escape {state next : StrState} {b : UInt8} {out : Bytes}
    (hstate : state ≠ .plain) (h : strStep strict state b = .ok (next, out)) :
    strFrom strict state (b :: tail) = yielding out (strFrom strict next tail) := by
  rw [strFrom.eq_def]
  cases state with
  | plain => exact absurd rfl hstate
  | _ =>
    simp only [h]
    cases strFrom strict next tail <;> rfl

/-- An escape of one letter. -/
theorem strFrom_letter {b c : UInt8} (h : letterEscape? c = some b) :
    strFrom strict .plain (backslash :: c :: tail) = yielding [b] (strFrom strict .plain tail) := by
  have hescape : strStep strict .plain backslash = .ok (.escaped, []) := rfl
  have hletter : strStep strict .escaped c = .ok (.plain, [b]) := by rw [strStep, h]
  rw [strFrom_plain (by decide) hescape, yielding_nil, strFrom_escape (by simp) hletter]

end Steps

/-- The hexadecimal digits are read back. -/
theorem hexValue?_hexDigit : ∀ n < 16, hexValue? (hexDigit n) = some n := by decide

/-- A control octet is its own encoding. -/
theorem codePointOctets_control : ∀ n < 32, codePointOctets n = [UInt8.ofNat n] := by decide

/-- An escape of four hexadecimal digits. -/
theorem strFrom_hex {n : Nat} (hn : n < 32) {tail : Bytes} :
    strFrom true .plain (backslash :: 0x75 :: 0x30 :: 0x30 :: hexDigit (n / 16) ::
      hexDigit (n % 16) :: tail) = yielding [UInt8.ofNat n] (strFrom true .plain tail) := by
  have hescape : strStep true .plain backslash = .ok (.escaped, []) := rfl
  have hletter : strStep true .escaped 0x75 = .ok (.hex 4 (some 0) none, []) := rfl
  have hfirst : strStep true (.hex 4 (some 0) none) 0x30 = .ok (.hex 3 (some 0) none, []) := rfl
  have hsecond : strStep true (.hex 3 (some 0) none) 0x30 = .ok (.hex 2 (some 0) none, []) := rfl
  have hthird : strStep true (.hex 2 (some 0) none) (hexDigit (n / 16)) =
      .ok (.hex 1 (some (n / 16)) none, []) := by
    simp only [strStep, hexValue?_hexDigit (n / 16) (by omega)]
    simp
  have hfourth : strStep true (.hex 1 (some (n / 16)) none) (hexDigit (n % 16)) =
      .ok (.plain, [UInt8.ofNat n]) := by
    simp only [strStep, hexValue?_hexDigit (n % 16) (Nat.mod_lt _ (by decide)),
      Nat.div_add_mod', Nat.le_refl, if_true, finishHex, Bool.not_true, Bool.false_eq_true, if_false,
      codePointOctets_control n hn]
    rw [if_neg (by omega), if_neg (by omega)]
  rw [strFrom_plain (by decide) hescape, strFrom_escape (by simp) hletter,
    strFrom_escape (by simp) hfirst, strFrom_escape (by simp) hsecond,
    strFrom_escape (by simp) hthird, strFrom_escape (by simp) hfourth]
  simp only [yielding_nil]

/-- The three ways to write an octet. -/
theorem writeOctet_cases (b : UInt8) :
    (∃ c, writeOctet b = [backslash, c] ∧ letterEscape? c = some b) ∨
      (∃ n < 32, b = UInt8.ofNat n ∧
        writeOctet b = [backslash, 0x75, 0x30, 0x30, hexDigit (n / 16), hexDigit (n % 16)]) ∨
      (writeOctet b = [b] ∧ b ≠ quoteOctet ∧ strStep true .plain b = .ok (.plain, [b])) := by
  rw [writeOctet]
  split
  · rename_i h
    rcases h with rfl | rfl
    · exact .inl ⟨_, rfl, rfl⟩
    · exact .inl ⟨_, rfl, rfl⟩
  rename_i hmarks
  rw [not_or] at hmarks
  split
  · rename_i h
    exact .inl ⟨_, rfl, h ▸ rfl⟩
  split
  · rename_i h
    exact .inl ⟨_, rfl, h ▸ rfl⟩
  split
  · rename_i h
    exact .inl ⟨_, rfl, h ▸ rfl⟩
  split
  · rename_i h
    exact .inl ⟨_, rfl, h ▸ rfl⟩
  split
  · rename_i h
    exact .inl ⟨_, rfl, h ▸ rfl⟩
  split
  · rename_i h
    exact .inr (.inl ⟨b.toNat, UInt8.lt_iff_toNat_lt.mp h, UInt8.ofNat_toNat.symm, rfl⟩)
  · rename_i h
    exact .inr (.inr ⟨rfl, hmarks.1, by rw [strStep, if_neg hmarks.2, if_neg h]⟩)

/-- **An octet that was written is read back.** -/
theorem strFrom_writeOctet (b : UInt8) (tail : Bytes) :
    strFrom true .plain (writeOctet b ++ tail) = yielding [b] (strFrom true .plain tail) := by
  obtain ⟨c, hc, hletter⟩ | ⟨n, hn, rfl, hhex⟩ | ⟨hself, hquote, hstep⟩ := writeOctet_cases b
  · rw [hc]
    exact strFrom_letter hletter
  · rw [hhex]
    exact strFrom_hex hn
  · rw [hself]
    exact strFrom_plain hquote hstep

/-! ## §2 Strings -/

variable {content rest : Bytes}

/-- The content of a written string is read up to the closing quote. -/
theorem strFrom_content (content rest : Bytes) :
    strFrom true .plain (content.flatMap writeOctet ++ quoteOctet :: rest) =
      .ok (content, rest) := by
  induction content with
  | nil => rfl
  | cons b content ih =>
    rw [List.flatMap_cons, List.append_assoc, strFrom_writeOctet, ih]
    rfl

/-- **The content of a written string is read back** where it is UTF-8. -/
theorem readStr_content (h : Utf8.isValid content = true) :
    readStr (content.flatMap writeOctet ++ quoteOctet :: rest) = .ok (content, rest) := by
  rw [readStr, strFrom_content]
  simp only [h, if_true]

theorem writeStr_append (content rest : Bytes) :
    writeStr content ++ rest = quoteOctet :: (content.flatMap writeOctet ++ quoteOctet :: rest) := by
  simp [writeStr]

/-- So is a string. -/
theorem string_writeStr (expected : String) (h : Utf8.isValid content = true) (rest : Bytes) :
    string expected (writeStr content ++ rest) = .ok (content, rest) := by
  rw [writeStr_append]
  exact readStr_content h

end HueCycle.Json
