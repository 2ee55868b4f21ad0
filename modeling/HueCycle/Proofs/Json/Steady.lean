/-
HueCycle.Proofs.Json.Steady — on JSON a reader takes or refuses a value, and
stops at its end.

What a reader makes of a value must not depend on what follows it, or the next
key of an object would be sought in the wrong place. `Steady` says this of a
reader; a value in front of something else is then read as by itself
(`IsElement.exists_trail`). Numbers need that no digit, point or exponent
follows (`exists_readNumber`). In a string only the first half of a surrogate
pair is remembered from one character to the next (`closes_inside`).
-/
import Mathlib
import HueCycle.Proofs.Json.Grammar

namespace HueCycle.Json

/-! ## §1 Numbers -/

section Numbers

variable {digits rest : Bytes}

theorem takeWhile_of_noDigit (h : NoDigit rest) : rest.takeWhile isDigit = [] := by
  cases rest with
  | nil => rfl
  | cons b rest => rw [List.takeWhile_cons, h b rfl]; rfl

theorem dropWhile_of_noDigit (h : NoDigit rest) : rest.dropWhile isDigit = rest := by
  cases rest with
  | nil => rfl
  | cons b rest => rw [List.dropWhile_cons, h b rfl]; rfl

theorem digitRun_append (h : Digits digits) (hrest : NoDigit rest) :
    digitRun (digits ++ rest) = digits.map fun b => b.toNat - 0x30 := by
  rw [digitRun, List.takeWhile_append_of_pos h.2, takeWhile_of_noDigit hrest, List.append_nil]

theorem afterDigits_append (h : Digits digits) (hrest : NoDigit rest) :
    afterDigits (digits ++ rest) = rest := by
  rw [afterDigits, List.dropWhile_append_of_pos h.2, dropWhile_of_noDigit hrest]

/-- A significand with an exponent that is added or taken off. -/
def withExponent (significand : Nat) (start : Int) (positive : Bool) (written : Nat) :
    Except Fault Float :=
  if written < 0x80000000 then
    scale significand (clampExponent (if positive then start + written else start - written))
  else if significand ≠ 0 ∧ positive then .error .numberOutOfRange
  else .ok 0.0

/-- The sign of an exponent tells whether its digits are added or taken off. -/
theorem exists_readExponent_signed {sign : Bytes}
    (hsign : sign = [] ∨ sign = [0x2B] ∨ sign = [0x2D]) {b : UInt8} (hb : isDigit b = true)
    (significand : Nat) (start : Int) :
    ∃ positive : Bool, ∀ tail : Bytes, readExponent significand start (sign ++ b :: tail) =
      (withExponent significand start positive (ofDigits (digitRun (b :: tail)))).map
        (·, afterDigits (b :: tail)) := by
  have hstop {positive : Bool} {written : Nat} {after : Bytes} :
      (if written < 0x80000000 then do
          let x ← scale significand
            (clampExponent (if positive then start + written else start - written))
          return (x, after)
        else if significand ≠ 0 ∧ positive then throw .numberOutOfRange
        else return (0.0, after)) =
        (withExponent significand start positive written).map (·, after) := by
    rw [withExponent]
    split
    · cases scale significand _ <;> rfl
    · split <;> rfl
  rcases hsign with rfl | rfl | rfl
  · refine ⟨true, fun tail => hstop ▸ ?_⟩
    rw [List.nil_append]
    unfold readExponent
    split
    rename_i positive bytes heq
    split at heq
    · rename_i hplus
      exact absurd (List.cons.inj hplus).1 (ne_of_isDigit hb (by decide))
    · rename_i hminus
      exact absurd (List.cons.inj hminus).1 (ne_of_isDigit hb (by decide))
    · obtain ⟨rfl, rfl⟩ := Prod.mk.inj heq
      simp only [hb, Bool.not_true, Bool.false_eq_true, if_false]
  · refine ⟨true, fun tail => hstop ▸ ?_⟩
    simp only [List.singleton_append, readExponent, hb, Bool.not_true, Bool.false_eq_true, if_false]
  · refine ⟨false, fun tail => hstop ▸ ?_⟩
    simp only [List.singleton_append, readExponent, hb, Bool.not_true, Bool.false_eq_true, if_false]

/-- An exponent is read to its end. -/
theorem exists_readExponent {sign : Bytes} (hsign : sign = [] ∨ sign = [0x2B] ∨ sign = [0x2D])
    (h : Digits digits) (significand : Nat) (start : Int) :
    ∃ r : Except Fault Float, ∀ rest, NoDigit rest →
      readExponent significand start (sign ++ (digits ++ rest)) = r.map (·, rest) := by
  obtain ⟨b, more, rfl⟩ := List.exists_cons_of_ne_nil h.1
  obtain ⟨positive, hsigned⟩ :=
    exists_readExponent_signed hsign (h.2 b List.mem_cons_self) significand start
  refine ⟨withExponent significand start positive
    (ofDigits ((b :: more).map fun b => b.toNat - 0x30)), fun rest hrest => ?_⟩
  rw [List.cons_append, hsigned, ← List.cons_append, digitRun_append h hrest,
    afterDigits_append h hrest]

/-- What stands behind the fraction of a number begins with no digit. -/
theorem IsExponent.noDigit_append {exponent : Bytes} (h : IsExponent exponent)
    (hrest : NoDigit rest) : NoDigit (exponent ++ rest) := by
  cases h with
  | absent => exact hrest
  | present he =>
    intro b hb
    obtain rfl := Option.some.inj hb
    rcases he with rfl | rfl <;> decide

theorem exists_readScaled {exponent : Bytes} (h : IsExponent exponent) (significand : Nat)
    (start : Int) : ∃ r : Except Fault Float, ∀ rest, Delimited rest →
      readScaled significand start (exponent ++ rest) = r.map (·, rest) := by
  cases h with
  | absent => exact ⟨scale significand start, fun rest hrest => readScaled_delimited hrest⟩
  | @present e sign digits he hsign hdigits =>
    obtain ⟨r, hr⟩ := exists_readExponent hsign hdigits significand start
    refine ⟨r, fun rest hrest => ?_⟩
    rw [← hr rest hrest.noDigit, ← List.append_assoc]
    rcases he with rfl | rfl
    · rfl
    · rfl

theorem exists_readFraction {exponent : Bytes} (h : Digits digits)
    (hexponent : IsExponent exponent) (significand : Nat) (start : Int) :
    ∃ r : Except Fault Float, ∀ rest, Delimited rest →
      readFraction significand start (digits ++ (exponent ++ rest)) = r.map (·, rest) := by
  obtain ⟨r, hr⟩ := exists_readScaled hexponent
    (absorb significand (digits.map fun b => b.toNat - 0x30)).1
    (start - (absorb significand (digits.map fun b => b.toNat - 0x30)).2)
  refine ⟨r, fun rest hrest => ?_⟩
  have hnodigit := hexponent.noDigit_append hrest.noDigit
  rw [readFraction, digitRun_append h hnodigit, afterDigits_append h hnodigit, ← hr rest hrest]
  obtain ⟨b, more, rfl⟩ := List.exists_cons_of_ne_nil h.1
  rfl

/-- What the reader sees of a number that begins with an integer part. -/
theorem IsWhole.start {whole : Bytes} (h : IsWhole whole) (hrest : NoDigit rest) :
    ∃ b tail, whole ++ rest = b :: tail ∧ isDigit b = true ∧
      (decide (b = 0x30) && tail.head?.any isDigit) = false ∧
      digitRun (b :: tail) = (whole.map fun b => b.toNat - 0x30) ∧
      afterDigits (b :: tail) = rest := by
  have hrun := digitRun_append h.1 hrest
  have hafter := afterDigits_append h.1 hrest
  obtain ⟨⟨hne, hdigits⟩, hzero⟩ := h
  obtain ⟨b, more, rfl⟩ := List.exists_cons_of_ne_nil hne
  refine ⟨b, more ++ rest, rfl, hdigits b List.mem_cons_self, ?_, hrun, hafter⟩
  by_cases hb : b = 0x30
  · obtain ⟨-, rfl⟩ := List.cons.inj (hzero (congrArg some hb))
    cases rest with
    | nil => simp
    | cons d rest => simp [hrest d rfl]
  · simp [hb]

/-- A number without fraction and exponent, from the digits that fit the significand and how many
do not. -/
def plainNumber (negative : Bool) (significand : Nat) (dropped : Int) : Except Fault Number :=
  if dropped ≠ 0 then (scale significand dropped).map (signedNumber negative)
  else if !negative then .ok (.integer significand)
  else if significand = 0 ∨ 0x8000000000000000 < significand then
    .ok (.real (-significand.toUInt64.toFloat))
  else .ok (.integer (-(significand : Int)))

/-- Where no digit is dropped, the significand is the number that the digits form. -/
theorem absorb_eq_foldl {digits : List Nat} {n : Nat} (h : digits.length ≤ (absorb n digits).2) :
    (absorb n digits).1 = digits.foldl (fun n d => n * 10 + d) n := by
  induction digits generalizing n with
  | nil => rfl
  | cons d digits ih =>
    rw [absorb] at h ⊢
    split at h
    · rename_i hfits
      rw [if_pos hfits, List.foldl_cons]
      exact ih (Nat.le_of_succ_le_succ h)
    · cases h

/-- What follows its integer part decides how a number goes on. -/
theorem exists_readNumber_behind {whole : Bytes} (h : IsWhole whole) (negative : Bool) :
    ∃ (significand : Nat) (dropped : Int),
      (dropped = 0 → significand = ofDigits (whole.map fun b => b.toNat - 0x30)) ∧
      (∀ more, readNumber negative (whole ++ 0x2E :: more) =
        (readFraction significand dropped more).map fun r => (signedNumber negative r.1, r.2)) ∧
      (∀ e more, e = 0x65 ∨ e = 0x45 → readNumber negative (whole ++ e :: more) =
        (readScaled significand dropped (e :: more)).map
          fun r => (signedNumber negative r.1, r.2)) ∧
      ∀ rest, Delimited rest → readNumber negative (whole ++ rest) =
        (plainNumber negative significand dropped).map (·, rest) := by
  obtain ⟨significand, hsignificand⟩ :
      ∃ n, n = (absorb 0 (whole.map fun b => b.toNat - 0x30)).1 := ⟨_, rfl⟩
  obtain ⟨dropped, hdropped⟩ : ∃ n : Int, n = (((whole.map fun b => b.toNat - 0x30).length -
    (absorb 0 (whole.map fun b => b.toNat - 0x30)).2 : Nat) : Int) := ⟨_, rfl⟩
  refine ⟨significand, dropped, fun hnone => ?_, fun more => ?_, fun e more he => ?_,
    fun rest hrest => ?_⟩
  · rw [hsignificand]
    exact absorb_eq_foldl (by omega)
  · obtain ⟨b, tail, hcons, hdigit, hlone, hrun, hafter⟩ :=
      h.start (by simp [NoDigit, isDigit] : NoDigit (0x2E :: more))
    rw [hcons, readNumber]
    simp only [hdigit, hlone, hrun, hafter, ← hsignificand, ← hdropped, Bool.not_true,
      Bool.false_eq_true, if_false]
    cases readFraction significand dropped more <;> rfl
  · obtain ⟨b, tail, hcons, hdigit, hlone, hrun, hafter⟩ :=
      h.start (by rcases he with rfl | rfl <;> simp [NoDigit, isDigit] : NoDigit (e :: more))
    rw [hcons, readNumber]
    rcases he with rfl | rfl
    all_goals
      simp only [hdigit, hlone, hrun, hafter, ← hsignificand, ← hdropped, Bool.not_true,
        Bool.false_eq_true, if_false]
      cases readScaled significand dropped _ <;> rfl
  · obtain ⟨b, tail, hcons, hdigit, hlone, hrun, hafter⟩ := h.start hrest.noDigit
    rw [hcons, readNumber]
    simp only [plainNumber, hdigit, hlone, hrun, hafter, ← hsignificand, ← hdropped, Bool.not_true,
      Bool.false_eq_true, if_false]
    split
    · exact absurd rfl (hrest _ rfl).2.1
    · exact absurd rfl (hrest _ rfl).2.2.1
    · exact absurd rfl (hrest _ rfl).2.2.2
    · split
      · cases scale significand dropped <;> rfl
      · split
        · rfl
        · split
          · rfl
          · rfl

/-- **A number is read to its end**, to the same outcome whatever follows. -/
theorem exists_readNumber {text : Bytes} (h : IsMagnitude text) (negative : Bool) :
    ∃ r : Except Fault Number, ∀ rest, Delimited rest →
      readNumber negative (text ++ rest) = r.map (·, rest) := by
  obtain ⟨hwhole, hfraction, hexponent⟩ := h
  obtain ⟨significand, dropped, -, hpoint, hscaled, hplain⟩ :=
    exists_readNumber_behind hwhole negative
  cases hfraction with
  | present hdigits =>
    obtain ⟨r, hr⟩ := exists_readFraction hdigits hexponent significand dropped
    refine ⟨r.map (signedNumber negative), fun rest hrest => ?_⟩
    rw [List.append_assoc, List.append_assoc, List.cons_append, hpoint, hr rest hrest]
    cases r <;> rfl
  | absent =>
    cases hexponent with
    | present he hsign hdigits =>
      obtain ⟨r, hr⟩ := exists_readScaled (.present he hsign hdigits) significand dropped
      refine ⟨r.map (signedNumber negative), fun rest hrest => ?_⟩
      rw [List.nil_append, List.append_assoc, List.cons_append, hscaled _ _ he,
        ← List.cons_append, hr rest hrest]
      cases r <;> rfl
    | absent =>
      refine ⟨plainNumber negative significand dropped, fun rest hrest => ?_⟩
      rw [List.append_nil, List.append_nil]
      exact hplain rest hrest

end Numbers

/-! ## §2 Strings -/

section Strings

variable {strict : Bool} {state : StrState} {b : UInt8} {text tail : Bytes}

/-- A fault in a step ends the reading. -/
theorem strFrom_of_error (hopen : state ≠ .plain ∨ b ≠ quoteOctet) {fault : Fault}
    (h : strStep strict state b = .error fault) :
    strFrom strict state (b :: tail) = .error fault := by
  rw [strFrom.eq_def]
  cases state with
  | plain =>
    have hquote : decide (b = quoteOctet) = false :=
      decide_eq_false (hopen.resolve_left (not_not_intro rfl))
    simp only [hquote, h]
  | _ => simp only [h]

/-- A text takes the reader of a string from a state to the closing quote that ends the text, or
to a fault, whatever follows. -/
def Closes (strict : Bool) (state : StrState) (text : Bytes) : Prop :=
  ∃ r : Except Fault Bytes, ∀ rest, strFrom strict state (text ++ rest) = r.map (·, rest)

/-- What closes the string from the next state closes it from this one. -/
theorem closes_cons (hopen : state ≠ .plain ∨ b ≠ quoteOctet)
    (h : ∀ next out, strStep strict state b = .ok (next, out) → Closes strict next tail) :
    Closes strict state (b :: tail) := by
  cases hstep : strStep strict state b with
  | error fault => exact ⟨.error fault, fun rest => strFrom_of_error hopen hstep⟩
  | ok step =>
    obtain ⟨next, out⟩ := step
    obtain ⟨r, hr⟩ := h next out hstep
    refine ⟨r.map (out ++ ·), fun rest => ?_⟩
    have hyields : strFrom strict state (b :: (tail ++ rest)) =
        yielding out (strFrom strict next (tail ++ rest)) := by
      by_cases hplain : state = .plain
      · subst hplain
        exact strFrom_plain (hopen.resolve_left (not_not_intro rfl)) hstep
      · exact strFrom_escape hplain hstep
    rw [List.cons_append, hyields, hr]
    cases r <;> rfl

/-- A state between two characters. -/
def Between (state : StrState) : Prop := state = .plain ∨ ∃ high, state = .pairBackslash high

/-- A finished escape leads to a state between two characters. -/
theorem between_of_finishHex {value first : Option Nat} {next : StrState} {out : Bytes}
    (h : finishHex strict value first = .ok (next, out)) : Between next := by
  unfold finishHex at h
  split at h
  · cases h
  · split at h
    · cases h
      exact .inl rfl
    · split at h
      · split at h
        · cases h
        · split at h
          · cases h
            exact .inr ⟨_, rfl⟩
          · cases h
            exact .inl rfl
      · split at h
        · cases h
        · cases h
          exact .inl rfl

/-- The four digits of an escape. -/
theorem closes_hex {c d e : UInt8} {value first : Option Nat}
    (h : ∀ next, Between next → Closes strict next tail) :
    Closes strict (.hex 4 value first) (b :: c :: d :: e :: tail) := by
  refine closes_cons (.inl (by simp)) fun next out hnext => ?_
  simp only [strStep, Nat.reduceLeDiff, if_false, Except.ok.injEq, Prod.mk.injEq] at hnext
  obtain ⟨rfl, -⟩ := hnext
  refine closes_cons (.inl (by simp)) fun next out hnext => ?_
  simp only [strStep, Nat.reduceSub, Nat.reduceLeDiff, if_false, Except.ok.injEq,
    Prod.mk.injEq] at hnext
  obtain ⟨rfl, -⟩ := hnext
  refine closes_cons (.inl (by simp)) fun next out hnext => ?_
  simp only [strStep, Nat.reduceSub, Nat.reduceLeDiff, if_false, Except.ok.injEq,
    Prod.mk.injEq] at hnext
  obtain ⟨rfl, -⟩ := hnext
  refine closes_cons (.inl (by simp)) fun next out hnext => h next ?_
  simp only [strStep, Nat.reduceSub, Nat.le_refl, if_true] at hnext
  exact between_of_finishHex hnext

/-- **The inside of a string is read up to the closing quote.** The first half of a pair asks for
an escape next, so any other character is a fault there. -/
theorem closes_inside {inside : Bytes} (h : IsInside inside) :
    ∀ state, Between state → Closes true state (inside ++ [quoteOctet]) := by
  induction h with
  | nil =>
    rintro state (rfl | ⟨high, rfl⟩)
    · exact ⟨.ok [], fun rest => rfl⟩
    · exact closes_cons (.inl (by simp)) fun next out hnext => by cases hnext
  | @plain b rest hquote hbackslash hcontrol h ih =>
    rintro state (rfl | ⟨high, rfl⟩)
    · refine closes_cons (.inr hquote) fun next out hnext => ih next ?_
      rw [strStep, if_neg hbackslash, if_neg hcontrol] at hnext
      cases hnext
      exact .inl rfl
    · refine closes_cons (.inl (by simp)) fun next out hnext => ?_
      rw [strStep, if_neg hbackslash] at hnext
      cases hnext
  | @letter c rest hc h ih =>
    obtain ⟨d, hd⟩ := Option.isSome_iff_exists.mp hc
    rintro state (rfl | ⟨high, rfl⟩)
    · refine closes_cons (.inr (by decide)) fun next out hnext => ?_
      cases hnext
      refine closes_cons (.inl (by simp)) fun next out hnext => ih next ?_
      rw [strStep, hd] at hnext
      cases hnext
      exact .inl rfl
    · refine closes_cons (.inl (by simp)) fun next out hnext => ?_
      cases hnext
      refine closes_cons (.inl (by simp)) fun next out hnext => ?_
      have hu : c ≠ 0x75 := by
        rintro rfl
        cases hd
      rw [strStep, if_neg hu] at hnext
      cases hnext
  | hex _ _ _ _ h ih =>
    rintro state (rfl | ⟨high, rfl⟩)
    · refine closes_cons (.inr (by decide)) fun next out hnext => ?_
      cases hnext
      refine closes_cons (.inl (by simp)) fun next out hnext => ?_
      cases hnext
      exact closes_hex ih
    · refine closes_cons (.inl (by simp)) fun next out hnext => ?_
      cases hnext
      refine closes_cons (.inl (by simp)) fun next out hnext => ?_
      cases hnext
      exact closes_hex ih

/-- **A string is read to its end**, to the same outcome whatever follows. -/
theorem exists_readStr {inside : Bytes} (h : IsInside inside) :
    ∃ r : Except Fault Bytes, ∀ rest,
      readStr (inside ++ quoteOctet :: rest) = r.map (·, rest) := by
  obtain ⟨r, hr⟩ := closes_inside h .plain (.inl rfl)
  refine ⟨r.bind fun content =>
    if Utf8.isValid content then .ok content else .error .invalidCodePoint, fun rest => ?_⟩
  have hr := hr rest
  rw [List.append_assoc, List.singleton_append] at hr
  rw [readStr, hr]
  cases r with
  | error fault => rfl
  | ok content =>
    simp only [Except.map, Except.bind]
    split
    · rfl
    · rfl

end Strings

/-! ## §3 Readers -/

section Readers

variable {α β : Type} {reader : Reader α} {value : Bytes}

theorem toOption_ok {ε : Type} (a : α) : (Except.ok a : Except ε α).toOption = some a := rfl

theorem toOption_error {ε : Type} (e : ε) : (Except.error e : Except ε α).toOption = none := rfl

theorem toOption_eq_some_iff {ε : Type} {x : Except ε α} {a : α} :
    x.toOption = some a ↔ x = .ok a := by
  cases x <;> simp [Except.toOption]

theorem toOption_bind {ε : Type} (x : Except ε α) (f : α → Except ε β) :
    (x.bind f).toOption = x.toOption.bind fun a => (f a).toOption := by
  cases x <;> rfl

theorem toOption_map {ε : Type} (x : Except ε α) (f : α → β) :
    (x.map f).toOption = x.toOption.map f := by
  cases x <;> rfl

/-- A reader takes a value or refuses it, and stops at its end, whatever follows. -/
def StopsAfter (reader : Reader α) (value : Bytes) : Prop :=
  ∃ r : Option α, ∀ rest, Delimited rest → (reader (value ++ rest)).toOption = r.map (·, rest)

theorem StopsAfter.of_error (h : ∀ rest, ∃ fault, reader (value ++ rest) = .error fault) :
    StopsAfter reader value := by
  refine ⟨none, fun rest _ => ?_⟩
  obtain ⟨fault, hfault⟩ := h rest
  rw [hfault]
  rfl

/-- A reader that goes on from what another one took stops where that one does. -/
theorem StopsAfter.bind {reader' : Reader β} (h : StopsAfter reader value) (g : α → Option β)
    (hreader : ∀ bytes, (reader' bytes).toOption =
      (reader bytes).toOption.bind fun r => (g r.1).map (·, r.2)) : StopsAfter reader' value := by
  obtain ⟨r, hr⟩ := h
  refine ⟨r.bind g, fun rest hrest => ?_⟩
  rw [hreader, hr rest hrest]
  cases r <;> rfl

/-- A reader that is not led astray by JSON: blanks in front do not matter, and a value is taken
or refused as a whole. -/
structure Steady (reader : Reader α) : Prop where
  skips : ∀ {lead : Bytes}, Blank lead → ∀ bytes, reader (lead ++ bytes) = reader bytes
  stops : ∀ {value : Bytes}, IsValue value → StopsAfter reader value

theorem Steady.map (h : Steady reader) (g : α → β) :
    Steady fun bytes => (reader bytes).map fun r => (g r.1, r.2) where
  skips hlead bytes := by rw [h.skips hlead]
  stops hvalue := by
    refine (h.stops hvalue).bind (fun a => some (g a)) fun bytes => ?_
    cases reader bytes <;> rfl

theorem toOption_readWhole (reader : Reader α) (bytes : Bytes) :
    (readWhole reader bytes).toOption =
      (reader bytes).toOption.bind fun r => if skipSpace r.2 = [] then some r.1 else none := by
  rw [readWhole]
  cases reader bytes with
  | error fault => rfl
  | ok r => cases hend : skipSpace r.2 <;> simp [Except.toOption, hend]

theorem toOption_readWhole_map (reader : Reader α) (g : α → β) (text : Bytes) :
    (readWhole (fun bytes => (reader bytes).map fun r => (g r.1, r.2)) text).toOption =
      (readWhole reader text).toOption.map g := by
  rw [toOption_readWhole, toOption_readWhole]
  cases reader text with
  | error fault => rfl
  | ok r =>
    simp only [Except.map, toOption_ok, Option.bind_some]
    split
    · rfl
    · rfl

/-- A whole text is a value between blanks. -/
theorem Steady.readWhole_eq_ok_iff (h : Steady reader) {lead rest : Bytes} {x : Option α}
    (hlead : Blank lead) (hvalue : (reader (value ++ rest)).toOption = x.map (·, rest)) (a : α) :
    readWhole reader (lead ++ (value ++ rest)) = .ok a ↔ Blank rest ∧ x = some a := by
  rw [← toOption_eq_some_iff, toOption_readWhole, h.skips hlead, hvalue, ← skipSpace_eq_nil_iff]
  cases x with
  | none => simp
  | some b => by_cases hrest : skipSpace rest = [] <;> simp [hrest]

/-- **In front of something else a value is read as by itself**, up to the blanks behind it. -/
theorem IsElement.exists_trail {text : Bytes} (h : IsElement text) :
    ∃ trail, Blank trail ∧ ∀ {α : Type} {reader : Reader α}, Steady reader →
      ∀ rest, Delimited rest → (reader (text ++ rest)).toOption =
        (readWhole reader text).toOption.map (·, trail ++ rest) := by
  obtain ⟨hlead, htrail, hvalue⟩ := h
  rename_i lead value trail
  refine ⟨trail, htrail, fun {_ reader} hsteady rest hrest => ?_⟩
  obtain ⟨r, hr⟩ := hsteady.stops hvalue
  have halone := hr trail (by simpa using htrail.delimited_append delimited_nil)
  have hmore := hr (trail ++ rest) (htrail.delimited_append hrest)
  rw [toOption_readWhole, List.append_assoc, List.append_assoc, hsteady.skips hlead,
    hsteady.skips hlead, hmore, halone]
  cases r with
  | none => rfl
  | some a => simp [skipSpace_eq_nil_iff.mpr htrail]

end Readers

/-! ## §4 Scalars -/

section Scalars

variable {expected : String} {b : UInt8} {rest : Bytes}

theorem number_of_head (hspace : isSpace b = false) (hminus : b ≠ 0x2D)
    (hdigit : isDigit b = false) :
    number expected (b :: rest) = .error (unwanted expected (b :: rest)) := by
  rw [number, skipSpace_cons hspace]
  simp only [if_neg hminus, hdigit, Bool.false_eq_true, if_false]

theorem string_of_head (hspace : isSpace b = false) (hquote : b ≠ quoteOctet) :
    string expected (b :: rest) = .error (unwanted expected (b :: rest)) := by
  rw [string, skipSpace_cons hspace]
  simp only [if_neg hquote]

theorem unit_of_head (hspace : isSpace b = false) (hn : b ≠ 0x6E) :
    unit (b :: rest) = .error (unwanted "unit" (b :: rest)) := by
  rw [unit, skipSpace_cons hspace]
  simp only [if_neg hn]

theorem steady_number (expected : String) : Steady (number expected) where
  skips hlead bytes := by rw [number, number, skipSpace_blank_append hlead]
  stops hvalue := by
    cases hvalue with
    | positive h =>
      obtain ⟨r, hr⟩ := exists_readNumber h false
      obtain ⟨b, more, rfl, hb⟩ := h.exists_head
      have hminus : b ≠ 0x2D := ne_of_isDigit hb (by decide)
      refine ⟨r.toOption, fun rest hrest => ?_⟩
      have hr := hr rest hrest
      rw [List.cons_append] at hr ⊢
      rw [number, skipSpace_cons (isSpace_of_isDigit hb)]
      simp only [if_neg hminus, hb, if_true, hr, toOption_map]
    | negative h =>
      obtain ⟨r, hr⟩ := exists_readNumber h true
      refine ⟨r.toOption, fun rest hrest => ?_⟩
      rw [List.cons_append, number, skipSpace_cons (by decide)]
      simp only [if_true, hr rest hrest, toOption_map]
    | _ => exact .of_error fun rest => ⟨_, number_of_head (by decide) (by decide) (by decide)⟩

/-- The whole number below `2^width` that a number is. -/
def Number.natural? (width : Nat) : Number → Option Nat
  | .integer n => if 0 ≤ n ∧ n < (Nat.pow 2 width : Int) then some n.toNat else none
  | .real _ => none

/-- The double that a number is. -/
def Number.toFloat : Number → Float
  | .integer n => Float.ofInt n
  | .real x => x

/-- A whole number is read as a number first. -/
theorem toOption_natural (width : Nat) (bytes : Bytes) : (natural width bytes).toOption =
    (number s!"u{width}" bytes).toOption.bind fun r => (r.1.natural? width).map (·, r.2) := by
  rw [natural]
  cases number s!"u{width}" bytes with
  | error fault => rfl
  | ok r =>
    obtain ⟨n | x, rest⟩ := r
    · rw [toOption_ok, Option.bind_some, Number.natural?]
      by_cases hfits : 0 ≤ n ∧ n < (Nat.pow 2 width : Int)
      · simp only [if_pos hfits, toOption_ok, Option.map_some]
      · simp only [if_neg hfits, toOption_error, Option.map_none]
    · rfl

theorem steady_natural (width : Nat) : Steady (natural width) where
  skips hlead bytes := by rw [natural, natural, (steady_number _).skips hlead]
  stops hvalue := ((steady_number s!"u{width}").stops hvalue).bind (Number.natural? width)
    (toOption_natural width)

theorem steady_float : Steady float where
  skips hlead bytes := by rw [float, float, (steady_number _).skips hlead]
  stops hvalue := by
    refine ((steady_number "f64").stops hvalue).bind (fun n => some n.toFloat) fun bytes => ?_
    rw [float]
    cases number "f64" bytes with
    | error fault => rfl
    | ok r => obtain ⟨n | x, rest⟩ := r <;> rfl

theorem string_stringText {inside : Bytes} {r : Except Fault Bytes}
    (h : ∀ rest, readStr (inside ++ quoteOctet :: rest) = r.map (·, rest)) (rest : Bytes) :
    string expected (stringText inside ++ rest) = r.map (·, rest) := by
  rw [stringText, List.cons_append, List.append_assoc, List.singleton_append, string,
    skipSpace_cons (by decide)]
  simp only [if_true, h rest]

theorem steady_string (expected : String) : Steady (string expected) where
  skips hlead bytes := by rw [string, string, skipSpace_blank_append hlead]
  stops hvalue := by
    cases hvalue with
    | string h =>
      obtain ⟨r, hr⟩ := exists_readStr h
      exact ⟨r.toOption, fun rest _ => by rw [string_stringText hr, toOption_map]⟩
    | positive h =>
      obtain ⟨b, more, rfl, hb⟩ := h.exists_head
      exact .of_error fun rest =>
        ⟨_, string_of_head (isSpace_of_isDigit hb) (ne_of_isDigit hb (by decide))⟩
    | _ => exact .of_error fun rest => ⟨_, string_of_head (by decide) (by decide)⟩

theorem steady_unit : Steady unit where
  skips hlead bytes := by rw [unit, unit, skipSpace_blank_append hlead]
  stops hvalue := by
    cases hvalue with
    | null => exact ⟨some (), fun rest _ => rfl⟩
    | positive h =>
      obtain ⟨b, more, rfl, hb⟩ := h.exists_head
      exact .of_error fun rest =>
        ⟨_, unit_of_head (isSpace_of_isDigit hb) (ne_of_isDigit hb (by decide))⟩
    | _ => exact .of_error fun rest => ⟨_, unit_of_head (by decide) (by decide)⟩

end Scalars

end HueCycle.Json
