/-
HueCycle.Proofs.Json.Integers — which texts are a whole number of a width.

There is one numeral for each number: no zero in front of other digits, no
fraction and no exponent (`writeNatural_ofDigits`). The reader goes through a
double where digits do not fit 64 bits and gives up the number there, so what
it does give is the number that the digits form (`exists_whole`). Main
statements: `readWhole_natural_eq_ok_iff`, and `IsUnfit.not_isNatural` for the
texts that are refused.
-/
import Mathlib
import HueCycle.Proofs.Json.Steady

namespace HueCycle.Json

/-! ## §1 Numerals -/

section Numerals

variable {b : UInt8} {n : Nat} {whole rest : Bytes}

theorem toNat_of_isDigit (h : isDigit b = true) : 0x30 ≤ b.toNat ∧ b.toNat ≤ 0x39 := by
  simp only [isDigit, Bool.and_eq_true, decide_eq_true_eq] at h
  exact ⟨UInt8.le_iff_toNat_le.mp h.1, UInt8.le_iff_toNat_le.mp h.2⟩

theorem writeNatural_digit (h : isDigit b = true) : writeNatural (b.toNat - 0x30) = [b] := by
  obtain ⟨hlow, hhigh⟩ := toNat_of_isDigit h
  obtain ⟨d, hd⟩ : ∃ d, b = UInt8.ofNat (0x30 + d) ∧ d < 10 :=
    ⟨b.toNat - 0x30, by rw [Nat.add_sub_cancel' hlow, UInt8.ofNat_toNat], by omega⟩
  obtain ⟨rfl, hd⟩ := hd
  interval_cases d <;> decide

theorem writeNatural_append_digit (hn : 0 < n) (h : isDigit b = true) :
    writeNatural (n * 10 + (b.toNat - 0x30)) = writeNatural n ++ [b] := by
  obtain ⟨hlow, hhigh⟩ := toNat_of_isDigit h
  have hdigits : Decimal.digits (n * 10 + (b.toNat - 0x30)) =
      Decimal.digits n ++ Decimal.digits (b.toNat - 0x30) := by
    rw [Nat.mul_comm]
    exact (Nat.toDigits_append_toDigits (by decide) hn (by omega)).symm
  rw [writeNatural, hdigits, List.flatMap_append, ← writeNatural, ← writeNatural,
    writeNatural_digit h]

/-- Digits behind a number that is not zero. -/
theorem writeNatural_append_digits {digits : Bytes} (h : ∀ b ∈ digits, isDigit b = true)
    (hn : 0 < n) : writeNatural n ++ digits =
      writeNatural ((digits.map fun b => b.toNat - 0x30).foldl (fun n d => n * 10 + d) n) := by
  induction digits generalizing n with
  | nil => rw [List.append_nil, List.map_nil, List.foldl_nil]
  | cons b digits ih =>
    rw [List.map_cons, List.foldl_cons, ← ih (fun b hb => h b (List.mem_cons_of_mem _ hb)) (by omega),
      writeNatural_append_digit hn (h b List.mem_cons_self), List.append_assoc,
      List.singleton_append]

theorem noDigit_nil : NoDigit [] := by simp [NoDigit]

theorem IsWhole.digitRun_eq (h : IsWhole whole) :
    digitRun whole = whole.map fun b => b.toNat - 0x30 := by
  have hrun := digitRun_append h.1 noDigit_nil
  rwa [List.append_nil] at hrun

/-- **A number has one numeral**, the one that is written. -/
theorem writeNatural_ofDigits (h : IsWhole whole) :
    writeNatural (ofDigits (digitRun whole)) = whole := by
  rw [h.digitRun_eq]
  obtain ⟨⟨hne, hdigits⟩, hzero⟩ := h
  obtain ⟨b, more, rfl⟩ := List.exists_cons_of_ne_nil hne
  have hb : isDigit b = true := hdigits b List.mem_cons_self
  obtain ⟨hlow, hhigh⟩ := toNat_of_isDigit hb
  by_cases hb0 : b = 0x30
  · rw [hzero (congrArg some hb0)]
    rfl
  · have hpos : 0 < b.toNat - 0x30 := by
      have hne : b.toNat ≠ 0x30 := fun h => hb0 (UInt8.toNat_inj.mp h)
      omega
    rw [ofDigits, List.map_cons, List.foldl_cons, Nat.zero_mul, Nat.zero_add,
      ← writeNatural_append_digits (fun c hc => hdigits c (List.mem_cons_of_mem _ hc)) hpos,
      writeNatural_digit hb, List.singleton_append]

theorem digitRun_writeNatural (n : Nat) (hrest : NoDigit rest) :
    ofDigits (digitRun (writeNatural n ++ rest)) = n := by
  rw [writeNatural, ← octets, digitRun_octets (allDigits_digits n) hrest, ofDigits_map,
    digitsValue_digits]

theorem afterDigits_writeNatural (n : Nat) (hrest : NoDigit rest) :
    afterDigits (writeNatural n ++ rest) = rest := by
  rw [writeNatural, ← octets, afterDigits_octets (allDigits_digits n) hrest]

theorem exists_writeNatural (n : Nat) : ∃ b more, writeNatural n = b :: more ∧ isDigit b = true := by
  obtain ⟨c, cs, hcs⟩ := List.exists_cons_of_ne_nil (digits_ne_nil n)
  obtain ⟨b, hb, hdigit, -⟩ :=
    octets_cons_of_isDigit (allDigits_digits n c (hcs ▸ List.mem_cons_self)) cs []
  rw [List.append_nil, List.append_nil] at hb
  exact ⟨b, octets cs, by rw [writeNatural, hcs, ← octets, hb], hdigit⟩

/-- What is written is the integer part of a number. -/
theorem isWhole_writeNatural (n : Nat) : IsWhole (writeNatural n) := by
  refine ⟨⟨?_, fun b hb => ?_⟩, fun hzero => ?_⟩
  · obtain ⟨b, more, hcons, -⟩ := exists_writeNatural n
    exact hcons ▸ List.cons_ne_nil b more
  · obtain ⟨c, hc, hb⟩ := List.mem_flatMap.mp hb
    obtain ⟨d, hd, hdigit, -⟩ := octet_of_isDigit (allDigits_digits n c hc)
    rw [hd, List.mem_singleton] at hb
    exact hb ▸ hdigit
  · rcases Nat.eq_zero_or_pos n with rfl | hn
    · rfl
    · obtain ⟨c, cs, hcs⟩ := List.exists_cons_of_ne_nil (digits_ne_nil n)
      obtain ⟨b, hb, -, -, hhead⟩ :=
        octets_cons_of_isDigit (allDigits_digits n c (hcs ▸ List.mem_cons_self)) cs []
      rw [writeNatural, hcs, ← octets, ← List.append_nil (octets _), hb] at hzero
      exact absurd (congrArg List.head? hcs) (by
        rw [List.head?_cons, hhead (Option.some.inj hzero)]
        exact head?_digits_ne hn)

end Numerals

/-! ## §2 Reading -/

section Reading

variable {bytes whole rest : Bytes} {negative : Bool} {k : Int}

/-- A text that begins as a number does. -/
theorem exists_isWhole {b : UInt8} {tail : Bytes} (hdigit : isDigit b = true)
    (hlone : (decide (b = 0x30) && tail.head?.any isDigit) = false) :
    ∃ whole after, IsWhole whole ∧ b :: tail = whole ++ after ∧ NoDigit after := by
  refine ⟨(b :: tail).takeWhile isDigit, (b :: tail).dropWhile isDigit, ⟨⟨?_, ?_⟩, ?_⟩,
    List.takeWhile_append_dropWhile.symm, fun c hc => ?_⟩
  · rw [List.takeWhile_cons_of_pos hdigit]
    exact List.cons_ne_nil _ _
  · exact fun c hc => List.mem_takeWhile_imp hc
  · intro hzero
    rw [List.takeWhile_cons_of_pos hdigit] at hzero ⊢
    obtain rfl := Option.some.inj hzero
    cases tail with
    | nil => rfl
    | cons c tail =>
      have hc : ¬ isDigit c = true := by simpa using hlone
      rw [List.takeWhile_cons_of_neg hc]
  · have hnot := List.head?_dropWhile_not isDigit (b :: tail)
    rw [Option.mem_def.mp hc] at hnot
    simpa using hnot

/-- A plain number that is an integer is the one that its digits form, with its sign. -/
theorem plainNumber_eq_integer {significand : Nat} {dropped : Int}
    (h : plainNumber negative significand dropped = .ok (.integer k)) :
    dropped = 0 ∧ if negative then k < 0 else k = significand := by
  unfold plainNumber at h
  split at h
  · cases hscale : scale significand dropped with
    | error fault => rw [hscale] at h; cases h
    | ok x => rw [hscale] at h; cases h
  · rename_i hnone
    refine ⟨not_not.mp hnone, ?_⟩
    split at h
    · rename_i hpositive
      cases h
      simp_all
    · rename_i hnegative
      split at h
      · cases h
      · rename_i hfits
        cases h
        simp only [Bool.not_eq_true, Bool.not_eq_false'] at hnegative
        rw [if_pos hnegative]
        omega

/-- Behind digits a point or an exponent follows, or what cannot be part of a number. -/
theorem NoDigit.goes_on {after : Bytes} (h : NoDigit after) :
    Delimited after ∨ (∃ more, after = 0x2E :: more) ∨
      ∃ e more, (e = 0x65 ∨ e = 0x45) ∧ after = e :: more := by
  cases after with
  | nil => exact .inl delimited_nil
  | cons c more =>
    by_cases hpoint : c = 0x2E
    · exact .inr (.inl ⟨more, by rw [hpoint]⟩)
    · by_cases he : c = 0x65 ∨ c = 0x45
      · exact .inr (.inr ⟨c, more, he, rfl⟩)
      · rw [not_or] at he
        refine .inl fun d hd => ?_
        obtain rfl := Option.some.inj hd
        exact ⟨h _ rfl, hpoint, he.1, he.2⟩

/-- **An integer is read from its digits alone**, and stops where they do. -/
theorem exists_whole (h : readNumber negative bytes = .ok (.integer k, rest)) :
    ∃ whole, IsWhole whole ∧ bytes = whole ++ rest ∧ Delimited rest ∧
      if negative then k < 0 else k = ofDigits (digitRun whole) := by
  obtain ⟨b, tail, rfl⟩ : ∃ b tail, bytes = b :: tail := by
    cases bytes with
    | nil => cases h
    | cons b tail => exact ⟨b, tail, rfl⟩
  have hdigit : isDigit b = true := by
    by_contra hno
    have hfault : readNumber negative (b :: tail) = .error .invalidNumber := by
      simp only [readNumber, Bool.eq_false_of_not_eq_true hno, Bool.not_false, if_true]
      rfl
    rw [hfault] at h
    cases h
  have hlone : (decide (b = 0x30) && tail.head?.any isDigit) = false := by
    by_contra hno
    have hfault : readNumber negative (b :: tail) = .error .invalidNumber := by
      simp only [readNumber, hdigit, Bool.eq_true_of_not_eq_false hno, Bool.not_true,
        Bool.false_eq_true, if_false, if_true]
      rfl
    rw [hfault] at h
    cases h
  obtain ⟨whole, after, hwhole, hbytes, hafter⟩ := exists_isWhole hdigit hlone
  obtain ⟨significand, dropped, hsignificand, hpoint, hscaled, hplain⟩ :=
    exists_readNumber_behind hwhole negative
  -- a fraction and an exponent each make a double
  have hreal {r : Except Fault (Float × Bytes)} :
      (r.map fun r => (signedNumber negative r.1, r.2)) ≠ .ok (.integer k, rest) := by
    intro hr
    cases r <;> cases hr
  rw [hbytes] at h ⊢
  rcases hafter.goes_on with hdelimited | ⟨more, rfl⟩ | ⟨e, more, he, rfl⟩
  · rw [hplain after hdelimited] at h
    cases hr : plainNumber negative significand dropped with
    | error fault =>
      rw [hr] at h
      cases h
    | ok number =>
      rw [hr] at h
      cases h
      obtain ⟨hnone, hk⟩ := plainNumber_eq_integer hr
      refine ⟨whole, hwhole, rfl, hdelimited, ?_⟩
      rwa [hwhole.digitRun_eq, ← hsignificand hnone]
  · rw [hpoint] at h
    exact absurd h hreal
  · rw [hscaled e more he] at h
    exact absurd h hreal

/-- A number is read behind blanks and, where there is one, its minus. -/
theorem exists_readNumber_of_number {expected : String} {n : Number}
    (h : number expected bytes = .ok (n, rest)) :
    readNumber false (skipSpace bytes) = .ok (n, rest) ∨
      ∃ more, readNumber true more = .ok (n, rest) := by
  rw [number] at h
  split at h
  · cases h
  · rename_i b more hskip
    split at h
    · exact .inr ⟨more, h⟩
    · split at h
      · exact .inl (hskip ▸ h)
      · cases h

/-- What is read as a whole number stands behind blanks and begins with its digits. -/
theorem exists_whole_of_natural {width n : Nat} (h : natural width bytes = .ok (n, rest)) :
    n < 2 ^ width ∧ ∃ whole, IsWhole whole ∧ skipSpace bytes = whole ++ rest ∧
      ofDigits (digitRun whole) = n := by
  rw [← toOption_eq_some_iff, toOption_natural, Option.bind_eq_some_iff] at h
  obtain ⟨⟨number, after⟩, hnumber, hn⟩ := h
  obtain ⟨m, hm, hsame⟩ := Option.map_eq_some_iff.mp hn
  obtain ⟨rfl, rfl⟩ := Prod.mk.inj hsame
  obtain ⟨k, rfl, hlow, hhigh, rfl⟩ : ∃ k : Int, number = .integer k ∧ 0 ≤ k ∧
      k < (Nat.pow 2 width : Int) ∧ k.toNat = m := by
    cases number with
    | real x => cases hm
    | integer k =>
      rw [Number.natural?] at hm
      split at hm
      · rename_i hfits
        exact ⟨k, rfl, hfits.1, hfits.2, Option.some.inj hm⟩
      · cases hm
  refine ⟨(Int.toNat_lt hlow).mpr hhigh, ?_⟩
  rcases exists_readNumber_of_number (toOption_eq_some_iff.mp hnumber) with hread | ⟨more, hread⟩
  · obtain ⟨whole, hwhole, hbytes, -, hvalue⟩ := exists_whole hread
    rw [if_neg (by decide)] at hvalue
    exact ⟨whole, hwhole, hbytes, by rw [hvalue, Int.toNat_natCast]⟩
  · obtain ⟨_, _, _, _, hnegative⟩ := exists_whole hread
    rw [if_pos rfl] at hnegative
    omega

end Reading

/-! ## §3 Whole numbers of a width -/

section Widths

variable {width n : Nat} {text : Bytes}

/-- A text with blanks around it. -/
def Padded (inner text : Bytes) : Prop :=
  ∃ lead trail, Blank lead ∧ Blank trail ∧ text = lead ++ (inner ++ trail)

/-- A text states a number below `2^width`. -/
def IsNatural (width n : Nat) (text : Bytes) : Prop :=
  n < 2 ^ width ∧ Padded (writeNatural n) text

theorem IsNatural.isElement (h : IsNatural width n text) : IsElement text := by
  obtain ⟨-, lead, trail, hlead, htrail, rfl⟩ := h
  exact .mk hlead htrail (.positive (isWhole_writeNatural n).isMagnitude)

/-- **Which texts are read as a whole number**: its numeral, between blanks. -/
theorem readWhole_natural_eq_ok_iff (hwidth : width ≤ 64) :
    readWhole (natural width) text = .ok n ↔ IsNatural width n text := by
  rw [← toOption_eq_some_iff, toOption_readWhole, Option.bind_eq_some_iff]
  constructor
  · rintro ⟨⟨m, rest⟩, hread, hend⟩
    obtain ⟨hblank, rfl⟩ : Blank rest ∧ m = n := by
      dsimp only at hend
      split at hend
      · rename_i hnil
        exact ⟨skipSpace_eq_nil_iff.mp hnil, Option.some.inj hend⟩
      · cases hend
    obtain ⟨hm, whole, hwhole, hskip, rfl⟩ :=
      exists_whole_of_natural (toOption_eq_some_iff.mp hread)
    refine ⟨hm, text.takeWhile isSpace, rest, fun b hb => List.mem_takeWhile_imp hb, hblank, ?_⟩
    rw [writeNatural_ofDigits hwhole, ← hskip]
    exact List.takeWhile_append_dropWhile.symm
  · rintro ⟨hn, lead, trail, hlead, htrail, rfl⟩
    refine ⟨(n, trail), ?_, if_pos (skipSpace_eq_nil_iff.mpr htrail)⟩
    have htrail : Delimited trail := by simpa using htrail.delimited_append delimited_nil
    rw [(steady_natural width).skips hlead, natural_writeNatural hwidth hn htrail]
    rfl

/-- An integer that is too large for a width or negative, or a number with a fraction or an
exponent. -/
inductive IsUnfit (width : Nat) : Bytes → Prop
  | large {whole : Bytes} (h : IsWhole whole) (hlarge : 2 ^ width ≤ ofDigits (digitRun whole)) :
      IsUnfit width whole
  | negative {magnitude : Bytes} (h : IsMagnitude magnitude) : IsUnfit width (0x2D :: magnitude)
  | fractional {whole fraction exponent : Bytes} (h : IsWhole whole) (hfraction : IsFraction fraction)
      (hexponent : IsExponent exponent) (hmore : fraction ++ exponent ≠ []) :
      IsUnfit width (whole ++ (fraction ++ exponent))

/-- Behind blanks a whole number is given by its digits, and only blanks stand behind these. -/
theorem IsNatural.digitRun_eq {number lead trail : Bytes} {b : UInt8} {more : Bytes}
    (h : IsNatural width n (lead ++ (number ++ trail))) (hlead : Blank lead)
    (hnumber : number = b :: more) (hspace : isSpace b = false) :
    isDigit b = true ∧ ofDigits (digitRun (number ++ trail)) = n ∧
      Blank (afterDigits (number ++ trail)) := by
  obtain ⟨-, lead', trail', hlead', htrail', htext⟩ := h
  obtain ⟨c, digits, hwritten, hdigit⟩ := exists_writeNatural n
  have hskip := congrArg skipSpace htext
  rw [hnumber, hwritten, List.cons_append, List.cons_append, skipSpace_blank_cons hlead hspace,
    skipSpace_blank_cons hlead' (isSpace_of_isDigit hdigit), ← List.cons_append, ← List.cons_append,
    ← hnumber, ← hwritten] at hskip
  have hrest : NoDigit trail' := by
    simpa using (htrail'.delimited_append delimited_nil).noDigit
  refine ⟨?_, ?_, ?_⟩
  · rw [hnumber, hwritten] at hskip
    rwa [(List.cons.inj hskip).1]
  · rw [hskip, digitRun_writeNatural n hrest]
  · rwa [hskip, afterDigits_writeNatural n hrest]

/-- **What does not fit is no whole number of the width.** -/
theorem IsUnfit.not_isNatural {number : Bytes} (h : IsUnfit width number)
    (htext : Padded number text) : ¬ IsNatural width n text := by
  intro hnatural
  have hn := hnatural.1
  obtain ⟨lead, trail, hlead, htrail, rfl⟩ := htext
  have hafter : NoDigit trail := by simpa using (htrail.delimited_append delimited_nil).noDigit
  cases h with
  | large hwhole hlarge =>
    obtain ⟨b, more, hnumber, hb⟩ := hwhole.isMagnitude.exists_head
    obtain ⟨-, hvalue, -⟩ := hnatural.digitRun_eq hlead hnumber (isSpace_of_isDigit hb)
    rw [digitRun_append hwhole.1 hafter, ← hwhole.digitRun_eq] at hvalue
    omega
  | negative hmagnitude =>
    obtain ⟨hminus, -⟩ := hnatural.digitRun_eq hlead rfl (by decide)
    cases hminus
  | @fractional whole fraction exponent hwhole hfraction hexponent hmore =>
    obtain ⟨b, more, hnumber, hb⟩ := (IsMagnitude.mk hwhole hfraction hexponent).exists_head
    obtain ⟨-, -, hblank⟩ := hnatural.digitRun_eq hlead hnumber (isSpace_of_isDigit hb)
    obtain ⟨c, later, hlater, hc, hspace⟩ : ∃ c later, fraction ++ exponent ++ trail = c :: later ∧
        isDigit c = false ∧ isSpace c = false := by
      cases hfraction with
      | present _ => exact ⟨_, _, rfl, by decide, by decide⟩
      | absent =>
        cases hexponent with
        | present he _ _ =>
          refine ⟨_, _, rfl, ?_⟩
          rcases he with rfl | rfl <;> decide
        | absent => exact absurd rfl hmore
    have hbehind : NoDigit (c :: later) := by
      intro d hd
      obtain rfl := Option.some.inj hd
      exact hc
    rw [List.append_assoc, hlater, afterDigits_append hwhole.1 hbehind] at hblank
    exact absurd (hblank c List.mem_cons_self) (by simp [hspace])

/-- The first number that does not fit 16 bits. -/
example : IsUnfit 16 (Utf8.encode "65536") :=
  .large (by decide +kernel) (by decide +kernel)

end Widths

end HueCycle.Json
