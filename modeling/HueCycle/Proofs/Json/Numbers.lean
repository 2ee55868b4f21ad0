/-
HueCycle.Proofs.Json.Numbers — reading back the numbers that are written.

A run of digits is read as the number it states as long as that fits a
significand (`absorb_digits`), and what follows a run decides how the
reader goes on. From this each layout of a numeral is read as a significand
and a power of ten with the value of the numeral
(`readNumber_magnitude`). Which double they give is another matter, the
one of `Scale`.
-/
import Mathlib
import HueCycle.Json.Reader
import HueCycle.Json.Record
import HueCycle.Proofs.Decimal.Shortest

namespace HueCycle.Json

open Decimal

/-! ## §1 Digits -/

/-- The octets of characters. -/
def octets (cs : List Char) : Bytes := cs.flatMap String.utf8EncodeChar

theorem octets_append (cs ds : List Char) : octets (cs ++ ds) = octets cs ++ octets ds :=
  List.flatMap_append

/-- Decimal digits. -/
def AllDigits (cs : List Char) : Prop := ∀ c ∈ cs, c.isDigit = true

/-- The number that digits state. -/
def digitsValue (cs : List Char) : Nat := Nat.ofDigitChars 10 cs 0

/-- A digit is one octet, and both have the same value. -/
theorem octet_of_isDigit {c : Char} (h : c.isDigit = true) :
    ∃ b : UInt8, String.utf8EncodeChar c = [b] ∧ isDigit b = true ∧
      b.toNat - 0x30 = c.toNat - 0x30 ∧ (b = 0x30 → c = '0') := by
  have hlow : 48 ≤ c.toNat := by
    simp only [Char.isDigit, Bool.and_eq_true, decide_eq_true_eq, ge_iff_le] at h
    exact UInt32.le_iff_toNat_le.mp h.1
  have hhigh : c.toNat ≤ 57 := by
    simp only [Char.isDigit, Bool.and_eq_true, decide_eq_true_eq, ge_iff_le] at h
    exact UInt32.le_iff_toNat_le.mp h.2
  obtain ⟨n, hn⟩ : ∃ n, n = c.toNat := ⟨_, rfl⟩
  have hc : c = Char.ofNat n := by rw [hn, Char.ofNat_toNat]
  rw [← hn] at hlow hhigh
  subst hc
  interval_cases n <;> exact ⟨_, rfl, rfl, rfl, by decide⟩

/-- A text that begins with a digit begins with its octet. -/
theorem octets_cons_of_isDigit {c : Char} (h : c.isDigit = true) (cs : List Char) (rest : Bytes) :
    ∃ b : UInt8, octets (c :: cs) ++ rest = b :: (octets cs ++ rest) ∧ isDigit b = true ∧
      b.toNat - 0x30 = c.toNat - 0x30 ∧ (b = 0x30 → c = '0') := by
  obtain ⟨b, hb, hdigit⟩ := octet_of_isDigit h
  refine ⟨b, ?_, hdigit⟩
  rw [octets, List.flatMap_cons, hb]
  rfl

/-- What does not begin with a digit. -/
def NoDigit (bytes : Bytes) : Prop := ∀ b ∈ bytes.head?, isDigit b = false

/-- What cannot be part of a number. -/
def Delimited (bytes : Bytes) : Prop :=
  ∀ b ∈ bytes.head?, isDigit b = false ∧ b ≠ 0x2E ∧ b ≠ 0x65 ∧ b ≠ 0x45

theorem Delimited.noDigit {bytes : Bytes} (h : Delimited bytes) : NoDigit bytes :=
  fun b hb => (h b hb).1

section Digits

variable {cs : List Char} {rest : Bytes}

theorem digitRun_octets (h : AllDigits cs) (hrest : NoDigit rest) :
    digitRun (octets cs ++ rest) = cs.map fun c => c.toNat - 0x30 := by
  induction cs with
  | nil =>
    cases rest with
    | nil => rfl
    | cons b rest =>
      have hb := hrest b rfl
      simp [digitRun, octets, hb]
  | cons c cs ih =>
    obtain ⟨b, hcons, hdigit, hvalue, -⟩ :=
      octets_cons_of_isDigit (h c List.mem_cons_self) cs rest
    have hcs := ih fun d hd => h d (List.mem_cons_of_mem _ hd)
    rw [digitRun] at hcs ⊢
    rw [hcons, List.takeWhile_cons, if_pos hdigit, List.map_cons, hvalue, hcs, List.map_cons]

theorem afterDigits_octets (h : AllDigits cs) (hrest : NoDigit rest) :
    afterDigits (octets cs ++ rest) = rest := by
  induction cs with
  | nil =>
    cases rest with
    | nil => rfl
    | cons b rest =>
      have hb := hrest b rfl
      simp [afterDigits, octets, hb]
  | cons c cs ih =>
    obtain ⟨b, hcons, hdigit, -, -⟩ := octets_cons_of_isDigit (h c List.mem_cons_self) cs rest
    have hcs := ih fun d hd => h d (List.mem_cons_of_mem _ hd)
    rw [afterDigits] at hcs ⊢
    rw [hcons, List.dropWhile_cons, if_pos hdigit, hcs]

theorem ofDigits_map (cs : List Char) :
    ofDigits (cs.map fun c => c.toNat - 0x30) = digitsValue cs := by
  rw [ofDigits, digitsValue, Nat.ofDigitChars_eq_foldl, List.foldl_map]
  congr 1
  funext n c
  rw [Nat.mul_comm]
  rfl

/-- More digits never make a number smaller. -/
theorem le_ofDigitChars (cs : List Char) (n : Nat) : n ≤ Nat.ofDigitChars 10 cs n := by
  rw [Nat.ofDigitChars_eq_ofDigitChars_zero]
  exact (Nat.le_mul_of_pos_left _ (Nat.pow_pos (by decide))).trans (Nat.le_add_right _ _)

/-- **Digits are taken into a significand as long as it fits.** -/
theorem absorb_digits (cs : List Char) {n : Nat}
    (h : Nat.ofDigitChars 10 cs n < 0x10000000000000000) :
    absorb n (cs.map fun c => c.toNat - 0x30) = (Nat.ofDigitChars 10 cs n, cs.length) := by
  induction cs generalizing n with
  | nil => rfl
  | cons c cs ih =>
    rw [Nat.ofDigitChars_cons, Nat.mul_comm 10 n] at h ⊢
    have hgrow : n * 10 + (c.toNat - 0x30) ≤ _ := le_ofDigitChars cs _
    rw [List.map_cons, absorb, if_pos (hgrow.trans_lt h)]
    have hrest := ih h
    change absorb (n * 10 + (c.toNat - 0x30)) _ = _ at hrest
    rw [hrest]
    rfl

/-- The digits that a number is written with. -/
theorem allDigits_digits (n : Nat) : AllDigits (Decimal.digits n) :=
  fun _ hc => Nat.isDigit_of_mem_toDigits (by decide) (by decide) hc

theorem digitsValue_digits (n : Nat) : digitsValue (Decimal.digits n) = n :=
  Nat.ofDigitChars_ten_toDigits

theorem digits_ne_nil (n : Nat) : Decimal.digits n ≠ [] := Nat.toDigits_ne_nil

/-- The first digit of a number other than zero is not a zero. -/
theorem head?_digits_ne {n : Nat} (h : 0 < n) : (Decimal.digits n).head? ≠ some '0' := by
  induction n using Nat.strong_induction_on with
  | _ n ih =>
    rw [Decimal.digits, Nat.toDigits_eq_if (by decide)]
    split
    · rename_i hlt
      interval_cases n <;> decide
    · rename_i hge
      rw [List.head?_append_of_ne_nil _ Nat.toDigits_ne_nil]
      exact ih (n / 10) (by omega) (by omega)

theorem allDigits_append {ds : List Char} (hc : AllDigits cs) (hd : AllDigits ds) :
    AllDigits (cs ++ ds) := by
  intro c hmem
  rcases List.mem_append.mp hmem with h | h
  · exact hc c h
  · exact hd c h

theorem allDigits_zeros (n : Nat) : AllDigits (zeros n) := by
  intro c hmem
  rw [(List.mem_replicate.mp hmem).2]
  rfl

end Digits

/-! ## §2 What follows the digits -/

/-- Digits that can begin a number: at least one, and a zero only alone. -/
structure Leading (cs : List Char) : Prop where
  digits : AllDigits cs
  ne_nil : cs ≠ []
  zero : cs.head? = some '0' → cs.length = 1

/-- What the reader sees of a number that begins with digits. -/
theorem Leading.start {cs : List Char} (h : Leading cs) {rest : Bytes} (hrest : NoDigit rest) :
    ∃ b tail, octets cs ++ rest = b :: tail ∧ isDigit b = true ∧
      (decide (b = 0x30) && tail.head?.any isDigit) = false ∧
      digitRun (b :: tail) = (cs.map fun c => c.toNat - 0x30) ∧ afterDigits (b :: tail) = rest := by
  have hrun := digitRun_octets h.digits hrest
  have hafter := afterDigits_octets h.digits hrest
  obtain ⟨c, ds, rfl⟩ := List.exists_cons_of_ne_nil h.ne_nil
  obtain ⟨b, hcons, hdigit, -, hzero⟩ :=
    octets_cons_of_isDigit (h.digits c List.mem_cons_self) ds rest
  rw [hcons] at hrun hafter
  refine ⟨b, octets ds ++ rest, hcons, hdigit, ?_, hrun, hafter⟩
  by_cases hb0 : b = 0x30
  · have hlength := h.zero (by rw [List.head?_cons, hzero hb0])
    obtain rfl : ds = [] := List.eq_nil_of_length_eq_zero (by simpa using hlength)
    cases rest with
    | nil => simp [octets]
    | cons d rest =>
      have hd := hrest d rfl
      simp [octets, hd]
  · simp [hb0]

/-- The digits of a number can begin a number. -/
theorem leading_digits (n : Nat) : Leading (Decimal.digits n) where
  digits := allDigits_digits n
  ne_nil := digits_ne_nil n
  zero h := by
    obtain rfl : n = 0 := Nat.eq_zero_of_not_pos fun hpos => head?_digits_ne hpos h
    rfl

section Numbers

variable {negative : Bool} {cs : List Char} {rest : Bytes}

/-- A double with a sign. -/
def signedNumber (negative : Bool) (x : Float) : Number := .real (if negative then -x else x)

/-- An integer part with a fraction, -/
theorem readNumber_point (h : Leading cs) (hfits : digitsValue cs < 0x10000000000000000) :
    readNumber negative (octets cs ++ 0x2E :: rest) =
      (readFraction (digitsValue cs) 0 rest).map fun r => (signedNumber negative r.1, r.2) := by
  obtain ⟨b, tail, hcons, hdigit, hlone, hrun, hafter⟩ :=
    h.start (by simp [NoDigit, isDigit] : NoDigit (0x2E :: rest))
  have habsorb := absorb_digits cs (n := 0) hfits
  rw [hcons, readNumber]
  simp only [hdigit, hlone, hrun, hafter, habsorb, Bool.not_true, Bool.false_eq_true, if_false,
    List.length_map, Nat.sub_self, digitsValue]
  cases readFraction (Nat.ofDigitChars 10 cs 0) 0 rest <;> rfl

/-- with an exponent, -/
theorem readNumber_exponent (h : Leading cs) (hfits : digitsValue cs < 0x10000000000000000) :
    readNumber negative (octets cs ++ 0x65 :: rest) =
      (readExponent (digitsValue cs) 0 rest).map fun r => (signedNumber negative r.1, r.2) := by
  obtain ⟨b, tail, hcons, hdigit, hlone, hrun, hafter⟩ :=
    h.start (by simp [NoDigit, isDigit] : NoDigit (0x65 :: rest))
  have habsorb := absorb_digits cs (n := 0) hfits
  rw [hcons, readNumber]
  simp only [hdigit, hlone, hrun, hafter, habsorb, Bool.not_true, Bool.false_eq_true, if_false,
    List.length_map, Nat.sub_self, digitsValue, readScaled]
  cases readExponent (Nat.ofDigitChars 10 cs 0) 0 rest <;> rfl

/-- and with neither, where it is a whole number. -/
theorem readNumber_whole (h : Leading cs) (hfits : digitsValue cs < 0x10000000000000000)
    (hrest : Delimited rest) :
    readNumber false (octets cs ++ rest) = .ok (.integer (digitsValue cs), rest) := by
  obtain ⟨b, tail, hcons, hdigit, hlone, hrun, hafter⟩ := h.start hrest.noDigit
  have habsorb := absorb_digits cs (n := 0) hfits
  rw [hcons, readNumber]
  simp only [hdigit, hlone, hrun, hafter, habsorb, Bool.not_true, Bool.false_eq_true, if_false,
    List.length_map, Nat.sub_self, digitsValue]
  split
  · exact absurd rfl (hrest _ rfl).2.1
  · exact absurd rfl (hrest _ rfl).2.2.1
  · exact absurd rfl (hrest _ rfl).2.2.2
  · rfl

/-- A fraction goes into the significand after the integer part. -/
theorem readFraction_digits (h : AllDigits cs) (hne : cs ≠ []) {n : Nat} {e : Int}
    (hrest : NoDigit rest) (hfits : Nat.ofDigitChars 10 cs n < 0x10000000000000000) :
    readFraction n e (octets cs ++ rest) =
      readScaled (Nat.ofDigitChars 10 cs n) (e - cs.length) rest := by
  have hrun := digitRun_octets h hrest
  have hafter := afterDigits_octets h hrest
  have habsorb := absorb_digits cs hfits
  rw [readFraction, hrun, hafter]
  obtain ⟨c, ds, rfl⟩ := List.exists_cons_of_ne_nil hne
  rw [List.map_cons] at habsorb ⊢
  simp only [habsorb]

/-- Without an exponent the significand is scaled at once. -/
theorem readScaled_delimited {n : Nat} {e : Int} (hrest : Delimited rest) :
    readScaled n e rest = (scale n e).map (·, rest) := by
  rw [readScaled.eq_def]
  split
  · exact absurd rfl (hrest _ rfl).2.2.1
  · exact absurd rfl (hrest _ rfl).2.2.2
  · rfl

/-- The value of an exponent is added after its sign. -/
theorem readExponent_sign (significand : Nat) (start : Int) {e : Nat} (hrest : NoDigit rest)
    (he : e < 0x80000000) :
    readExponent significand start (0x2B :: octets (Decimal.digits e) ++ rest) =
        (scale significand (clampExponent (start + e))).map (·, rest) ∧
      readExponent significand start (0x2D :: octets (Decimal.digits e) ++ rest) =
        (scale significand (clampExponent (start - e))).map (·, rest) := by
  obtain ⟨b, tail, hcons, hdigit, -, hrun, hafter⟩ := (leading_digits e).start hrest
  have hvalue : ofDigits (digitRun (b :: tail)) = e := by
    rw [hrun, ofDigits_map, digitsValue_digits]
  constructor
  all_goals
    rw [List.cons_append, hcons]
    simp only [readExponent, hdigit, hvalue, hafter, he, Bool.not_true, Bool.false_eq_true,
      if_false, if_true]
    cases scale significand (clampExponent _) <;> rfl

/-- An exponent is added. -/
theorem readExponent_exponentText {significand : Nat} {start e : Int} (hrest : NoDigit rest)
    (he : e.natAbs < 0x80000000) (hlow : -0x80000000 ≤ start + e) (hhigh : start + e ≤ 0x7FFFFFFF) :
    readExponent significand start (octets (exponentText e) ++ rest) =
      (scale significand (start + e)).map (·, rest) := by
  obtain ⟨hplus, hminus⟩ := readExponent_sign significand start hrest he
  have hclamp : clampExponent (start + e) = start + e := by
    rw [clampExponent, min_eq_right hhigh, max_eq_right hlow]
  rcases lt_or_ge e 0 with hneg | hnonneg
  · rw [exponentText, if_pos hneg]
    rw [show start - (e.natAbs : Int) = start + e by omega, hclamp] at hminus
    exact hminus
  · rw [exponentText, if_neg hnonneg.not_gt]
    rw [show start + (e.natAbs : Int) = start + e by omega, hclamp] at hplus
    exact hplus

end Numbers

/-! ## §3 Layouts -/

/-- The digits of a positive number that are followed by zeros can begin a number, -/
theorem leading_digits_zeros {n : Nat} (h : 0 < n) (k : Nat) :
    Leading (Decimal.digits n ++ zeros k) where
  digits := allDigits_append (allDigits_digits n) (allDigits_zeros k)
  ne_nil := List.append_ne_nil_of_left_ne_nil (digits_ne_nil n) _
  zero hhead := by
    rw [List.head?_append_of_ne_nil _ (digits_ne_nil n)] at hhead
    exact absurd hhead (head?_digits_ne h)

/-- and so can its first digits. -/
theorem leading_take {n : Nat} (h : 0 < n) {k : Nat} (hk : 0 < k) :
    Leading ((Decimal.digits n).take k) where
  digits c hc := allDigits_digits n c (List.mem_of_mem_take hc)
  ne_nil := by
    rw [Ne, List.take_eq_nil_iff, not_or]
    exact ⟨hk.ne', digits_ne_nil n⟩
  zero hhead := by
    rw [List.head?_take, if_neg hk.ne'] at hhead
    exact absurd hhead (head?_digits_ne h)

theorem allDigits_drop (n k : Nat) : AllDigits ((Decimal.digits n).drop k) :=
  fun c hc => allDigits_digits n c (List.mem_of_mem_drop hc)

/-- The exponent of the first digit of a numeral. -/
def leadOf (n : Numeral) : Int := n.exponent + ((Decimal.digits n.significand).length - 1 : Nat)

/-- How a magnitude is laid out. -/
theorem magnitude_json (n : Numeral) : Style.json.magnitude n =
    if n.significand = 0 ∨ (-5 ≤ leadOf n ∧ leadOf n ≤ 15) then positionalText true n
    else exponentialText n :=
  rfl

/-- What the reader makes of a numeral: a whole number that is written out in
full has its zeros, and the one after the point, in the significand. -/
def asRead (n : Numeral) : Numeral :=
  if 0 ≤ n.exponent ∧ leadOf n ≤ 15 then ⟨n.significand * 10 ^ (n.exponent.toNat + 1), -1⟩ else n

/-- It has the same value. -/
theorem value_asRead (n : Numeral) : (asRead n).value = n.value := by
  rw [asRead]
  split
  · rename_i h
    obtain ⟨k, hk⟩ := Int.eq_ofNat_of_zero_le h.1
    rw [Numeral.value, Numeral.value, hk, Int.toNat_natCast]
    push_cast
    rw [pow_succ, zpow_natCast, zpow_neg_one]
    ring
  · rfl

/-- Its significand is as small as one that is not written out in full. -/
theorem significand_asRead_le {n : Numeral} (h : n.significand ≤ 10 ^ 17) :
    (asRead n).significand ≤ 10 ^ 17 := by
  rw [asRead]
  split
  · rename_i hfull
    obtain ⟨hexponent, hlead⟩ := hfull
    rw [leadOf] at hlead
    have hlength := Nat.length_toDigits_pos (b := 10) (n := n.significand)
    change 0 < (Decimal.digits n.significand).length at hlength
    have hlt : n.significand < 10 ^ (16 - n.exponent.toNat) :=
      (Nat.length_toDigits_le_iff (by decide) (by omega)).mp (by
        change (Decimal.digits n.significand).length ≤ _
        omega)
    calc n.significand * 10 ^ (n.exponent.toNat + 1)
        ≤ 10 ^ (16 - n.exponent.toNat) * 10 ^ (n.exponent.toNat + 1) :=
          Nat.mul_le_mul_right _ hlt.le
      _ = 10 ^ 17 := by
          rw [← Nat.pow_add]
          congr 1
          omega
  · exact h

section Layouts

variable {negative : Bool} {n : Numeral} {rest : Bytes}

/-- What the reader makes of the octets of a numeral. -/
def readsAs (negative : Bool) (n : Numeral) (rest : Bytes) : Except Fault (Number × Bytes) :=
  (scale n.significand n.exponent).map fun x => (signedNumber negative x, rest)

/-- The reading of a significand with a place for the rest, and then the sign. -/
theorem map_scale_eq_readsAs (n : Numeral) :
    (((scale n.significand n.exponent).map (·, rest)).map fun r => (signedNumber negative r.1, r.2)) =
      readsAs negative n rest := by
  rw [readsAs]
  cases scale n.significand n.exponent <;> rfl

/-- A whole number written out in full. -/
theorem readNumber_zeros {k : Nat} (hlead : Leading (Decimal.digits n.significand ++ zeros k))
    (hfits : n.significand * 10 ^ (k + 1) < 0x10000000000000000) (hrest : Delimited rest) :
    readNumber negative
        (octets (Decimal.digits n.significand ++ zeros k ++ ['.', '0']) ++ rest) =
      readsAs negative ⟨n.significand * 10 ^ (k + 1), -1⟩ rest := by
  have hvalue : digitsValue (Decimal.digits n.significand ++ zeros k) = n.significand * 10 ^ k := by
    rw [digitsValue, Nat.ofDigitChars_append, zeros, Nat.ofDigitChars_replicate_zero, Nat.mul_comm]
    congr 1
    exact digitsValue_digits _
  have hzero : Nat.ofDigitChars 10 (zeros 1) (n.significand * 10 ^ k) =
      n.significand * 10 ^ (k + 1) := by
    rw [zeros, Nat.ofDigitChars_replicate_zero, Nat.pow_succ]
    ring
  rw [octets_append, List.append_assoc]
  change readNumber _ (octets _ ++ 0x2E :: (octets (zeros 1) ++ rest)) = _
  have hpow : n.significand * 10 ^ k ≤ n.significand * 10 ^ (k + 1) :=
    Nat.mul_le_mul_left _ (Nat.pow_le_pow_right (by decide) (Nat.le_succ k))
  rw [readNumber_point hlead (by omega), hvalue,
    readFraction_digits (allDigits_zeros 1) (List.cons_ne_nil _ _) hrest.noDigit (by omega), hzero,
    readScaled_delimited hrest, zeros, List.length_replicate, Nat.cast_one, zero_sub,
    ← map_scale_eq_readsAs]

/-- A number with a point among its digits. -/
theorem readNumber_split {k : Nat} (hpos : 0 < n.significand)
    (hfits : n.significand < 0x10000000000000000) (hk : 0 < k)
    (hlength : k < (Decimal.digits n.significand).length)
    (hexponent : n.exponent = k - (Decimal.digits n.significand).length) (hrest : Delimited rest) :
    readNumber negative (octets ((Decimal.digits n.significand).take k ++
        '.' :: (Decimal.digits n.significand).drop k) ++ rest) = readsAs negative n rest := by
  have hsplit : Nat.ofDigitChars 10 ((Decimal.digits n.significand).drop k)
      (digitsValue ((Decimal.digits n.significand).take k)) = n.significand := by
    rw [digitsValue, ← Nat.ofDigitChars_append, List.take_append_drop]
    exact digitsValue_digits _
  have hgrow := le_ofDigitChars ((Decimal.digits n.significand).drop k)
    (digitsValue ((Decimal.digits n.significand).take k))
  rw [hsplit] at hgrow
  have hdrop : (Decimal.digits n.significand).drop k ≠ [] := by
    rw [Ne, List.drop_eq_nil_iff]
    omega
  rw [octets_append, List.append_assoc]
  change readNumber _ (octets _ ++ 0x2E :: (octets _ ++ rest)) = _
  rw [readNumber_point (leading_take hpos hk) (by omega),
    readFraction_digits (allDigits_drop _ _) hdrop hrest.noDigit (by omega), hsplit,
    readScaled_delimited hrest, List.length_drop, ← map_scale_eq_readsAs, hexponent,
    Nat.cast_sub hlength.le]
  congr 3
  omega

/-- A number below one. -/
theorem readNumber_below_one {k : Nat} (hfits : n.significand < 0x10000000000000000)
    (hexponent : n.exponent = -(k + (Decimal.digits n.significand).length : Nat))
    (hrest : Delimited rest) :
    readNumber negative
        (octets ('0' :: '.' :: (zeros k ++ Decimal.digits n.significand)) ++ rest) =
      readsAs negative n rest := by
  have hvalue : Nat.ofDigitChars 10 (zeros k ++ Decimal.digits n.significand) 0 =
      n.significand := by
    rw [Nat.ofDigitChars_append, zeros, Nat.ofDigitChars_replicate_zero, Nat.mul_zero]
    exact digitsValue_digits _
  change readNumber _ (octets (Decimal.digits 0) ++ 0x2E :: (octets _ ++ rest)) = _
  rw [readNumber_point (leading_digits 0) (by decide),
    readFraction_digits (allDigits_append (allDigits_zeros k) (allDigits_digits _))
      (List.append_ne_nil_of_right_ne_nil _ (digits_ne_nil _)) hrest.noDigit
      (by rw [digitsValue_digits, hvalue]; omega),
    digitsValue_digits, hvalue, readScaled_delimited hrest, List.length_append,
    zeros, List.length_replicate, ← map_scale_eq_readsAs, hexponent, zero_sub]

/-- A number with an exponent. -/
theorem readNumber_exponential (hpos : 0 < n.significand)
    (hfits : n.significand < 0x10000000000000000) (hsmall : n.exponent.natAbs < 1000)
    (hlength : (Decimal.digits n.significand).length ≤ 18) (hrest : Delimited rest) :
    readNumber negative (octets (exponentialText n) ++ rest) = readsAs negative n rest := by
  have hvalue := digitsValue_digits n.significand
  rw [exponentialText]
  split
  · rename_i hnil
    exact absurd hnil (digits_ne_nil _)
  · -- one digit
    rename_i d hdigits
    have hlead := leading_digits n.significand
    rw [hdigits] at hlead hvalue ⊢
    rw [← List.singleton_append, octets_append, List.append_assoc]
    change readNumber _ (octets [d] ++ 0x65 :: (octets _ ++ rest)) = _
    rw [readNumber_exponent hlead (by omega), hvalue,
      readExponent_exponentText hrest.noDigit (by simp; omega) (by simp; omega) (by simp; omega),
      ← map_scale_eq_readsAs]
    simp
  · rename_i d more hne hdigits
    have hlead : Leading [d] := by
      have := leading_take hpos Nat.one_pos
      rwa [hdigits] at this
    have hdrop : AllDigits more := by
      have := allDigits_drop n.significand 1
      rwa [hdigits] at this
    have hmore : more ≠ [] := fun h => hne h
    rw [hdigits] at hvalue hlength ⊢
    rw [digitsValue, ← List.singleton_append, Nat.ofDigitChars_append] at hvalue
    have hgrow := le_ofDigitChars more (Nat.ofDigitChars 10 [d] 0)
    rw [hvalue] at hgrow
    rw [← List.singleton_append, octets_append, List.append_assoc]
    change readNumber _ (octets [d] ++ 0x2E :: (octets _ ++ rest)) = _
    rw [octets_append, List.append_assoc]
    change readNumber _ (octets [d] ++ 0x2E :: (octets more ++ 0x65 :: (octets _ ++ rest))) = _
    rw [readNumber_point hlead (by rw [digitsValue]; omega),
      readFraction_digits hdrop hmore (by simp [NoDigit, isDigit]) (by rw [digitsValue]; omega),
      digitsValue, hvalue, readScaled]
    rw [List.length_cons] at hlength ⊢
    rw [readExponent_exponentText hrest.noDigit (by omega) (by omega) (by omega),
      ← map_scale_eq_readsAs]
    congr 3
    omega

/-- **Every numeral is read as what `asRead` says.** -/
theorem readNumber_magnitude (hzero : n.significand = 0 → n.exponent = 0)
    (hfits : n.significand ≤ 10 ^ 17) (hsmall : n.exponent.natAbs < 1000)
    (hrest : Delimited rest) :
    readNumber negative (octets (Style.json.magnitude n) ++ rest) =
      readsAs negative (asRead n) rest := by
  have hlength : (Decimal.digits n.significand).length ≤ 18 :=
    (Nat.length_toDigits_le_iff (by decide) (by decide)).mpr (by omega)
  have hfits' := significand_asRead_le hfits
  rw [magnitude_json]
  by_cases hfull : n.significand = 0 ∨ (-5 ≤ leadOf n ∧ leadOf n ≤ 15)
  · have hlead : leadOf n ≤ 15 := by
      rcases hfull with h | h
      · rw [leadOf, h, hzero h]
        decide
      · exact h.2
    rw [if_pos hfull, positionalText]
    by_cases hnonneg : 0 ≤ n.exponent
    · have hread : asRead n = ⟨n.significand * 10 ^ (n.exponent.toNat + 1), -1⟩ :=
        if_pos ⟨hnonneg, hlead⟩
      rw [hread] at hfits' ⊢
      rw [if_pos hnonneg, if_pos rfl]
      refine readNumber_zeros ?_ (hfits'.trans_lt (by decide)) hrest
      rcases Nat.eq_zero_or_pos n.significand with h | h
      · rw [h, hzero h]
        exact leading_digits 0
      · exact leading_digits_zeros h _
    · have hpos : 0 < n.significand := Nat.pos_of_ne_zero fun h => hnonneg (hzero h).ge
      have hread : asRead n = n := if_neg fun h => hnonneg h.1
      rw [hread, if_neg hnonneg]
      dsimp only
      by_cases hplaces : (-n.exponent).toNat < (Decimal.digits n.significand).length
      · rw [if_pos hplaces]
        exact readNumber_split hpos (by omega) (by omega) (by omega) (by omega) hrest
      · rw [if_neg hplaces]
        exact readNumber_below_one (by omega) (by omega) hrest
  · rw [if_neg hfull]
    rw [not_or] at hfull
    have hread : asRead n = n := if_neg fun h => hfull.2 ⟨by
      have := h.1
      rw [leadOf]
      omega, h.2⟩
    rw [hread]
    exact readNumber_exponential (Nat.pos_of_ne_zero hfull.1) (by omega) hsmall hlength hrest

end Layouts

/-! ## §4 Numbers of a text -/

section Texts

variable {expected : String} {rest : Bytes}

/-- A number that begins with a digit is read from there, -/
theorem number_digit {b : UInt8} (h : isDigit b = true) :
    number expected (b :: rest) = readNumber false (b :: rest) := by
  have hbounds : 0x30 ≤ b.toNat ∧ b.toNat ≤ 0x39 := by
    simp only [isDigit, Bool.and_eq_true, decide_eq_true_eq] at h
    exact ⟨UInt8.le_iff_toNat_le.mp h.1, UInt8.le_iff_toNat_le.mp h.2⟩
  have hother {c : UInt8} (hc : c.toNat < 0x30) : b ≠ c := by
    rintro rfl
    omega
  have hspace : isSpace b = false := by
    simp [isSpace, hother (c := 0x20) (by decide), hother (c := 0x0A) (by decide),
      hother (c := 0x09) (by decide), hother (c := 0x0D) (by decide)]
  rw [number, skipSpace, List.dropWhile_cons, hspace]
  simp only [Bool.false_eq_true, if_false, h, if_true, hother (c := 0x2D) (by decide)]

/-- and one with a sign from after the sign. -/
theorem number_minus : number expected (0x2D :: rest) = readNumber true rest := rfl

/-- **Whole numbers are read back.** -/
theorem natural_writeNatural {width n : Nat} (hwidth : width ≤ 64) (hn : n < 2 ^ width)
    (hrest : Delimited rest) : natural width (writeNatural n ++ rest) = .ok (n, rest) := by
  have hfits : digitsValue (Decimal.digits n) < 0x10000000000000000 := by
    rw [digitsValue_digits]
    exact hn.trans_le (Nat.pow_le_pow_right (by decide) hwidth)
  have hread := readNumber_whole (leading_digits n) hfits hrest
  obtain ⟨b, tail, hcons, hdigit, -⟩ := (leading_digits n).start hrest.noDigit
  have hbounds : (0 : Int) ≤ (n : Int) ∧ (n : Int) < (Nat.pow 2 width : Int) :=
    ⟨Int.natCast_nonneg n, by exact_mod_cast hn⟩
  change natural width (octets (Decimal.digits n) ++ rest) = _
  rw [digitsValue_digits, hcons] at hread
  rw [hcons, natural, number_digit hdigit, hread]
  simp only [if_pos hbounds, Int.toNat_natCast]

/-- The text of a magnitude begins with a digit. -/
theorem magnitude_begins (n : Numeral) :
    ∃ c cs, Style.json.magnitude n = c :: cs ∧ c.isDigit = true := by
  obtain ⟨c, ds, hds⟩ := List.exists_cons_of_ne_nil (digits_ne_nil n.significand)
  have hc : c.isDigit = true := allDigits_digits n.significand c (hds ▸ List.mem_cons_self)
  rw [magnitude_json]
  split
  · rw [positionalText, hds]
    dsimp only
    split
    · exact ⟨c, _, rfl, hc⟩
    · split
      · rename_i hplaces
        obtain ⟨k, hk⟩ := Nat.exists_eq_add_of_lt (Nat.sub_pos_of_lt hplaces)
        rw [hk, Nat.zero_add, List.take_succ_cons]
        exact ⟨c, _, rfl, hc⟩
      · exact ⟨_, _, rfl, rfl⟩
  · rw [exponentialText, hds]
    cases ds with
    | nil => exact ⟨c, _, rfl, hc⟩
    | cons d ds => exact ⟨c, _, rfl, hc⟩

/-- So a reader of numbers reads it after its sign. -/
theorem number_magnitude (negative : Bool) (n : Numeral) :
    number expected (octets (if negative then '-' :: Style.json.magnitude n
        else Style.json.magnitude n) ++ rest) =
      readNumber negative (octets (Style.json.magnitude n) ++ rest) := by
  cases negative with
  | true => exact number_minus
  | false =>
    obtain ⟨c, cs, hcs, hc⟩ := magnitude_begins n
    obtain ⟨b, hcons, hdigit, -⟩ := octets_cons_of_isDigit hc cs rest
    rw [if_neg Bool.false_ne_true, hcs, hcons]
    exact number_digit hdigit

end Texts

end HueCycle.Json
