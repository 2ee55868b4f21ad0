/-
HueCycle.Proofs.Json.Skipping — values that do not matter are skipped.

The skipper goes through a value token by token and keeps the brackets that it
is inside of on a stack, so nothing bounds the depth. What it does with a text
is stated for any stack and any number of steps left (`Skips`); a value takes
at most two steps for each of its octets, and the skipper starts with more
than that. Main statement: `IsElement.exists_skipValue`.
-/
import Mathlib
import HueCycle.Proofs.Json.Steady

namespace HueCycle.Json

/-! ## §1 Numbers -/

section Numbers

variable {digits fraction exponent rest : Bytes}

theorem skipExponent_digits {sign : Bytes} (hsign : sign = [] ∨ sign = [0x2B] ∨ sign = [0x2D])
    (h : Digits digits) (hrest : NoDigit rest) :
    skipExponent (sign ++ (digits ++ rest)) = .ok rest := by
  have hafter := afterDigits_append h hrest
  obtain ⟨b, more, rfl⟩ := List.exists_cons_of_ne_nil h.1
  have hb : isDigit b = true := h.2 b List.mem_cons_self
  rw [List.cons_append] at hafter ⊢
  rcases hsign with rfl | rfl | rfl
  · rw [List.nil_append]
    unfold skipExponent
    split
    · rename_i hplus
      exact absurd (List.cons.inj hplus).1 (ne_of_isDigit hb (by decide))
    · rename_i hminus
      exact absurd (List.cons.inj hminus).1 (ne_of_isDigit hb (by decide))
    · simp only [hb, if_true, hafter]
  · simp only [List.singleton_append, skipExponent, hb, if_true, hafter]
  · simp only [List.singleton_append, skipExponent, hb, if_true, hafter]

/-- The exponent behind an integer part, or the end of the number, -/
theorem skipTail_exponent (h : IsExponent exponent) (hrest : Delimited rest) :
    skipTail (exponent ++ rest) = .ok rest := by
  cases h with
  | absent =>
    rw [List.nil_append]
    unfold skipTail
    split
    · exact absurd rfl (hrest _ rfl).2.1
    · exact absurd rfl (hrest _ rfl).2.2.1
    · exact absurd rfl (hrest _ rfl).2.2.2
    · rfl
  | @present e sign digits he hsign hdigits =>
    have hskip := skipExponent_digits hsign hdigits hrest.noDigit
    rw [← List.append_assoc] at hskip
    rcases he with rfl | rfl
    · exact hskip
    · exact hskip

/-- and both behind a fraction. -/
theorem skipTail_fraction (h : Digits digits) (hexponent : IsExponent exponent)
    (hrest : Delimited rest) : skipTail (0x2E :: (digits ++ (exponent ++ rest))) = .ok rest := by
  have hnodigit := hexponent.noDigit_append hrest.noDigit
  have hafter := afterDigits_append h hnodigit
  have hrun : (digitRun (digits ++ (exponent ++ rest))).isEmpty = false := by
    rw [digitRun_append h hnodigit]
    simp [h.1]
  cases hexponent with
  | absent =>
    rw [List.nil_append] at hafter hrun ⊢
    simp only [skipTail, hrun, hafter, Bool.false_eq_true, if_false]
    split
    · exact absurd rfl (hrest _ rfl).2.2.1
    · exact absurd rfl (hrest _ rfl).2.2.2
    · rfl
  | @present e sign digits' he hsign hdigits =>
    have hskip := skipExponent_digits hsign hdigits hrest.noDigit
    rw [← List.append_assoc] at hskip
    rw [List.cons_append] at hafter hrun ⊢
    rcases he with rfl | rfl
    · simp only [skipTail, hrun, hafter, Bool.false_eq_true, if_false, hskip]
    · simp only [skipTail, hrun, hafter, Bool.false_eq_true, if_false, hskip]

/-- **A number is skipped to its end.** -/
theorem skipNumber_magnitude {text : Bytes} (h : IsMagnitude text) (hrest : Delimited rest) :
    skipNumber (text ++ rest) = .ok rest := by
  obtain ⟨hwhole, hfraction, hexponent⟩ := h
  rename_i whole fraction exponent
  have hnumber {after : Bytes} (hafter : NoDigit after) :
      skipNumber (whole ++ after) = skipTail after := by
    obtain ⟨b, tail, hcons, hdigit, hlone, -, hbehind⟩ := hwhole.start hafter
    rw [hcons, skipNumber]
    simp only [hdigit, hlone, hbehind, Bool.not_true, Bool.false_eq_true, if_false]
  rw [List.append_assoc, List.append_assoc]
  cases hfraction with
  | absent =>
    rw [List.nil_append, hnumber (hexponent.noDigit_append hrest.noDigit)]
    exact skipTail_exponent hexponent hrest
  | present hdigits =>
    rw [List.cons_append, hnumber (by simp [NoDigit, isDigit])]
    exact skipTail_fraction hdigits hexponent hrest

end Numbers

/-! ## §2 Strings -/

section Strings

variable {inside : Bytes}

/-- A string is gone through up to the closing quote. -/
theorem exists_strFrom_inside (h : IsInside inside) :
    ∃ content, ∀ rest, strFrom false .plain (inside ++ quoteOctet :: rest) = .ok (content, rest) := by
  induction h with
  | nil => exact ⟨[], fun rest => rfl⟩
  | @plain b inside hquote hbackslash hcontrol h ih =>
    obtain ⟨content, ih⟩ := ih
    have hstep : strStep false .plain b = .ok (.plain, [b]) := by
      rw [strStep, if_neg hbackslash, if_neg hcontrol]
    refine ⟨[b] ++ content, fun rest => ?_⟩
    rw [List.cons_append, strFrom_plain hquote hstep, ih]
    rfl
  | @letter c inside hc h ih =>
    obtain ⟨content, ih⟩ := ih
    obtain ⟨d, hd⟩ := Option.isSome_iff_exists.mp hc
    refine ⟨[d] ++ content, fun rest => ?_⟩
    rw [List.cons_append, List.cons_append, strFrom_letter hd, ih]
    rfl
  | @hex a b c d inside ha hb hc hd h ih =>
    obtain ⟨content, ih⟩ := ih
    obtain ⟨w, ha⟩ := Option.isSome_iff_exists.mp ha
    obtain ⟨x, hb⟩ := Option.isSome_iff_exists.mp hb
    obtain ⟨y, hc⟩ := Option.isSome_iff_exists.mp hc
    obtain ⟨z, hd⟩ := Option.isSome_iff_exists.mp hd
    refine ⟨content, fun rest => ?_⟩
    have hescape : strStep false .plain backslash = .ok (.escaped, []) := rfl
    have hletter : strStep false .escaped 0x75 = .ok (.hex 4 (some 0) none, []) := rfl
    have hfirst : strStep false (.hex 4 (some 0) none) a =
        .ok (.hex 3 (some (0 * 16 + w)) none, []) := by simp [strStep, ha]
    have hsecond : strStep false (.hex 3 (some (0 * 16 + w)) none) b =
        .ok (.hex 2 (some ((0 * 16 + w) * 16 + x)) none, []) := by simp [strStep, hb]
    have hthird : strStep false (.hex 2 (some ((0 * 16 + w) * 16 + x)) none) c =
        .ok (.hex 1 (some (((0 * 16 + w) * 16 + x) * 16 + y)) none, []) := by simp [strStep, hc]
    have hfourth : strStep false (.hex 1 (some (((0 * 16 + w) * 16 + x) * 16 + y)) none) d =
        .ok (.plain, []) := by simp [strStep, hd, finishHex]
    simp only [List.cons_append]
    rw [strFrom_plain (by decide) hescape, strFrom_escape (by simp) hletter,
      strFrom_escape (by simp) hfirst, strFrom_escape (by simp) hsecond,
      strFrom_escape (by simp) hthird, strFrom_escape (by simp) hfourth, ih]
    rfl

/-- **A string is skipped to its end.** -/
theorem skipStr_inside (h : IsInside inside) (rest : Bytes) :
    skipStr (inside ++ quoteOctet :: rest) = .ok rest := by
  obtain ⟨content, hcontent⟩ := exists_strFrom_inside h
  rw [skipStr, hcontent]
  rfl

end Strings

/-! ## §3 Steps -/

section Steps

variable {steps : Nat} {stack : List Bracket} {bracket : Bracket} {lead trail rest : Bytes}

/-- The octet that opens a bracket. -/
def Bracket.start : Bracket → UInt8
  | .list => 0x5B
  | .object => 0x7B

theorem skipSpace_skipSpace (bytes : Bytes) : skipSpace (skipSpace bytes) = skipSpace bytes :=
  List.dropWhile_idempotent isSpace bytes

/-- Blanks in front of an item do not matter. -/
theorem skipFrom_skipSpace (bytes : Bytes) :
    skipFrom steps bracket.item stack (skipSpace bytes) =
      skipFrom steps bracket.item stack bytes := by
  cases steps with
  | zero => rfl
  | succ steps =>
    cases bracket with
    | list => rw [Bracket.item, skipFrom, skipFrom, skipSpace_skipSpace]
    | object => rw [Bracket.item, skipFrom, skipFrom, skipSpace_skipSpace]

theorem skipFrom_start (bracket : Bracket) (rest : Bytes) :
    skipFrom (steps + 1) .value stack (bracket.start :: rest) =
      skipFrom steps .first (bracket :: stack) rest := by
  cases bracket <;> rfl

theorem isSpace_close : isSpace bracket.close = false := by
  cases bracket <;> rfl

theorem skipFrom_first_close (h : Blank lead) (rest : Bytes) :
    skipFrom (steps + 1) .first (bracket :: stack) (lead ++ bracket.close :: rest) =
      skipFrom steps .more stack rest := by
  rw [skipFrom, skipSpace_blank_cons h isSpace_close]
  exact if_pos rfl

theorem skipFrom_first_item {b : UInt8} {gap : Bytes} (hgap : Blank gap) (hlead : Blank lead)
    (hspace : isSpace b = false) (hclose : b ≠ bracket.close) (rest : Bytes) :
    skipFrom (steps + 1) .first (bracket :: stack) (gap ++ (lead ++ b :: rest)) =
      skipFrom steps bracket.item (bracket :: stack) (lead ++ b :: rest) := by
  rw [skipFrom, ← skipFrom_skipSpace (lead ++ b :: rest), skipSpace_blank_append hgap,
    skipSpace_blank_cons hlead hspace]
  exact if_neg hclose

theorem skipFrom_more_comma (h : Blank trail) (rest : Bytes) :
    skipFrom (steps + 1) .more (bracket :: stack) (trail ++ 0x2C :: rest) =
      skipFrom steps bracket.item (bracket :: stack) rest := by
  rw [skipFrom.eq_def]
  dsimp only
  rw [skipSpace_blank_cons h (by decide)]
  exact if_pos rfl

theorem skipFrom_more_close (h : Blank trail) (rest : Bytes) :
    skipFrom (steps + 1) .more (bracket :: stack) (trail ++ bracket.close :: rest) =
      skipFrom steps .more stack rest := by
  rw [skipFrom.eq_def]
  dsimp only
  rw [skipSpace_blank_cons h isSpace_close]
  cases bracket <;> rfl

/-- A scalar is skipped in one step. -/
theorem skipFrom_scalar {b : UInt8} (hspace : isSpace b = false) {text : Bytes}
    (h : skipToken b text = .ok (none, rest)) :
    skipFrom (steps + 1) .value stack (b :: text) = skipFrom steps .more stack rest := by
  rw [skipFrom, skipSpace_cons hspace]
  simp only [h]

end Steps

/-! ## §4 Values -/

/-- A text takes the skipper, in at most two steps per octet, from what it looks for to what may
follow a value, up to blanks; whatever brackets it is inside of and whatever follows. -/
def Skips (sought : Sought) (text : Bytes) : Prop :=
  ∃ (cost : Nat) (trail : Bytes), cost ≤ 2 * text.length ∧ Blank trail ∧
    ∀ steps stack rest, Delimited rest →
      skipFrom (steps + cost) sought stack (text ++ rest) =
        skipFrom steps .more stack (trail ++ rest)

/-- An item of a bracket does not begin as the bracket closes, and is skipped. -/
structure IsItem (bracket : Bracket) (text : Bytes) : Prop where
  begins : ∀ rest, ∃ lead b more, Blank lead ∧ isSpace b = false ∧ b ≠ bracket.close ∧
    text ++ rest = lead ++ b :: more
  skips : Skips bracket.item text

theorem delimited_close (bracket : Bracket) (rest : Bytes) :
    Delimited (bracket.close :: rest) := by
  cases bracket with
  | list => exact delimited_bracket rest
  | object => exact delimited_brace rest

/-- The items behind the first one and the end of the bracket. -/
theorem exists_skip_later {bracket : Bracket} {items : List Bytes}
    (h : ∀ item ∈ items, IsItem bracket item) :
    ∃ cost, cost ≤ 2 * (laterItems items).length + 1 ∧ ∀ {gap : Bytes}, Blank gap →
      ∀ steps stack rest,
        skipFrom (steps + cost) .more (bracket :: stack)
            (gap ++ (laterItems items ++ bracket.close :: rest)) =
          skipFrom steps .more stack rest := by
  induction items with
  | nil => exact ⟨1, by simp, fun hgap steps stack rest => skipFrom_more_close hgap rest⟩
  | cons item items ih =>
    obtain ⟨cost, hcost, hlater⟩ := ih fun item hi => h item (List.mem_cons_of_mem _ hi)
    obtain ⟨cost', trail, hcost', htrail, hskip⟩ := (h item List.mem_cons_self).skips
    refine ⟨cost + cost' + 1, ?_, fun hgap steps stack rest => ?_⟩
    · simp only [laterItems, List.flatMap_cons, List.length_append, List.length_cons] at hcost ⊢
      omega
    · have hrest := delimited_laterItems items (delimited_close bracket rest)
      rw [laterItems_cons_append, ← Nat.add_assoc, ← Nat.add_assoc, skipFrom_more_comma hgap,
        hskip _ _ _ hrest, hlater htrail]

/-- **A bracket is skipped** if each of its items is. -/
theorem skips_bracket {bracket : Bracket} {gap : Bytes} {items : List Bytes} (hgap : Blank gap)
    (h : ∀ item ∈ items, IsItem bracket item) :
    Skips .value
      (bracket.start :: (gap ++ List.intercalate [0x2C] items ++ [bracket.close])) := by
  cases items with
  | nil =>
    refine ⟨2, [], by simp, blank_nil, fun steps stack rest _ => ?_⟩
    have htext : bracket.start :: (gap ++ List.intercalate [0x2C] [] ++ [bracket.close]) ++ rest =
        bracket.start :: (gap ++ bracket.close :: rest) := by simp [List.intercalate]
    rw [htext, skipFrom_start, skipFrom_first_close hgap, List.nil_append]
  | cons item items =>
    obtain ⟨hbegins, cost, trail, hcost, htrail, hskip⟩ := h item List.mem_cons_self
    obtain ⟨cost', hcost', hlater⟩ :=
      exists_skip_later fun item hi => h item (List.mem_cons_of_mem _ hi)
    rw [intercalate_eq, ← laterItems]
    refine ⟨cost' + cost + 2, [], ?_, blank_nil, fun steps stack rest _ => ?_⟩
    · simp only [List.length_append, List.length_cons, List.length_nil]
      omega
    · have hrest := delimited_laterItems items (delimited_close bracket rest)
      obtain ⟨lead, b, more, hlead, hspace, hclose, hitem⟩ :=
        hbegins (laterItems items ++ bracket.close :: rest)
      have htext : bracket.start :: (gap ++ (item ++ laterItems items) ++ [bracket.close]) ++ rest =
          bracket.start :: (gap ++ (item ++ (laterItems items ++ bracket.close :: rest))) := by simp
      rw [htext, ← Nat.add_assoc, skipFrom_start, hitem,
        skipFrom_first_item hgap hlead hspace hclose, ← hitem, ← Nat.add_assoc, hskip _ _ _ hrest,
        hlater htrail, List.nil_append]

/-- Behind a key and its colon an object goes on as behind an item of a list. -/
theorem skips_pair {key value : Bytes} (hkey : IsKey key) (hvalue : Skips .value value) :
    Skips .key (pairText (key, value)) := by
  obtain ⟨hlead, htrail, hinside⟩ := hkey
  rename_i lead inside trail
  obtain ⟨cost, trail', hcost, htrail', hskip⟩ := hvalue
  refine ⟨cost + 1, trail', ?_, htrail', fun steps stack rest hrest => ?_⟩
  · simp only [pairText, List.length_append, List.length_cons]
    omega
  · have htext : pairText (lead ++ (stringText inside ++ trail), value) ++ rest =
        lead ++ quoteOctet :: (inside ++ quoteOctet :: (trail ++ 0x3A :: (value ++ rest))) := by
      simp [pairText, stringText]
    rw [htext, ← Nat.add_assoc, skipFrom, skipSpace_blank_cons hlead (by decide)]
    simp only [if_true, skipStr_inside hinside, colon_blank_cons htrail]
    exact hskip steps stack rest hrest

/-- A scalar is skipped if its first octet tells how it goes on. -/
theorem skips_scalar {b : UInt8} {text : Bytes} (hspace : isSpace b = false)
    (htoken : ∀ rest, Delimited rest → skipToken b (text ++ rest) = .ok (none, rest)) :
    Skips .value (b :: text) := by
  refine ⟨1, [], ?_, blank_nil, fun steps stack rest hrest =>
    skipFrom_scalar hspace (htoken rest hrest)⟩
  rw [List.length_cons]
  omega

theorem skips_magnitude {text : Bytes} (h : IsMagnitude text) : Skips .value text := by
  have hskip (rest : Bytes) (hrest : Delimited rest) := skipNumber_magnitude h hrest
  obtain ⟨b, more, rfl, hb⟩ := h.exists_head
  refine skips_scalar (isSpace_of_isDigit hb) fun rest hrest => ?_
  have hne {c : UInt8} (hc : isDigit c = false) : ¬ b = c := ne_of_isDigit hb hc
  rw [skipToken, if_neg (hne (by decide)), if_neg (hne (by decide)), if_neg (hne (by decide)),
    if_neg (hne (by decide)), if_pos hb, ← List.cons_append, hskip rest hrest]
  rfl

/-- Blanks around a value do not matter. -/
theorem Skips.between_blanks {lead value trail : Bytes} (hlead : Blank lead) (htrail : Blank trail)
    (h : Skips .value value) : Skips .value (lead ++ (value ++ trail)) := by
  obtain ⟨cost, trail', hcost, htrail', hskip⟩ := h
  refine ⟨cost, trail' ++ trail, ?_, fun b hb => ?_, fun steps stack rest hrest => ?_⟩
  · simp only [List.length_append]
    omega
  · exact (List.mem_append.mp hb).elim (htrail' b) (htrail b)
  · have hfrom (bytes : Bytes) : skipFrom (steps + cost) .value stack (skipSpace bytes) =
        skipFrom (steps + cost) .value stack bytes := @skipFrom_skipSpace _ _ .list bytes
    rw [List.append_assoc, List.append_assoc, List.append_assoc, ← hfrom,
      skipSpace_blank_append hlead, hfrom]
    exact hskip steps stack _ (htrail.delimited_append hrest)

/-- **Every value is skipped**, by induction on what it is made of. -/
theorem IsValue.skips {value : Bytes} (h : IsValue value) : Skips .value value := by
  refine @IsValue.rec (fun value _ => Skips .value value) (fun text _ => Skips .value text)
    ?null ?yes ?no ?positive ?negative ?string ?list ?object ?blanks value h
  case null => exact skips_scalar (by decide) fun rest _ => rfl
  case yes => exact skips_scalar (by decide) fun rest _ => rfl
  case no => exact skips_scalar (by decide) fun rest _ => rfl
  case positive =>
    intro text h
    exact skips_magnitude h
  case negative =>
    intro text h
    refine skips_scalar (by decide) fun rest hrest => ?_
    simp only [skipToken, skipNumber_magnitude h hrest]
    rfl
  case string =>
    intro inside h
    refine skips_scalar (by decide) fun rest _ => ?_
    have hskip := skipStr_inside h rest
    rw [List.append_assoc, List.singleton_append]
    simp only [skipToken, hskip]
    rfl
  case list =>
    intro gap items hgap hitems ih
    exact @skips_bracket .list _ _ hgap fun item hi => ⟨(hitems item hi).exists_head, ih item hi⟩
  case object =>
    intro gap members hgap hkeys hvalues ih
    refine @skips_bracket .object _ _ hgap fun item hi => ?_
    obtain ⟨m, hm, rfl⟩ := List.mem_map.mp hi
    refine ⟨fun rest => ?_, skips_pair (hkeys m hm) (ih m hm)⟩
    obtain ⟨key, value⟩ := m
    obtain ⟨hlead, -, -⟩ := hkeys _ hm
    rename_i lead inside trail
    exact ⟨lead, quoteOctet, inside ++ [quoteOctet] ++ trail ++ 0x3A :: (value ++ rest), hlead,
      by decide, by decide, by simp [pairText, stringText]⟩
  case blanks =>
    intro lead value trail hlead htrail h ih
    exact ih.between_blanks hlead htrail

/-- So is a value with blanks around it, -/
theorem IsElement.skips {text : Bytes} (h : IsElement text) : Skips .value text := by
  obtain ⟨hlead, htrail, hvalue⟩ := h
  exact hvalue.skips.between_blanks hlead htrail

/-- **and what is left behind it are blanks** and what followed it. -/
theorem IsElement.exists_skipValue {text : Bytes} (h : IsElement text) :
    ∃ trail, Blank trail ∧ ∀ rest, Delimited rest → skipValue (text ++ rest) = .ok (trail ++ rest) := by
  obtain ⟨cost, trail, hcost, htrail, hskip⟩ := h.skips
  refine ⟨trail, htrail, fun rest hrest => ?_⟩
  obtain ⟨left, hleft⟩ : ∃ left, 3 * (text ++ rest).length + 3 = left + 1 + cost := by
    refine ⟨3 * (text ++ rest).length + 2 - cost, ?_⟩
    rw [List.length_append]
    omega
  rw [skipValue, hleft, hskip _ _ _ hrest]
  rfl

end HueCycle.Json
