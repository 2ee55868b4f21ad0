/-
HueCycle.Proofs.Json.Reread — what becomes of a double that is written and
read back.

The numeral that is written lies in the interval of the double, so a reader
that took the nearest double would give it back. The reader here rounds the
significand, the power of ten and their product or quotient one after the
other, and may end a few units in the last place away (`reread_near`). It
gives the double itself when significand and power of ten are doubles
(`reread_exact`).
-/
import Mathlib
import HueCycle.Proofs.Json.Records
import HueCycle.Proofs.Json.Scale

namespace HueCycle.Json

open Binary64 Decimal

/-! ## §1 The numeral -/

/-- The numeral that the reader sees in the text of a magnitude. -/
def numeralOf (p : Parts) : Numeral := asRead (shortest .toEven p.mantissa p.exponent)

/-- What reading makes of a finite double that was written. -/
def reread (p : Parts) : Except Fault Float :=
  (scale (numeralOf p).significand (numeralOf p).exponent).map fun y =>
    if p.negative then -y else y

section Numeral

variable {x : Float} {p : Parts}

/-- The shortest numeral of a double other than zero is positive and in range. -/
theorem shortest_of_parts (hx : parts x = some p) (hne : p.mantissa ≠ 0) :
    (Span.around p.mantissa p.exponent).Contains (shortest .toEven p.mantissa p.exponent).value ∧
      0 < (shortest .toEven p.mantissa p.exponent).significand ∧
      (shortest .toEven p.mantissa p.exponent).significand ≤ 10 ^ 17 ∧
      -340 ≤ (shortest .toEven p.mantissa p.exponent).exponent ∧
      (shortest .toEven p.mantissa p.exponent).exponent ≤ 308 := by
  obtain ⟨hcontains, hdigits, hlow⟩ :=
    shortest_spec .toEven (Parts.onGrid hx hne) (canonical_of_parts hx).high
  generalize shortest .toEven p.mantissa p.exponent = n at hcontains hdigits hlow
  have hvalue : 0 < n.value :=
    (two_zpow_pos _).trans (lt_of_contains_onGrid (Parts.onGrid hx hne) hcontains)
  have hpos : 0 < n.significand := by
    refine Nat.pos_of_ne_zero fun hzero => hvalue.ne' ?_
    rw [Numeral.value, hzero, Nat.cast_zero, zero_mul]
  refine ⟨hcontains, hpos, hdigits, hlow, ?_⟩
  have hroom := (Nearest.of_contains hx hne hcontains).lt_overflow hx
  have hoverflow := two_zpow_sub (show 970 ≤ 1024 by decide)
  change overflow = _ at hoverflow
  rw [hoverflow] at hroom
  exact le_of_mul_zpow_le (by decide +kernel) hpos hroom.le

/-- So is the numeral that the reader sees. -/
theorem numeralOf_spec (hx : parts x = some p) (hne : p.mantissa ≠ 0) :
    (Span.around p.mantissa p.exponent).Contains (numeralOf p).value ∧
      0 < (numeralOf p).significand ∧ (numeralOf p).significand ≤ 10 ^ 17 ∧
      -340 ≤ (numeralOf p).exponent := by
  obtain ⟨hcontains, hpos, hdigits, hlow, -⟩ := shortest_of_parts hx hne
  refine ⟨(value_asRead _).symm ▸ hcontains, ?_, significand_asRead_le hdigits, ?_⟩
  · rw [numeralOf, asRead]
    split
    · exact Nat.mul_pos hpos (Nat.pow_pos (by decide))
    · exact hpos
  · rw [numeralOf, asRead]
    split
    · exact (by decide : (-340 : Int) ≤ -1)
    · exact hlow

theorem shortest_zero (tie : Tie) (q : Int) : shortest tie 0 q = ⟨0, 0⟩ := if_pos rfl

/-- Zero is written as zero. -/
theorem numeralOf_zero (h : p.mantissa = 0) : numeralOf p = ⟨0, -1⟩ := by
  rw [numeralOf, h, shortest_zero]
  decide

/-- **A double that was written is read back as `reread` says.** -/
theorem float_writeFloat (hx : parts x = some p) {rest : Bytes} (hrest : Delimited rest) :
    float (writeFloat x ++ rest) = (reread p).map (·, rest) := by
  have hread : ∀ negative, readNumber negative
      (octets (Style.json.magnitude (shortest .toEven p.mantissa p.exponent)) ++ rest) =
        readsAs negative (numeralOf p) rest := by
    intro negative
    by_cases hne : p.mantissa = 0
    · rw [numeralOf, hne, shortest_zero]
      exact readNumber_magnitude (fun _ => rfl) (by decide) (by decide) hrest
    · obtain ⟨-, hpos, hdigits, hlow, hhigh⟩ := shortest_of_parts hx hne
      exact readNumber_magnitude (fun h => absurd h hpos.ne') hdigits (by omega) hrest
  have hchars : Style.json.chars x =
      if p.negative then '-' :: Style.json.magnitude (shortest .toEven p.mantissa p.exponent)
      else Style.json.magnitude (shortest .toEven p.mantissa p.exponent) := by
    rw [Style.chars, hx]
    rfl
  change float (octets (Style.json.chars x) ++ rest) = _
  rw [hchars, float, number_magnitude, hread, readsAs, reread]
  cases scale (numeralOf p).significand (numeralOf p).exponent <;> rfl

end Numeral

/-! ## §2 How near -/

section Near

variable {x : Float} {p : Parts}

/-- A double that is not negative, with a sign. -/
theorem parts_withSign {y : Float} {q : Parts} (hy : parts y = some q)
    (hq : q.negative = false) (negative : Bool) :
    parts (if negative then -y else y) = some { q with negative := negative } := by
  cases negative with
  | false =>
    rw [if_neg Bool.false_ne_true, hy, ← hq]
  | true =>
    rw [if_pos rfl, parts_neg hy, hq]
    rfl

/-- A double is read back as it was when its magnitude is. -/
theorem reread_of_magnitude (hx : parts x = some p)
    (h : (scale (numeralOf p).significand (numeralOf p).exponent).toOption.bind parts =
      some { p with negative := false }) : reread p = .ok x := by
  cases hscale : scale (numeralOf p).significand (numeralOf p).exponent with
  | error fault =>
    rw [hscale] at h
    exact absurd h (by simp [Except.toOption])
  | ok y =>
    rw [hscale] at h
    have hsigned := parts_withSign h rfl p.negative
    rw [reread, hscale, ← eq_of_parts hsigned hx]
    rfl

/-- A result is known by its bits. -/
theorem eq_ok_of_toBits {r : Except Fault Float} {y : Float}
    (h : r.toOption.map Float.toBits = some y.toBits) : r = .ok y := by
  cases r with
  | error fault => exact absurd h (by simp [Except.toOption])
  | ok z => rw [toBits_injective (Option.some.inj h)]

/-- Zero is read back as it was, -/
theorem reread_zero (hx : parts x = some p) (h : p.mantissa = 0) : reread p = .ok x := by
  refine reread_of_magnitude hx ?_
  have hexponent : p.exponent = -1074 :=
    (canonical_of_parts hx).full.resolve_left (by rw [h]; decide)
  rw [numeralOf_zero h, h, hexponent]
  decide +kernel

theorem largest_table :
    (scale (numeralOf ⟨false, 2 ^ 53 - 1, 971⟩).significand
      (numeralOf ⟨false, 2 ^ 53 - 1, 971⟩).exponent).toOption.bind parts =
        some ⟨false, 2 ^ 53 - 1, 971⟩ := by
  decide +kernel

/-- and so is the largest double. -/
theorem reread_largest (hx : parts x = some p) (hm : p.mantissa = 2 ^ 53 - 1)
    (he : p.exponent = 971) : reread p = .ok x := by
  refine reread_of_magnitude hx ?_
  have hsame : numeralOf p = numeralOf ⟨false, 2 ^ 53 - 1, 971⟩ := by
    rw [numeralOf, numeralOf, hm, he]
  rw [hsame, largest_table, hm, he]

theorem natCast_mul_two_pow (n k : Nat) : ((n * 2 ^ k : Nat) : ℚ) = scaled n k := by
  rw [scaled, zpow_natCast]
  push_cast
  rfl

/-- No other double has an interval above the one of the second largest. -/
theorem le_nextToLast (hp : p.Canonical) (hless : ¬(p.mantissa = 2 ^ 53 - 1 ∧ p.exponent = 971))
    {r : ℚ} (h : (Span.around p.mantissa p.exponent).Contains r) : r ≤ nextToLast := by
  have hhigh : r ≤ scaled (4 * p.mantissa + 2) (p.exponent - 2) := h.bounds.2
  have hm := hp.lt
  have he := hp.high
  obtain ⟨k, hk⟩ : ∃ k : Nat, ((969 : Nat) : Int) = p.exponent - 2 + k :=
    ⟨(971 - p.exponent).toNat, by omega⟩
  rw [nextToLast, natCast_mul_two_pow, hk, scaled_add_nat]
  refine hhigh.trans (scaled_le_scaled.mpr ?_)
  rcases Nat.eq_zero_or_pos k with rfl | hpos
  · have : p.mantissa ≠ 2 ^ 53 - 1 := fun hmost => hless ⟨hmost, by omega⟩
    omega
  · have hdouble : 2 ≤ 2 ^ k := Nat.le_self_pow hpos.ne' 2
    calc 4 * p.mantissa + 2 ≤ (4 * 2 ^ 53 - 6) * 2 := by omega
      _ ≤ (4 * 2 ^ 53 - 6) * 2 ^ k := Nat.mul_le_mul_left _ hdouble

/-- What the reader may lose of a number is less than six units in the last place. -/
theorem error_le_units (hp : p.Canonical) (hne : p.mantissa ≠ 0) {r t : ℚ}
    (h : (Span.around p.mantissa p.exponent).Contains r)
    (ht : |t - r| ≤ max (26 / 5 * (r * roundoff)) (6 * half)) :
    |t - p.magnitude| ≤ 6 * 2 ^ p.exponent := by
  obtain ⟨unit, hunit⟩ : ∃ unit : ℚ, unit = 2 ^ p.exponent := ⟨_, rfl⟩
  have hpos : 0 < unit := hunit ▸ two_zpow_pos _
  have hcenter : |p.magnitude - r| ≤ unit / 2 := by
    have hhalf := abs_sub_le_of_contains (Nat.pos_of_ne_zero hne) h
    rwa [zpow_sub_one₀ (by norm_num), ← hunit, ← div_eq_mul_inv] at hhalf
  have hvalue : p.magnitude ≤ (2 ^ 53 - 1) * unit := by
    rw [Parts.magnitude, scaled, ← hunit]
    refine mul_le_mul_of_nonneg_right ?_ hpos.le
    have := hp.lt
    have hle : p.mantissa + 1 ≤ 2 ^ 53 := this
    have hcast : ((p.mantissa + 1 : Nat) : ℚ) ≤ ((2 ^ 53 : Nat) : ℚ) := Nat.cast_le.mpr hle
    push_cast at hcast
    linarith
  have hroundoff : r * roundoff ≤ unit := by
    have hr : r ≤ 2 ^ 53 * unit := by
      have := (abs_le.mp hcenter).1
      linarith
    calc r * roundoff ≤ 2 ^ 53 * unit * roundoff :=
          mul_le_mul_of_nonneg_right hr roundoff_pos.le
      _ = unit := by
          rw [roundoff_eq]
          ring
  have hleast : 6 * half ≤ 3 * unit := by
    have hgrid : (2 : ℚ) ^ (-1074 : Int) ≤ unit :=
      hunit ▸ zpow_le_zpow_right₀ (by norm_num) hp.low
    have hsplit : 2 * half = (2 : ℚ) ^ (-1074 : Int) := by
      rw [half, show (-1074 : Int) = 1 + -1075 by norm_num, two_zpow_add, zpow_one]
    linarith
  have hlost : |t - r| ≤ 26 / 5 * unit := ht.trans (max_le (by linarith) (by linarith))
  rw [← hunit]
  calc |t - p.magnitude| = |(t - r) - (p.magnitude - r)| := by congr 1; ring
    _ ≤ |t - r| + |p.magnitude - r| := abs_sub _ _
    _ ≤ 6 * unit := by linarith

/-- **A finite double that was written is read back as one with the same sign, at most six units in
the last place away.** -/
theorem reread_near (hx : parts x = some p) :
    ∃ y q, reread p = .ok y ∧ parts y = some q ∧ q.negative = p.negative ∧
      |q.magnitude - p.magnitude| ≤ 6 * 2 ^ p.exponent := by
  have hself : |p.magnitude - p.magnitude| ≤ 6 * 2 ^ p.exponent := by
    rw [sub_self, abs_zero]
    exact mul_nonneg (by norm_num) (two_zpow_pos _).le
  by_cases hne : p.mantissa = 0
  · exact ⟨x, p, reread_zero hx hne, hx, rfl, hself⟩
  by_cases hlargest : p.mantissa = 2 ^ 53 - 1 ∧ p.exponent = 971
  · exact ⟨x, p, reread_largest hx hlargest.1 hlargest.2, hx, rfl, hself⟩
  obtain ⟨hcontains, hpos, hdigits, hlow⟩ := numeralOf_spec hx hne
  obtain ⟨y, hscale, q, hy, hq, hnear⟩ := scale_spec hpos hdigits (by omega)
    (le_nextToLast (canonical_of_parts hx) hlargest hcontains)
  refine ⟨_, _, by rw [reread, hscale]; rfl, parts_withSign hy hq p.negative, rfl, ?_⟩
  exact error_le_units (canonical_of_parts hx) hne hcontains hnear

/-- **It is read back as it was** if the significand and the power of ten are doubles. -/
theorem reread_exact (hx : parts x = some p) (hsignificand : (numeralOf p).significand < 2 ^ 53)
    (hexponent : (numeralOf p).exponent.natAbs ≤ 22) : reread p = .ok x := by
  by_cases hne : p.mantissa = 0
  · exact reread_zero hx hne
  obtain ⟨hcontains, hpos, -, -⟩ := numeralOf_spec hx hne
  obtain ⟨y, hscale, hy⟩ := scale_exact hpos hsignificand hexponent
  refine reread_of_magnitude hx ?_
  -- the magnitude of `x` is the double nearest to the numeral too
  obtain ⟨z, hz⟩ : ∃ z, parts z = some { p with negative := false } := by
    cases hsign : p.negative with
    | false => exact ⟨x, by rw [hx, ← hsign]⟩
    | true => exact ⟨-x, by rw [parts_neg hx, hsign]; rfl⟩
  have hnearest : Nearest false (numeralOf p).value z := Nearest.of_contains hz hne hcontains
  rw [hscale, hy.unique hnearest (hnearest.lt_overflow hz)]
  exact hz

/-- What a finite double may become when it is written and read back: a double with the same sign
and at most six units in the last place away, and itself if the significand and the power of ten
are doubles. -/
def ReadsBack (x y : Float) : Prop :=
  ∃ p q, parts x = some p ∧ parts y = some q ∧ q.negative = p.negative ∧
    |q.magnitude - p.magnitude| ≤ 6 * 2 ^ p.exponent ∧
    ((numeralOf p).significand < 2 ^ 53 → (numeralOf p).exponent.natAbs ≤ 22 → y = x)

/-- Where the numeral is known, a double comes back as it was. -/
theorem ReadsBack.eq {y : Float} (h : ReadsBack x y) (hx : parts x = some p)
    (hsignificand : (numeralOf p).significand < 2 ^ 53)
    (hexponent : (numeralOf p).exponent.natAbs ≤ 22) : y = x := by
  obtain ⟨p', q, hx', -, -, -, hexact⟩ := h
  obtain rfl := Option.some.inj (hx.symm.trans hx')
  exact hexact hsignificand hexponent

/-- **Every finite double is read back so.** -/
theorem exists_readsBack (hx : parts x = some p) :
    ∃ y, reread p = .ok y ∧ ReadsBack x y := by
  obtain ⟨y, q, hy, hq, hsign, hnear⟩ := reread_near hx
  refine ⟨y, hy, p, q, hx, hq, hsign, hnear, fun hsignificand hexponent => ?_⟩
  exact Except.ok.inj (hy.symm.trans (reread_exact hx hsignificand hexponent))

/-- A finite double is read as `reread` says. -/
theorem reads_float {y : Float} (hx : parts x = some p) (hy : reread p = .ok y) :
    Reads float (writeFloat x) y := by
  intro rest hrest
  rw [float_writeFloat hx hrest, hy]
  rfl

end Near

end HueCycle.Json
