/-
HueCycle.Proofs.Decimal.Shortest — the shortest numeral of a double rounds
to that double.

The search looks at one decimal grid after the other, from the leading
digit of the value downwards, and takes a point of the first grid that has
one in the interval of the double. That a grid is reached which has one is
a matter of widths: `isSome_nearestOn?_of_fine` says that the grid of
seventeen digits is finer than any of the intervals. It starts at the
leading digit since the estimate of that digit, taken from binary lengths,
is never too high and at most three too low (`estimate_bounds`).
-/
import Mathlib
import HueCycle.Proofs.Numeric.WholeNumbers

namespace HueCycle.Decimal

open Binary64

/-! ## §1 Ratios -/

/-- The number that a numeral states. -/
def Numeral.value (n : Numeral) : ℚ := n.significand * 10 ^ n.exponent

theorem ten_zpow_pos (e : Int) : (0 : ℚ) < 10 ^ e := zpow_pos (by norm_num) e

theorem ten_zpow_add (e f : Int) : (10 : ℚ) ^ (e + f) = 10 ^ e * 10 ^ f :=
  zpow_add₀ (by norm_num) e f

namespace Ratio

/-- The number that a ratio states. -/
def value (r : Ratio) : ℚ := r.num / r.den

theorem den_ofBinary_pos (n : Nat) (q : Int) : 0 < (ofBinary n q).den := by
  unfold ofBinary
  split
  · exact Nat.one_pos
  · exact Nat.two_pow_pos _

theorem num_ofBinary_pos {n : Nat} (h : 0 < n) (q : Int) : 0 < (ofBinary n q).num := by
  unfold ofBinary
  split
  · rw [Nat.shiftLeft_eq]
    exact Nat.mul_pos h (Nat.two_pow_pos _)
  · exact h

theorem value_ofBinary (n : Nat) (q : Int) : (ofBinary n q).value = scaled n q := by
  unfold ofBinary
  split
  · rename_i hq
    obtain ⟨k, rfl⟩ : ∃ k : Nat, q = k := ⟨q.toNat, by omega⟩
    simp [value, scaled, Nat.shiftLeft_eq]
  · rename_i hq
    obtain ⟨k, rfl⟩ : ∃ k : Nat, q = -(k : Int) := ⟨(-q).toNat, by omega⟩
    simp [value, scaled, div_eq_mul_inv]

theorem den_scaleDown_pos {r : Ratio} (h : 0 < r.den) (e : Int) : 0 < (r.scaleDown e).den := by
  unfold scaleDown
  split
  · exact Nat.mul_pos h (Nat.pow_pos (by decide))
  · exact h

theorem value_scaleDown (r : Ratio) (e : Int) : (r.scaleDown e).value = r.value / 10 ^ e := by
  unfold scaleDown
  split
  · rename_i he
    obtain ⟨k, rfl⟩ : ∃ k : Nat, e = k := ⟨e.toNat, by omega⟩
    simp [value, div_div]
  · rename_i he
    obtain ⟨k, rfl⟩ : ∃ k : Nat, e = -(k : Int) := ⟨(-e).toNat, by omega⟩
    simp [value, mul_div_right_comm]

theorem le_value_iff {r : Ratio} (h : 0 < r.den) {n : Nat} :
    (n : ℚ) ≤ r.value ↔ n * r.den ≤ r.num := by
  rw [value, le_div_iff₀ (by exact_mod_cast h)]
  exact_mod_cast Iff.rfl

theorem value_le_iff {r : Ratio} (h : 0 < r.den) {n : Nat} :
    r.value ≤ n ↔ r.num ≤ n * r.den := by
  rw [value, div_le_iff₀ (by exact_mod_cast h)]
  exact_mod_cast Iff.rfl

theorem reaches_iff {r : Ratio} (h : 0 < r.den) {e : Int} :
    r.reaches e = true ↔ 10 ^ e ≤ r.value := by
  have hone := le_value_iff (den_scaleDown_pos h e) (n := 1)
  rw [Nat.cast_one, value_scaleDown, one_le_div₀ (ten_zpow_pos e), Nat.one_mul] at hone
  rw [reaches, decide_eq_true_eq, hone]

/-- The whole part of a ratio. -/
theorem floor_value (r : Ratio) : ⌊r.value⌋₊ = r.num / r.den := by
  rw [value, Nat.floor_div_natCast, Nat.floor_natCast]

end Ratio

/-! ## §2 The leading digit -/

theorem climb_le {r : Ratio} (hden : 0 < r.den) (steps : Nat) {e : Int} (h : 10 ^ e ≤ r.value) :
    10 ^ climb r steps e ≤ r.value := by
  induction steps generalizing e with
  | zero => exact h
  | succ steps ih =>
    rw [climb]
    split
    · rename_i hreaches
      exact ih ((Ratio.reaches_iff hden).mp hreaches)
    · exact h

theorem lt_climb {r : Ratio} (hden : 0 < r.den) (steps : Nat) {e : Int}
    (h : r.value < 10 ^ (e + steps + 1)) : r.value < 10 ^ (climb r steps e + 1) := by
  induction steps generalizing e with
  | zero => simpa [climb] using h
  | succ steps ih =>
    rw [climb]
    split
    · refine ih ?_
      rwa [show e + 1 + steps + 1 = e + (steps + 1 : Nat) + 1 by push_cast; ring]
    · rename_i hreaches
      rw [Ratio.reaches_iff hden] at hreaches
      exact not_le.mp hreaches

/-- Powers with integer exponents are compared by powers with natural ones. -/
theorem zpow_le_zpow_iff {x y : Nat} (hx : 0 < x) (hy : 0 < y) {e f : Int} :
    (x : ℚ) ^ e ≤ (y : ℚ) ^ f ↔
      x ^ e.toNat * y ^ (-f).toNat ≤ y ^ f.toNat * x ^ (-e).toNat := by
  have hsplit {z : Nat} (hz : 0 < z) (k : Int) :
      (z : ℚ) ^ k = (z : ℚ) ^ k.toNat / (z : ℚ) ^ (-k).toNat := by
    rw [← zpow_natCast, ← zpow_natCast, ← zpow_sub₀ (by exact_mod_cast hz.ne')]
    congr 1
    omega
  have hx' : (0 : ℚ) < x := by exact_mod_cast hx
  have hy' : (0 : ℚ) < y := by exact_mod_cast hy
  rw [hsplit hx, hsplit hy, div_le_div_iff₀ (by positivity) (by positivity)]
  exact_mod_cast Iff.rfl

/-- The estimate of the leading decimal exponent that a binary length gives. -/
def estimate (binary : Int) : Int := (binary * 30103).fdiv 100000 - 1

/-- For all lengths that occur the estimate is not too high, and at most three too low. -/
theorem estimate_table : ∀ i : Nat, i < 2101 →
    10 ^ (estimate (i - 1076)).toNat * 2 ^ (-(i - 1076) : Int).toNat ≤
        2 ^ (i - 1076 : Int).toNat * 10 ^ (-estimate (i - 1076)).toNat ∧
      2 ^ (i - 1076 + 2 : Int).toNat * 10 ^ (-(estimate (i - 1076) + 5)).toNat ≤
        10 ^ (estimate (i - 1076) + 5).toNat * 2 ^ (-(i - 1076 + 2) : Int).toNat := by
  decide +kernel

theorem estimate_bounds {b : Int} (hlow : -1076 ≤ b) (hhigh : b < 1025) :
    (10 : ℚ) ^ estimate b ≤ 2 ^ b ∧ (2 : ℚ) ^ (b + 2) ≤ 10 ^ (estimate b + 5) := by
  obtain ⟨i, hi⟩ : ∃ i : Nat, b = (i : Int) - 1076 := ⟨(b + 1076).toNat, by omega⟩
  obtain ⟨hle, hge⟩ := estimate_table i (by omega)
  rw [← hi] at hle hge
  exact ⟨by exact_mod_cast (zpow_le_zpow_iff (by decide) (by decide)).mpr hle,
    by exact_mod_cast (zpow_le_zpow_iff (by decide) (by decide)).mpr hge⟩

/-- A ratio lies between powers of two of its binary lengths. -/
theorem Ratio.value_between {r : Ratio} (hnum : 0 < r.num) (hden : 0 < r.den) {b : Int}
    (hb : b = (Nat.log2 r.num : Int) - (Nat.log2 r.den : Int) - 1) :
    2 ^ b ≤ r.value ∧ r.value < 2 ^ (b + 2) := by
  have hlow (n : Nat) (hn : 0 < n) : (2 : ℚ) ^ (n.log2 : Int) ≤ n := by
    exact_mod_cast Nat.log2_self_le hn.ne'
  have hhigh (n : Nat) : (n : ℚ) < 2 ^ ((n.log2 : Int) + 1) := by
    exact_mod_cast Nat.lt_log2_self
  have hden' : (0 : ℚ) < r.den := by exact_mod_cast hden
  constructor
  · rw [value, le_div_iff₀ hden']
    calc (2 : ℚ) ^ b * r.den ≤ 2 ^ b * 2 ^ ((r.den.log2 : Int) + 1) :=
          mul_le_mul_of_nonneg_left (hhigh _).le (two_zpow_pos b).le
      _ = 2 ^ (r.num.log2 : Int) := by rw [← two_zpow_add]; congr 1; omega
      _ ≤ r.num := hlow _ hnum
  · rw [value, div_lt_iff₀ hden']
    calc (r.num : ℚ) < 2 ^ ((r.num.log2 : Int) + 1) := hhigh _
      _ = 2 ^ (b + 2) * 2 ^ (r.den.log2 : Int) := by rw [← two_zpow_add]; congr 1; omega
      _ ≤ 2 ^ (b + 2) * r.den := mul_le_mul_of_nonneg_left (hlow _ hden) (two_zpow_pos _).le

/-- **The leading digit** of a ratio in the range of doubles. -/
theorem leadingExponent_spec {r : Ratio} (hnum : 0 < r.num) (hden : 0 < r.den)
    (hlow : (2 : ℚ) ^ (-1074 : Int) ≤ r.value) (hhigh : r.value < 2 ^ (1024 : Int)) :
    10 ^ leadingExponent r ≤ r.value ∧ r.value < 10 ^ (leadingExponent r + 1) := by
  obtain ⟨b, hb⟩ : ∃ b : Int, b = (Nat.log2 r.num : Int) - (Nat.log2 r.den : Int) - 1 := ⟨_, rfl⟩
  obtain ⟨hbelow, habove⟩ := Ratio.value_between hnum hden hb
  have hleast : -1074 < b + 2 :=
    (zpow_lt_zpow_iff_right₀ (by norm_num : (1 : ℚ) < 2)).mp (hlow.trans_lt habove)
  have hmost : b < 1024 :=
    (zpow_lt_zpow_iff_right₀ (by norm_num : (1 : ℚ) < 2)).mp (hbelow.trans_lt hhigh)
  obtain ⟨hnotHigh, hnotLow⟩ := estimate_bounds (b := b) (by omega) (by omega)
  have hlead : leadingExponent r = climb r 4 (estimate b) := by
    rw [leadingExponent, ← hb]
    rfl
  rw [hlead]
  exact ⟨climb_le hden 4 (hnotHigh.trans hbelow),
    lt_climb hden 4 (by rw [add_assoc]; exact habove.trans_le hnotLow)⟩

/-! ## §3 The points of a grid -/

namespace Span

variable {s : Span} {tie : Tie} {e : Int}

theorem holds_iff {n : Numeral} : s.holds n = true ↔ s.Contains n.value := by
  have hlow := Ratio.den_scaleDown_pos (Ratio.den_ofBinary_pos s.low s.unit) n.exponent
  have hhigh := Ratio.den_scaleDown_pos (Ratio.den_ofBinary_pos s.high s.unit) n.exponent
  have hpower := ten_zpow_pos n.exponent
  have hvalue (m : Nat) : ((Ratio.ofBinary m s.unit).scaleDown n.exponent).value =
      scaled m s.unit / 10 ^ n.exponent := by
    rw [Ratio.value_scaleDown, Ratio.value_ofBinary]
  have hlowIff := Ratio.value_le_iff hlow (n := n.significand)
  have hhighIff := Ratio.le_value_iff hhigh (n := n.significand)
  have hlowIff' := Ratio.le_value_iff hlow (n := n.significand)
  have hhighIff' := Ratio.value_le_iff hhigh (n := n.significand)
  rw [hvalue, div_le_iff₀ hpower] at hlowIff hhighIff'
  rw [hvalue, le_div_iff₀ hpower] at hhighIff hlowIff'
  unfold holds Contains
  cases s.closed with
  | true =>
    simp only [if_true, Bool.and_eq_true, decide_eq_true_eq]
    exact and_congr hlowIff.symm hhighIff.symm
  | false =>
    simp only [Bool.false_eq_true, if_false, Bool.and_eq_true, decide_eq_true_eq]
    rw [← not_le, ← not_le, ← not_le, ← not_le]
    exact and_congr (not_congr hlowIff'.symm) (not_congr hhighIff'.symm)

/-- The number inside of an interval that its double stands for. -/
def center (s : Span) : ℚ := scaled s.value s.unit

/-- The points of a grid from the last one that is not above the center. -/
def point (s : Span) (e : Int) (k : Nat) : Numeral := ⟨⌊s.center / 10 ^ e⌋₊ + k, e⟩

/-- A grid is left without a point only if neither of the two next to the center is in the
interval. -/
theorem nearestOn?_spec (s : Span) (tie : Tie) (e : Int) :
    (s.nearestOn? tie e = none →
      ¬ s.Contains (s.point e 0).value ∧ ¬ s.Contains (s.point e 1).value) ∧
    ∀ n, s.nearestOn? tie e = some n →
      s.Contains n.value ∧ (n = s.point e 0 ∨ n = s.point e 1) := by
  obtain ⟨value, hvalue⟩ : ∃ r, r = (Ratio.ofBinary s.value s.unit).scaleDown e := ⟨_, rfl⟩
  have hfloor : value.num / value.den = ⌊s.center / 10 ^ e⌋₊ := by
    rw [← Ratio.floor_value, hvalue, Ratio.value_scaleDown, Ratio.value_ofBinary, center]
  obtain ⟨k, hk⟩ : ∃ k, k = ⌊s.center / 10 ^ e⌋₊ := ⟨_, rfl⟩
  have hbelow : s.point e 0 = ⟨k, e⟩ := hk ▸ rfl
  have habove : s.point e 1 = ⟨k + 1, e⟩ := hk ▸ rfl
  have htake {m : Numeral} {P : Prop} (hin : s.holds m = true) (hm : m = ⟨k, e⟩ ∨ m = ⟨k + 1, e⟩) :
      (some m = none → P) ∧ ∀ n, some m = some n →
        s.Contains n.value ∧ (n = ⟨k, e⟩ ∨ n = ⟨k + 1, e⟩) :=
    ⟨fun h => absurd h (Option.some_ne_none m),
      fun n hn => Option.some.inj hn ▸ ⟨holds_iff.mp hin, hm⟩⟩
  rw [hbelow, habove, ← holds_iff, ← holds_iff]
  unfold nearestOn?
  dsimp only
  rw [← hvalue, hfloor, ← hk]
  cases hin : s.holds ⟨k, e⟩ with
  | false =>
    cases hin' : s.holds ⟨k + 1, e⟩ with
    | false => exact ⟨fun _ => ⟨by simp, by simp⟩, fun n hn => absurd hn.symm (Option.some_ne_none n)⟩
    | true => exact htake hin' (.inr rfl)
  | true =>
    cases hin' : s.holds ⟨k + 1, e⟩ with
    | false => exact htake hin (.inl rfl)
    | true =>
      dsimp only
      split
      · exact htake hin (.inl rfl)
      · split
        · exact htake hin' (.inr rfl)
        · cases tie with
          | up => exact htake hin' (.inr rfl)
          | toEven =>
            dsimp only
            split
            · exact htake hin (.inl rfl)
            · exact htake hin' (.inr rfl)

/-- The two points next to the center lie around it. -/
theorem point_around (s : Span) (e : Int) :
    (s.point e 0).value ≤ s.center ∧ s.center < (s.point e 0).value + 10 ^ e ∧
      (s.point e 1).value = (s.point e 0).value + 10 ^ e := by
  have hpower := ten_zpow_pos e
  have hcenter : 0 ≤ s.center / 10 ^ e :=
    div_nonneg (mul_nonneg (Nat.cast_nonneg _) (two_zpow_pos _).le) hpower.le
  have hle := Nat.floor_le hcenter
  have hlt := Nat.lt_floor_add_one (s.center / 10 ^ e)
  rw [le_div_iff₀ hpower] at hle
  rw [div_lt_iff₀ hpower] at hlt
  simp only [point, Numeral.value]
  push_cast
  exact ⟨by linarith, by linarith, by ring⟩

theorem center_around {m : Nat} {q : Int} : (around m q).center = scaled m q := by
  show scaled (4 * m) (q - 2) = scaled m q
  rw [show q = q - 2 + (2 : Nat) by push_cast; ring, scaled_add_nat, Nat.mul_comm]
  congr 1
  push_cast
  ring

/-- **A grid of seventeen digits has a point in the interval.** -/
theorem nearestOn?_ne_none_of_fine {m : Nat} {q : Int} (h : OnGrid m q)
    (hfine : 10 ^ (e + 16) ≤ scaled m q) : (around m q).nearestOn? tie e ≠ none := by
  intro hnone
  obtain ⟨hbelow, habove⟩ := ((around m q).nearestOn?_spec tie e).1 hnone
  obtain ⟨hle, hlt, hnext⟩ := (around m q).point_around e
  have hself := contains_self h
  have hbounds := hself.bounds
  rw [center_around] at hle hlt
  -- the point below misses the interval at its lower end, the one above at its upper end
  have hlow : ((around m q).point e 0).value ≤ scaled (around m q).low (q - 2) := by
    by_contra hgt
    refine hbelow ?_
    unfold Contains at hself ⊢
    split
    · exact ⟨(not_le.mp hgt).le, hle.trans hbounds.2⟩
    · rename_i hopen
      rw [if_neg hopen] at hself
      exact ⟨not_le.mp hgt, hle.trans_lt hself.2⟩
  have hhigh : scaled (around m q).high (q - 2) ≤ ((around m q).point e 1).value := by
    by_contra hgt
    refine habove ?_
    unfold Contains at hself ⊢
    split
    · exact ⟨hbounds.1.trans (hnext ▸ hlt.le), (not_le.mp hgt).le⟩
    · rename_i hopen
      rw [if_neg hopen] at hself
      exact ⟨hself.1.trans (hnext ▸ hlt), not_le.mp hgt⟩
  -- so the step is as wide as the interval
  have hwidth : ((4 * m + 2 : Nat) - ((around m q).low : ℚ)) * 2 ^ (q - 2) ≤ 10 ^ e := by
    have hhigh' : scaled (4 * m + 2) (q - 2) ≤ ((around m q).point e 1).value := hhigh
    rw [scaled] at hlow hhigh'
    linarith
  have hvalue : scaled m q = 4 * m * 2 ^ (q - 2) := by
    rw [scaled, show q = 2 + (q - 2) by ring, two_zpow_add]
    norm_num
    ring
  have hunit := two_zpow_pos (q - 2)
  have hwide : ((4 * m + 2 : Nat) - ((around m q).low : ℚ)) * 10 ^ 16 ≤ 4 * m := by
    rw [hvalue, ten_zpow_add] at hfine
    refine le_of_mul_le_mul_right ?_ hunit
    calc ((4 * m + 2 : Nat) - ((around m q).low : ℚ)) * 10 ^ 16 * 2 ^ (q - 2) =
          ((4 * m + 2 : Nat) - ((around m q).low : ℚ)) * 2 ^ (q - 2) * 10 ^ 16 := by ring
      _ ≤ 10 ^ e * 10 ^ 16 := by gcongr
      _ ≤ 4 * m * 2 ^ (q - 2) := hfine
  have hlt' := h.lt
  have hlowNat := low_around_le m q
  have hpos := h.pos
  by_cases hhalf : m = 2 ^ 52 ∧ q ≠ -1074
  · have hends : (around m q).low = 4 * m - 1 := by
      rw [hhalf.1, low_around_of_full hhalf.2]
    rw [hends, hhalf.1] at hwide
    norm_num at hwide
  · have hends : (around m q).low = 4 * m - 2 := if_neg hhalf
    have hsub : ((4 * m - 2 : Nat) : ℚ) = 4 * m - 2 := by
      rw [Nat.cast_sub (by omega)]
      push_cast
      ring
    have hm : (m : ℚ) < 9007199254740992 := by exact_mod_cast hlt'
    rw [hends, hsub] at hwide
    push_cast at hwide
    norm_num at hwide
    linarith

/-! ## §4 The search -/

/-- The search takes the point of the first grid that has one. -/
theorem search_spec {steps : Nat} (h : ∃ k < steps, s.nearestOn? tie (e - k) ≠ none) :
    ∃ k < steps, s.nearestOn? tie (e - k) = some (s.search tie steps e) := by
  induction steps generalizing e with
  | zero =>
    obtain ⟨k, hk, -⟩ := h
    exact absurd hk (Nat.not_lt_zero k)
  | succ steps ih =>
    rw [search]
    cases hfirst : s.nearestOn? tie e with
    | some n => exact ⟨0, Nat.succ_pos _, by simpa using hfirst⟩
    | none =>
      have hshift (k : Nat) : e - 1 - (k : Int) = e - (k + 1 : Nat) := by
        push_cast
        ring
      obtain ⟨k, hk, hsome⟩ := h
      obtain ⟨j, rfl⟩ : ∃ j, k = j + 1 := by
        refine ⟨k - 1, ?_⟩
        rcases Nat.eq_zero_or_pos k with rfl | hpos
        · exact absurd (by simpa using hfirst) hsome
        · omega
      obtain ⟨i, hi, hfound⟩ := ih (e := e - 1) ⟨j, by omega, by rwa [hshift]⟩
      exact ⟨i + 1, by omega, by rwa [← hshift]⟩

end Span

/-- Dropping zeros at the end keeps the number. -/
theorem Numeral.trim_spec (steps : Nat) (n : Numeral) :
    (n.trim steps).value = n.value ∧ (n.trim steps).significand ≤ n.significand ∧
      n.exponent ≤ (n.trim steps).exponent := by
  induction steps generalizing n with
  | zero => exact ⟨rfl, le_refl _, le_refl _⟩
  | succ steps ih =>
    rw [trim]
    split
    · rename_i hzero
      obtain ⟨hvalue, hle, hexponent⟩ := ih ⟨n.significand / 10, n.exponent + 1⟩
      refine ⟨hvalue.trans ?_, hle.trans (Nat.div_le_self _ _), by
        have : n.exponent + 1 ≤ _ := hexponent
        omega⟩
      have htimes : (n.significand : ℚ) = (n.significand / 10 : Nat) * 10 := by
        exact_mod_cast (Nat.div_mul_cancel (Nat.dvd_of_mod_eq_zero hzero.2)).symm
      simp only [value]
      rw [htimes, ten_zpow_add, zpow_one]
      ring
    · exact ⟨rfl, le_refl _, le_refl _⟩

/-- Numbers on the grid of doubles lie between the least double and `2 ^ 1024`. -/
theorem scaled_between {m : Nat} {q : Int} (h : OnGrid m q) (hq : q ≤ 971) :
    2 ^ (-1074 : Int) ≤ scaled m q ∧ scaled m q < 2 ^ (1024 : Int) := by
  constructor
  · calc (2 : ℚ) ^ (-1074 : Int) ≤ 2 ^ q := zpow_le_zpow_right₀ (by norm_num) h.low
      _ ≤ m * 2 ^ q := le_mul_of_one_le_left (two_zpow_pos q).le (by exact_mod_cast h.pos)
  · exact (scaled_lt_overflow h.lt hq).trans_le (sub_le_self _ (two_zpow_pos 970).le)

/-- **The shortest numeral** of a double lies in the interval of the double, and has at most
seventeen digits. -/
theorem shortest_spec (tie : Tie) {m : Nat} {q : Int} (h : OnGrid m q) (hq : q ≤ 971) :
    (Span.around m q).Contains (shortest tie m q).value ∧
      (shortest tie m q).significand ≤ 10 ^ 17 ∧ -340 ≤ (shortest tie m q).exponent := by
  obtain ⟨r, hr⟩ : ∃ r, r = Ratio.ofBinary (4 * m) (q - 2) := ⟨_, rfl⟩
  have hvalue : r.value = scaled m q := by
    rw [hr, Ratio.value_ofBinary]
    exact Span.center_around
  obtain ⟨hleast, hmost⟩ := scaled_between h hq
  have hpos := h.pos
  obtain ⟨hlead, hnext⟩ := leadingExponent_spec (r := r)
    (hr ▸ Ratio.num_ofBinary_pos (by omega) _) (hr ▸ Ratio.den_ofBinary_pos _ _)
    (hvalue ▸ hleast) (hvalue ▸ hmost)
  rw [hvalue] at hlead hnext
  generalize hlead' : leadingExponent r = lead at hlead hnext
  have hlow : -324 ≤ lead := by
    have hpowers : (10 : ℚ) ^ (-324 : Int) ≤ 2 ^ (-1074 : Int) := by
      exact_mod_cast (zpow_le_zpow_iff (x := 10) (y := 2) (by decide) (by decide)).mpr
        (by decide +kernel)
    have := (zpow_lt_zpow_iff_right₀ (by norm_num : (1 : ℚ) < 10)).mp
      ((hpowers.trans hleast).trans_lt hnext)
    omega
  have hfine : ∃ k < 17, (Span.around m q).nearestOn? tie (lead - (k : Nat)) ≠ none :=
    ⟨16, by decide, Span.nearestOn?_ne_none_of_fine h (by simpa using hlead)⟩
  obtain ⟨k, hk, hfound⟩ := Span.search_spec hfine
  obtain ⟨hcontains, hpoint⟩ := ((Span.around m q).nearestOn?_spec tie _).2 _ hfound
  have hshortest : shortest tie m q =
      ((Span.around m q).search tie 17 lead).trim 17 := by
    rw [shortest, if_neg (by omega), ← hlead', hr]
    rfl
  obtain ⟨hsame, hle, hexponent⟩ := Numeral.trim_spec 17 ((Span.around m q).search tie 17 lead)
  have hdigits : ⌊(Span.around m q).center / 10 ^ (lead - k)⌋₊ < 10 ^ 17 := by
    rw [Nat.floor_lt' (by decide), Span.center_around, div_lt_iff₀ (ten_zpow_pos _)]
    push_cast
    calc scaled m q < 10 ^ (lead + 1) := hnext
      _ ≤ 10 ^ ((17 : Int) + (lead - k)) := zpow_le_zpow_right₀ (by norm_num) (by omega)
      _ = 10 ^ 17 * 10 ^ (lead - k) := by rw [ten_zpow_add]; norm_cast
  rw [hshortest, hsame]
  refine ⟨hcontains, hle.trans ?_, le_trans ?_ hexponent⟩
  · rcases hpoint with hpoint | hpoint <;> rw [hpoint] <;> exact Nat.le_of_lt_succ (by
      simp only [Span.point]
      omega)
  · rcases hpoint with hpoint | hpoint <;> rw [hpoint] <;> simp only [Span.point] <;> omega

end HueCycle.Decimal
