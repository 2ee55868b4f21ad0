/-
HueCycle.Proofs.Timing.Delay — which rates have a delay, and which delay that is.

One frame takes a fraction of a second, and every fraction that says so is a
multiple of the one in lowest terms. So if any fraction with parts of 16 bits
says so, the one in lowest terms does, and a rate is refused only if none
does. Main statement: `FrameRate.delay_in_lowest_terms`.
-/
import Mathlib
import HueCycle.Timing.FrameRate

namespace HueCycle.FrameRate

variable {rate : FrameRate} {p q : Nat}

/-! ## §1 Frame times -/

theorem toNat_pos {n : UInt32} (h : n ≠ 0) : 0 < n.toNat :=
  Nat.pos_of_ne_zero fun hzero => h (UInt32.toNat_inj.mp hzero)

/-- One frame takes `p / q` seconds. -/
def IsFrameTime (rate : FrameRate) (p q : Nat) : Prop :=
  p * rate.num.toNat = q * rate.den.toNat

/-- The smallest number of seconds in which whole frames pass. -/
def leastSeconds (rate : FrameRate) : Nat :=
  rate.den.toNat / Nat.gcd rate.den.toNat rate.num.toNat

/-- The frames that pass in these seconds. -/
def leastFrames (rate : FrameRate) : Nat :=
  rate.num.toNat / Nat.gcd rate.den.toNat rate.num.toNat

theorem isFrameTime_least (rate : FrameRate) :
    rate.IsFrameTime rate.leastSeconds rate.leastFrames := by
  have hden := Nat.gcd_dvd_left rate.den.toNat rate.num.toNat
  have hnum := Nat.gcd_dvd_right rate.den.toNat rate.num.toNat
  rw [IsFrameTime, leastSeconds, leastFrames, Nat.div_mul_right_comm hden,
    Nat.div_mul_right_comm hnum, Nat.mul_comm]

theorem leastSeconds_pos (hden : rate.den ≠ 0) : 0 < rate.leastSeconds := by
  exact Nat.div_pos (Nat.gcd_le_left _ (toNat_pos hden)) (Nat.gcd_pos_of_pos_left _ (toNat_pos hden))

theorem leastFrames_pos (hnum : rate.num ≠ 0) : 0 < rate.leastFrames := by
  exact Nat.div_pos (Nat.gcd_le_right _ (toNat_pos hnum))
    (Nat.gcd_pos_of_pos_right _ (toNat_pos hnum))

theorem coprime_least (hnum : rate.num ≠ 0) :
    Nat.Coprime rate.leastSeconds rate.leastFrames :=
  Nat.coprime_div_gcd_div_gcd (Nat.gcd_pos_of_pos_right _ (toNat_pos hnum))

/-- **Every frame time is a multiple of the lowest terms.** -/
theorem IsFrameTime.exists_multiple (h : rate.IsFrameTime p q) (hnum : rate.num ≠ 0)
    (hden : rate.den ≠ 0) : ∃ k, p = k * rate.leastSeconds ∧ q = k * rate.leastFrames := by
  have hcross : p * rate.leastFrames = q * rate.leastSeconds := by
    have hcommon := Nat.gcd_pos_of_pos_left rate.num.toNat (toNat_pos hden)
    refine Nat.eq_of_mul_eq_mul_right hcommon ?_
    rw [Nat.mul_assoc, Nat.mul_assoc, leastFrames, leastSeconds,
      Nat.div_mul_cancel (Nat.gcd_dvd_right _ _), Nat.div_mul_cancel (Nat.gcd_dvd_left _ _)]
    exact h
  have hdvd : rate.leastSeconds ∣ p * rate.leastFrames := ⟨q, hcross.trans (Nat.mul_comm _ _)⟩
  obtain ⟨k, rfl⟩ := (coprime_least hnum).dvd_of_dvd_mul_right hdvd
  refine ⟨k, Nat.mul_comm _ _, Nat.eq_of_mul_eq_mul_right (leastSeconds_pos hden) ?_⟩
  rw [← hcross, Nat.mul_comm rate.leastSeconds k, Nat.mul_right_comm]

/-- A frame time whose parts have no common divisor is the one in lowest terms. -/
theorem IsFrameTime.eq_least (h : rate.IsFrameTime p q) (hcoprime : Nat.Coprime p q)
    (hnum : rate.num ≠ 0) (hden : rate.den ≠ 0) :
    p = rate.leastSeconds ∧ q = rate.leastFrames := by
  obtain ⟨k, rfl, rfl⟩ := h.exists_multiple hnum hden
  obtain rfl : k = 1 := Nat.dvd_one.mp (hcoprime ▸ Nat.dvd_gcd ⟨_, rfl⟩ ⟨_, rfl⟩)
  exact ⟨Nat.one_mul _, Nat.one_mul _⟩

/-- Equal rates, given by different fractions, have the same lowest terms. -/
theorem least_eq_of_equal {other : FrameRate} (hnum : rate.num ≠ 0) (hden : rate.den ≠ 0)
    (hnum' : other.num ≠ 0) (hden' : other.den ≠ 0)
    (hequal : rate.num.toNat * other.den.toNat = other.num.toNat * rate.den.toNat) :
    other.leastSeconds = rate.leastSeconds ∧ other.leastFrames = rate.leastFrames := by
  have htime : rate.IsFrameTime other.leastSeconds other.leastFrames := by
    refine Nat.eq_of_mul_eq_mul_right (toNat_pos hden') ?_
    calc other.leastSeconds * rate.num.toNat * other.den.toNat
        = other.leastSeconds * other.num.toNat * rate.den.toNat := by
          rw [Nat.mul_assoc, hequal, ← Nat.mul_assoc]
      _ = other.leastFrames * other.den.toNat * rate.den.toNat := by
          rw [other.isFrameTime_least]
      _ = other.leastFrames * rate.den.toNat * other.den.toNat := Nat.mul_right_comm _ _ _
  exact htime.eq_least (coprime_least hnum') hnum hden

/-! ## §2 Delays -/

theorem narrow?_eq_some_iff {n : Nat} {m : UInt16} : narrow? n = some m ↔ m.toNat = n := by
  unfold narrow?
  split
  · rename_i hlt
    rw [Option.some.injEq, ← UInt16.toNat_inj, UInt16.toNat_ofNat', Nat.mod_eq_of_lt hlt, eq_comm]
  · rename_i hge
    have hm := m.toNat_lt
    refine ⟨fun h => (nomatch h), fun h => absurd (h ▸ hm) hge⟩

/-- A number is narrowed exactly if it fits in 16 bits. -/
theorem exists_narrow?_iff {n : Nat} : (∃ m, narrow? n = some m) ↔ n ≤ 65535 := by
  unfold narrow?
  split
  · rename_i hlt
    exact ⟨fun _ => Nat.le_of_lt_succ hlt, fun _ => ⟨_, rfl⟩⟩
  · rename_i hge
    exact ⟨fun ⟨_, h⟩ => (nomatch h), fun h => absurd (Nat.lt_succ_of_le h) hge⟩

/-- The rate with both parts zero has no greatest common divisor to divide by. -/
theorem delay_zero : delay ⟨0, 0⟩ = .error (.fatal .divisionByZero) := by
  simp [delay]

/-- At every other rate the lowest terms are narrowed. -/
theorem delay_eq (h : rate.den ≠ 0 ∨ rate.num ≠ 0) :
    rate.delay = match narrow? rate.leastSeconds, narrow? rate.leastFrames with
      | some num, some den => .ok ⟨num, den⟩
      | _, _ => .error (.config (.delayTooFine (UInt32.ofNat rate.leastSeconds)
          (UInt32.ofNat rate.leastFrames))) := by
  have hcommon : Nat.gcd rate.den.toNat rate.num.toNat ≠ 0 := by
    rw [Ne, Nat.gcd_eq_zero_iff, not_and_or]
    exact h.imp (fun hden => (toNat_pos hden).ne') (fun hnum => (toNat_pos hnum).ne')
  unfold delay
  simp only [toNat_commonDivisor, if_neg hcommon]
  rfl

/-- A delay is the frame time in lowest terms. -/
theorem delay_eq_ok_iff (h : rate.den ≠ 0 ∨ rate.num ≠ 0) {delay : FrameDelay} :
    rate.delay = .ok delay ↔
      delay.num.toNat = rate.leastSeconds ∧ delay.den.toNat = rate.leastFrames := by
  rw [delay_eq h, ← narrow?_eq_some_iff, ← narrow?_eq_some_iff]
  cases narrow? rate.leastSeconds with
  | none => simp
  | some num =>
    cases narrow? rate.leastFrames with
    | none => simp
    | some den => cases delay; simp

theorem exists_delay_iff (h : rate.den ≠ 0 ∨ rate.num ≠ 0) :
    (∃ delay, rate.delay = .ok delay) ↔
      rate.leastSeconds ≤ 65535 ∧ rate.leastFrames ≤ 65535 := by
  constructor
  · rintro ⟨delay, hdelay⟩
    obtain ⟨hseconds, hframes⟩ := (delay_eq_ok_iff h).mp hdelay
    rw [← hseconds, ← hframes]
    exact ⟨Nat.le_of_lt_succ delay.num.toNat_lt, Nat.le_of_lt_succ delay.den.toNat_lt⟩
  · rintro ⟨hseconds, hframes⟩
    obtain ⟨num, hnum⟩ := exists_narrow?_iff.mpr hseconds
    obtain ⟨den, hden⟩ := exists_narrow?_iff.mpr hframes
    exact ⟨⟨num, den⟩, (delay_eq_ok_iff h).mpr
      ⟨narrow?_eq_some_iff.mp hnum, narrow?_eq_some_iff.mp hden⟩⟩

/-- The delay at a rate with frames and seconds has neither part zero. -/
theorem delay_pos {delay : FrameDelay} (h : rate.delay = .ok delay) (hnum : rate.num ≠ 0)
    (hden : rate.den ≠ 0) : delay.num ≠ 0 ∧ delay.den ≠ 0 := by
  obtain ⟨hseconds, hframes⟩ := (delay_eq_ok_iff (.inl hden)).mp h
  refine ⟨fun hzero => ?_, fun hzero => ?_⟩
  · rw [hzero] at hseconds
    exact (leastSeconds_pos hden).ne hseconds
  · rw [hzero] at hframes
    exact (leastFrames_pos hnum).ne hframes

/-- The error of a rate without a delay names the lowest terms. -/
theorem tooFine_of_delay_eq_error (h : rate.den ≠ 0 ∨ rate.num ≠ 0) {e : Error}
    (herror : rate.delay = .error e) :
    ∃ num den, e = .config (.delayTooFine num den) ∧ num.toNat = rate.leastSeconds ∧
      den.toNat = rate.leastFrames := by
  have hsmall {n g : Nat} (hn : n < 2 ^ 32) : (UInt32.ofNat (n / g)).toNat = n / g :=
    UInt32.toNat_ofNat_of_lt' ((Nat.div_le_self _ _).trans_lt hn)
  refine ⟨_, _, ?_, hsmall rate.den.toNat_lt, hsmall rate.num.toNat_lt⟩
  rw [delay_eq h] at herror
  split at herror
  · cases herror
  · exact (Except.error.inj herror).symm

/-! ## §3 Any fraction with parts of 16 bits -/

/-- **The delay of a rate without zeros.** There is one exactly if some fraction with both parts
from 1 to 65535 is the time of one frame. It is then the only such fraction whose parts have no
common divisor, and its denominator is not zero. Otherwise the error is one of the configuration
and names the fraction in lowest terms. Equal rates, given by different fractions, get the same
answer. -/
theorem delay_in_lowest_terms (rate : FrameRate) (hnum : rate.num ≠ 0) (hden : rate.den ≠ 0) :
    ((∃ delay, rate.delay = .ok delay) ↔
      ∃ p q, (1 ≤ p ∧ p ≤ 65535) ∧ (1 ≤ q ∧ q ≤ 65535) ∧ rate.IsFrameTime p q) ∧
    (∀ delay, rate.delay = .ok delay ↔
      rate.IsFrameTime delay.num.toNat delay.den.toNat ∧
        Nat.Coprime delay.num.toNat delay.den.toNat) ∧
    (∀ delay, rate.delay = .ok delay → delay.den ≠ 0) ∧
    (∀ e, rate.delay = .error e → ∃ num den, e = .config (.delayTooFine num den) ∧
      rate.IsFrameTime num.toNat den.toNat ∧ Nat.Coprime num.toNat den.toNat) ∧
    ∀ other : FrameRate, other.num ≠ 0 → other.den ≠ 0 →
      rate.num.toNat * other.den.toNat = other.num.toNat * rate.den.toNat →
        other.delay = rate.delay := by
  have hseconds := leastSeconds_pos hden
  have hframes := leastFrames_pos hnum
  refine ⟨?_, fun delay => ?_, fun delay hdelay => ?_, fun e herror => ?_, ?_⟩
  · rw [exists_delay_iff (.inl hden)]
    constructor
    · rintro ⟨hshort, hfew⟩
      exact ⟨_, _, ⟨hseconds, hshort⟩, ⟨hframes, hfew⟩, rate.isFrameTime_least⟩
    · rintro ⟨p, q, ⟨hp, hpmost⟩, ⟨-, hqmost⟩, htime⟩
      obtain ⟨k, rfl, rfl⟩ := htime.exists_multiple hnum hden
      have hk : 0 < k := Nat.pos_of_mul_pos_right hp
      exact ⟨(Nat.le_mul_of_pos_left _ hk).trans hpmost, (Nat.le_mul_of_pos_left _ hk).trans hqmost⟩
  · rw [delay_eq_ok_iff (.inl hden)]
    constructor
    · rintro ⟨hleast, hleast'⟩
      rw [hleast, hleast']
      exact ⟨rate.isFrameTime_least, coprime_least hnum⟩
    · rintro ⟨htime, hcoprime⟩
      exact htime.eq_least hcoprime hnum hden
  · exact (delay_pos hdelay hnum hden).2
  · obtain ⟨num, den, rfl, hleast, hleast'⟩ := tooFine_of_delay_eq_error (.inl hden) herror
    refine ⟨num, den, rfl, ?_⟩
    rw [hleast, hleast']
    exact ⟨rate.isFrameTime_least, coprime_least hnum⟩
  · intro other hnum' hden' hequal
    obtain ⟨hleast, hleast'⟩ := least_eq_of_equal hnum hden hnum' hden' hequal
    rw [delay_eq (.inl hden'), delay_eq (.inl hden), hleast, hleast']

/-- Thirty thousand frames in 1001 seconds, and twice as many in twice the time. -/
theorem delay_in_lowest_terms_thirty_thousand :
    ((30000 : UInt32) ≠ 0 ∧ (1001 : UInt32) ≠ 0) ∧
      FrameRate.delay ⟨30000, 1001⟩ = .ok ⟨1001, 30000⟩ ∧
      FrameRate.delay ⟨60000, 2002⟩ = .ok ⟨1001, 30000⟩ := by
  have hnum : (30000 : UInt32) ≠ 0 := by decide
  have hden : (1001 : UInt32) ≠ 0 := by decide
  obtain ⟨-, hiff, -, -, hsame⟩ := delay_in_lowest_terms ⟨30000, 1001⟩ hnum hden
  have hdelay := (hiff ⟨1001, 30000⟩).mpr ⟨rfl, by decide⟩
  have hdouble := hsame ⟨60000, 2002⟩ (by decide) (by decide) (by decide)
  exact ⟨⟨hnum, hden⟩, hdelay, hdouble.trans hdelay⟩

end HueCycle.FrameRate
