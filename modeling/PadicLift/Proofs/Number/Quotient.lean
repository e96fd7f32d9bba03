import PadicLift.Proofs.Number.Rounding

/-!
# Quotients of doubles against whole numbers

A double that lies above a whole number lies above it by more than a `2 ^ (-53)` of that number,
and so does its quotient above the quotient. This is more than rounding takes away, so a computed
quotient of a double is at most a whole number only where the exact one is
(`IsDouble.div_le_natCast_iff`), and both have the same ceiling.
-/

namespace PadicLift
namespace Binary64

/-- The doubles that are not negative: a power of two times an integer of up to 53 bits. -/
def IsDouble (v : ℚ) : Prop := ∃ (m : ℕ) (e : ℤ), m ≤ 2 ^ 53 ∧ v = m * 2 ^ e

/-- A positive number is rounded to a double. -/
theorem isDouble_round {x : ℚ} (hx : 0 < x) : IsDouble (round x) := by
  obtain ⟨m, hm⟩ := exists_roundAt_eq x.num.natAbs x.den (spacing x)
  rw [← round_eq_roundAt hx] at hm
  refine ⟨m, spacing x, ?_, hm⟩
  have hle : round x ≤ (2 ^ 53 : ℕ) * 2 ^ spacing x := by
    apply round_le_mul_spacing hx
    exact_mod_cast (lt_mul_zpow_spacing hx).le
  rw [hm] at hle
  exact_mod_cast le_of_mul_le_mul_right hle (by positivity)

/-- The gap between a whole number and the doubles above it. -/
theorem IsDouble.div_lt_sub {v : ℚ} (hv : IsDouble v) {k : ℕ} (hk : k < 2 ^ 53) (h : k < v) :
    (k : ℚ) / 2 ^ 53 < v - k := by
  obtain ⟨m, e, hm, rfl⟩ := hv
  rcases le_or_gt 0 e with he | he
  -- A whole number, so the gap is 1 at least.
  · obtain ⟨i, rfl⟩ := Int.eq_ofNat_of_zero_le he
    rw [zpow_natCast] at h ⊢
    have hone : (k : ℚ) + 1 ≤ m * 2 ^ i := by
      have hlt : k < m * 2 ^ i := by exact_mod_cast h
      exact_mod_cast hlt
    have hless : (k : ℚ) / 2 ^ 53 < 1 := by
      rw [div_lt_one (by positivity)]
      exact_mod_cast hk
    linarith
  -- Both are multiples of `2 ^ e`, and `k` is one of fewer than `2 ^ 53`.
  · obtain ⟨i, hi⟩ := Int.eq_ofNat_of_zero_le (by omega : 0 ≤ -e)
    have hpos : (0 : ℚ) < 2 ^ i := by positivity
    rw [← neg_neg e, hi, zpow_neg, zpow_natCast, ← div_eq_mul_inv] at h ⊢
    have hlt : k * 2 ^ i < m := by
      rw [lt_div_iff₀ hpos] at h
      exact_mod_cast h
    have hgap : 1 / 2 ^ i ≤ (m : ℚ) / 2 ^ i - k := by
      rw [le_sub_iff_add_le, ← le_sub_iff_add_le', div_sub_div_same, le_div_iff₀ hpos]
      have hsucc : k * 2 ^ i + 1 ≤ m := hlt
      have : (k : ℚ) * 2 ^ i + 1 ≤ m := by exact_mod_cast hsucc
      linarith
    refine lt_of_lt_of_le ?_ hgap
    rw [div_lt_div_iff₀ (by positivity) hpos, one_mul]
    exact_mod_cast hlt.trans_le hm

/-- Rounding does not pass over a double. -/
theorem round_le_div_two_pow {m e : ℕ} (hm : m < 2 ^ 53) (he : e ≤ 1074) {x : ℚ} (hx : 0 < x)
    (h : x ≤ m / 2 ^ e) : round x ≤ m / 2 ^ e := by
  by_cases hu : spacing x ≤ -e
  · obtain ⟨i, hi⟩ := Int.eq_ofNat_of_zero_le (by omega : 0 ≤ -e - spacing x)
    have hexponent : spacing x = -(e : ℤ) - i := by omega
    have hmultiple : (m : ℚ) / 2 ^ e = (m * 2 ^ i : ℕ) * 2 ^ spacing x := by
      rw [hexponent, zpow_sub₀ two_ne_zero, zpow_neg, zpow_natCast, zpow_natCast]
      push_cast
      field_simp
    rw [hmultiple] at h ⊢
    exact round_le_mul_spacing hx h
  -- Where the spacing is wider there are no such small numbers.
  · exfalso
    have hreached := mul_zpow_spacing_le hx (by omega)
    have hwide : (2 : ℚ) / 2 ^ e ≤ 2 ^ spacing x := by
      rw [div_eq_mul_inv, ← zpow_natCast, ← zpow_neg, ← zpow_one_add₀ two_ne_zero]
      exact zpow_le_zpow_right₀ one_le_two (by omega)
    have hless : (m : ℚ) / 2 ^ e < 2 ^ 53 / 2 ^ e := by
      rw [div_lt_div_iff_of_pos_right (by positivity)]
      exact_mod_cast hm
    have htwice : (2 : ℚ) ^ 53 / 2 ^ e = 2 ^ 52 * (2 / 2 ^ e) := by ring
    linarith

/-- Rounding does not pass a whole number below `2 ^ 53` from below. -/
theorem round_le_natCast {k : ℕ} (hk : k < 2 ^ 53) {x : ℚ} (hx : 0 < x) (h : x ≤ k) :
    round x ≤ k := by
  have hround := round_le_div_two_pow (e := 0) hk (Nat.zero_le _) hx
  rw [pow_zero, div_one] at hround
  exact hround h

/-- A number that is far enough above a whole number is not rounded to it. -/
theorem natCast_lt_round {k : ℕ} (hk : 0 < k) {x : ℚ} (h : (k : ℚ) / 2 ^ 53 < x - k) :
    (k : ℚ) < round x := by
  have hone : (1 : ℚ) ≤ k := by exact_mod_cast hk
  have hpos : (0 : ℚ) < k / 2 ^ 53 := by positivity
  have hx : 0 < x := by linarith
  have hnormal : -1074 < spacing x := by
    by_contra hsubnormal
    have hlt := lt_mul_zpow_spacing hx
    have htiny : (2 : ℚ) ^ spacing x ≤ 2 ^ (-53 : ℤ) :=
      zpow_le_zpow_right₀ one_le_two (by omega)
    have : (2 : ℚ) ^ 53 * 2 ^ (-53 : ℤ) = 1 := by norm_num
    linarith
  have hreached := mul_zpow_spacing_le hx hnormal
  -- The power of two below `x`, if it is above `k`, is not passed over in rounding.
  by_cases hbetween : (k : ℚ) < 2 ^ 52 * 2 ^ spacing x
  · refine hbetween.trans_le ?_
    have hround := mul_spacing_le_round hx (m := 2 ^ 52) (by exact_mod_cast hreached)
    exact_mod_cast hround
  · have hround := (abs_le.1 (abs_round_sub_le_spacing hx)).1
    linarith

/-- A computed quotient is at most a whole number where the exact one is. -/
theorem IsDouble.div_le_natCast_iff {v : ℚ} (hv : IsDouble v) (hone : 1 ≤ v) {d k : ℕ} (hd : 0 < d)
    (hsmall : d ≤ 2 ^ 52) (hk : k * d < 2 ^ 53) : div v d ≤ k ↔ v / d ≤ k := by
  have hdPos : (0 : ℚ) < d := by exact_mod_cast hd
  have hpos : 0 < v / d := div_pos (zero_lt_one.trans_le hone) hdPos
  constructor
  · intro h
    by_contra hlt
    rw [not_le] at hlt
    apply not_lt.2 h
    show (k : ℚ) < round (v / d)
    -- Above a whole number the quotient keeps a distance that rounding does not bridge.
    rcases Nat.eq_zero_or_pos k with rfl | hkPos
    · have hleast : ((1 : ℕ) : ℚ) / 2 ^ 52 ≤ v / d := by
        have hsmallRat : (d : ℚ) ≤ 2 ^ 52 := by exact_mod_cast hsmall
        rw [Nat.cast_one]
        exact div_le_div₀ (by linarith) hone hdPos hsmallRat
      have hround := le_round (by norm_num) hpos hleast
      refine lt_of_lt_of_le ?_ hround
      norm_num
    · apply natCast_lt_round hkPos
      rw [lt_div_iff₀ hdPos] at hlt
      have hgap := hv.div_lt_sub hk (by exact_mod_cast hlt)
      push_cast at hgap
      have hquotient : v / d - k = (v - k * d) / d := by field_simp
      rw [hquotient, lt_div_iff₀ hdPos]
      linarith
  · intro h
    apply round_le_natCast _ hpos h
    have := Nat.le_mul_of_pos_right k hd
    omega

end Binary64
end PadicLift
