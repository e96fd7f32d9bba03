import Mathlib.Algebra.Order.Floor.Semifield
import Mathlib.Analysis.SpecialFunctions.Log.Base
import Mathlib.Analysis.SpecialFunctions.Log.Deriv
import PadicLift.Number.Logarithm
import PadicLift.Proofs.Number.Rounding

/-!
# How far computed logarithms can be off

Every bit of `floorLog2` is right (`floorLog2_bounds`), since squaring doubles a logarithm. So
`log2` lies between two neighbouring doubles that enclose the logarithm, whatever its table says,
and `log2Nat` is off by a `2 ^ (-51)` of the logarithm for integers of any size
(`abs_log2Nat_sub_le`).
-/

namespace PadicLift
namespace Binary64

/-! ## Bits of a logarithm -/

theorem cast_div_lt_succ (a b : ℕ) : (a : ℚ) / b < (a / b + 1 : ℕ) := by
  rw [← Nat.floor_div_eq_div (K := ℚ) a b, Nat.cast_succ]
  exact Nat.lt_floor_add_one _

/-- The ends of an enclosing interval, squared. -/
theorem square_bounds {w lo hi : ℕ} {y : ℚ} (hlo : lo ≤ y * 2 ^ w) (hhi : y * 2 ^ w < hi)
    (hy : 0 ≤ y) :
    ((lo * lo / 2 ^ w : ℕ) : ℚ) ≤ y ^ 2 * 2 ^ w ∧
      y ^ 2 * 2 ^ w < ((hi * hi / 2 ^ w + 1 : ℕ) : ℚ) := by
  have hw : (0 : ℚ) < 2 ^ w := by positivity
  have hsquare : y ^ 2 * 2 ^ w = y * 2 ^ w * (y * 2 ^ w) / 2 ^ w := by
    rw [eq_div_iff hw.ne']
    ring
  rw [hsquare]
  constructor
  · refine Nat.cast_div_le.trans ?_
    push_cast
    exact div_le_div_of_nonneg_right (mul_self_le_mul_self (by positivity) hlo) hw.le
  · refine lt_of_le_of_lt ?_ (cast_div_lt_succ (hi * hi) (2 ^ w))
    push_cast
    exact div_le_div_of_nonneg_right (mul_self_le_mul_self (by positivity) hhi.le) hw.le

/-- The bits found so far are those of the power of `2 ^ acc * y`; each further bit squares it. -/
theorem fractionBits_bounds {w k lo hi acc t : ℕ} {y : ℚ}
    (h : fractionBits w k lo hi acc = some t) (hlo : lo ≤ y * 2 ^ w) (hhi : y * 2 ^ w < hi)
    (hone : 1 ≤ y) (htwo : y < 2) :
    (2 : ℚ) ^ t ≤ (2 ^ acc * y) ^ 2 ^ k ∧ (2 ^ acc * y) ^ 2 ^ k < 2 ^ (t + 1) := by
  induction k generalizing lo hi acc y with
  | zero =>
    cases h
    have hpos : (0 : ℚ) < 2 ^ t := by positivity
    rw [pow_zero, pow_one, pow_succ]
    exact ⟨le_mul_of_one_le_right hpos.le hone, mul_lt_mul_of_pos_left htwo hpos⟩
  | succ k ih =>
    have hw : (0 : ℚ) < 2 ^ w := by positivity
    obtain ⟨hlo2, hhi2⟩ := square_bounds hlo hhi (zero_le_one.trans hone)
    have hpow : ((2 : ℚ) ^ acc * y) ^ 2 ^ (k + 1) = (2 ^ (2 * acc) * y ^ 2) ^ 2 ^ k := by
      rw [pow_succ' 2 k, pow_mul, mul_pow, ← pow_mul, mul_comm acc]
    have honeSquare : 1 ≤ y ^ 2 := one_le_pow₀ hone
    have hfourSquare : y ^ 2 < 4 := by nlinarith
    rw [hpow]
    unfold fractionBits at h
    extract_lets lo2 hi2 at h
    split at h
    next hsmall =>
      refine ih h hlo2 hhi2 honeSquare ?_
      have hsmallCast : (hi2 : ℚ) ≤ 2 * 2 ^ w := by
        rw [← pow_succ']
        exact_mod_cast hsmall
      exact lt_of_mul_lt_mul_right (hhi2.trans_le hsmallCast) hw.le
    next =>
      split at h
      next hlarge =>
        have hlargeCast : 2 * 2 ^ w ≤ (lo2 : ℚ) := by
          rw [← pow_succ']
          exact_mod_cast hlarge
        have htwoSquare : 2 ≤ y ^ 2 := le_of_mul_le_mul_right (hlargeCast.trans hlo2) hw
        -- The bit is set: the square goes on halved, which its enclosure rounds outwards.
        have hhalf : (2 : ℚ) ^ (2 * acc) * y ^ 2 = 2 ^ (2 * acc + 1) * (y ^ 2 / 2) := by
          rw [pow_succ]
          ring
        rw [hhalf]
        refine ih h ?_ ?_ (by linarith) (by linarith)
        · refine Nat.cast_div_le.trans ?_
          push_cast
          linarith
        · have hfloor : (hi2 : ℚ) < 2 * ((hi2 / 2 : ℕ) + 1) := by
            exact_mod_cast (by omega : hi2 < 2 * (hi2 / 2 + 1))
          push_cast
          linarith
      next => cases h

/-- `floorLog2 x k` is the logarithm of `x ^ 2 ^ k`, rounded down. -/
theorem floorLog2_bounds {x : ℕ} (hx : 0 < x) (k : ℕ) :
    2 ^ floorLog2 x k ≤ x ^ 2 ^ k ∧ x ^ 2 ^ k < 2 ^ (floorLog2 x k + 1) := by
  unfold floorLog2
  extract_lets e lo
  split
  next t ht =>
    have hpos : (0 : ℚ) < 2 ^ e := by positivity
    have hlow : (2 : ℚ) ^ e ≤ x := by exact_mod_cast Nat.log2_self_le hx.ne'
    have hhigh : (x : ℚ) < 2 ^ (e + 1) := by exact_mod_cast Nat.lt_log2_self
    have hscale : (x : ℚ) / 2 ^ e * 2 ^ enclosureWidth
        = ((x * 2 ^ enclosureWidth : ℕ) : ℚ) / (2 ^ e : ℕ) := by
      push_cast
      ring
    have hbounds := fractionBits_bounds ht (y := x / 2 ^ e) ?_ ?_ ?_ ?_
    · rw [mul_div_cancel₀ _ hpos.ne'] at hbounds
      exact_mod_cast hbounds
    · rw [hscale]
      exact Nat.cast_div_le
    · rw [hscale]
      exact cast_div_lt_succ _ _
    · rwa [le_div_iff₀ hpos, one_mul]
    · rwa [div_lt_iff₀ hpos, ← pow_succ']
  next =>
    exact ⟨Nat.log2_self_le (by positivity), Nat.lt_log2_self⟩

theorem logb_two_pow (t : ℕ) : Real.logb 2 ((2 : ℝ) ^ t) = t := by
  rw [Real.logb_pow, Real.logb_self_eq_one one_lt_two, mul_one]

/-- A power of two below a number bounds its logarithm from below, -/
theorem le_logb_of_pow_le {x t : ℕ} (h : 2 ^ t ≤ x) : (t : ℝ) ≤ Real.logb 2 x := by
  rw [← logb_two_pow t]
  exact Real.logb_le_logb_of_le one_lt_two (by positivity) (by exact_mod_cast h)

/-- and one above it bounds the logarithm from above. -/
theorem logb_le_of_le_pow {x t : ℕ} (hx : 0 < x) (h : x ≤ 2 ^ t) : Real.logb 2 x ≤ t := by
  rw [← logb_two_pow t]
  exact Real.logb_le_logb_of_le one_lt_two (by exact_mod_cast hx) (by exact_mod_cast h)

/-- The same in terms of the real logarithm. -/
theorem floorLog2_le_logb {x : ℕ} (hx : 0 < x) (k : ℕ) :
    (floorLog2 x k : ℝ) / 2 ^ k ≤ Real.logb 2 x ∧
      Real.logb 2 x ≤ (floorLog2 x k + 1 : ℕ) / 2 ^ k := by
  obtain ⟨hlow, hhigh⟩ := floorLog2_bounds hx k
  have hpow : Real.logb 2 ((x ^ 2 ^ k : ℕ) : ℝ) = Real.logb 2 x * 2 ^ k := by
    rw [Nat.cast_pow, Real.logb_pow, mul_comm]
    push_cast
    rfl
  rw [div_le_iff₀ (by positivity), le_div_iff₀ (by positivity), ← hpow]
  exact ⟨le_logb_of_pow_le hlow, logb_le_of_le_pow (by positivity) hhigh.le⟩

/-! ## Logarithms of doubles -/

theorem cast_dyadic (m : ℤ) (places : ℕ) : (dyadic m places : ℝ) = m / 2 ^ places := by
  rw [dyadic, Rat.mkRat_eq_div]
  push_cast
  rfl

theorem le_between {low high : ℚ} (h : low ≤ high) (x : ℚ) :
    low ≤ between low high x ∧ between low high x ≤ high := by
  unfold between
  split
  next => exact ⟨le_rfl, h⟩
  next hlow =>
    split
    next => exact ⟨h, le_rfl⟩
    next hhigh => exact ⟨not_lt.1 hlow, not_lt.1 hhigh⟩

/-- The logarithm of a double lies between the same neighbouring doubles as the computed one. -/
theorem abs_log2_sub_le {x : ℕ} (hx : 0 < x) (hexponent : Nat.log2 x < 1024) :
    |(log2 x : ℝ) - Real.logb 2 x| ≤ Real.logb 2 x / 2 ^ 52 := by
  have hlog := Real.log2_le_logb x
  unfold log2
  extract_lets e places floor
  split
  next hpower =>
    have hexact : Real.logb 2 x = e := by
      rw [hpower]
      push_cast
      exact logb_two_pow e
    rw [hexact, Rat.cast_natCast, sub_self, abs_zero]
    positivity
  next hpower =>
    have he : 0 < e := by
      rw [Nat.pos_iff_ne_zero]
      intro hzero
      have : x < 2 ^ (e + 1) := Nat.lt_log2_self
      rw [hzero] at this hpower
      omega
    have hplaces : Nat.log2 e + places = 52 := by
      have : Nat.log2 e < 10 := (Nat.log2_lt he.ne').2 hexponent
      omega
    have hle : dyadic floor places ≤ dyadic (floor + 1) places := by
      have hcast : (dyadic floor places : ℝ) ≤ dyadic (floor + 1) places := by
        rw [cast_dyadic, cast_dyadic]
        refine div_le_div_of_nonneg_right ?_ (by positivity)
        push_cast
        linarith
      exact_mod_cast hcast
    obtain ⟨hlow, hhigh⟩ := le_between hle (logEstimate x)
    obtain ⟨hlow', hhigh'⟩ := floorLog2_le_logb hx places
    have hlowCast := (Rat.cast_le (K := ℝ)).2 hlow
    have hhighCast := (Rat.cast_le (K := ℝ)).2 hhigh
    rw [cast_dyadic] at hlowCast hhighCast
    -- Neighbouring doubles differ by a unit in the last place.
    have hunit : (1 : ℝ) / 2 ^ places ≤ Real.logb 2 x / 2 ^ 52 := by
      rw [div_le_div_iff₀ (by positivity) (by positivity), one_mul, ← hplaces, pow_add]
      refine mul_le_mul_of_nonneg_right (le_trans ?_ hlog) (by positivity)
      exact_mod_cast Nat.log2_self_le he.ne'
    rw [abs_le]
    push_cast [add_div] at hlowCast hhighCast hlow' hhigh'
    exact ⟨by linarith, by linarith⟩

/-! ## Logarithms of integers -/

/-- Logarithms of numbers that are close to each other. -/
theorem abs_logb_sub_logb_le {a b c : ℝ} (hb : 0 < b) (h : |a - b| ≤ c * b) (hc : c ≤ 1 / 2) :
    |Real.logb 2 a - Real.logb 2 b| ≤ 4 * c := by
  obtain ⟨hlow, hhigh⟩ := abs_le.1 h
  have hcNonneg : 0 ≤ c := nonneg_of_mul_nonneg_left ((abs_nonneg _).trans h) hb
  have hcb : c * b ≤ 1 / 2 * b := mul_le_mul_of_nonneg_right hc hb.le
  have ha : 0 < a := by linarith
  have hup : Real.log (a / b) ≤ c := by
    have hlog := Real.log_le_sub_one_of_pos (div_pos ha hb)
    have : a / b ≤ 1 + c := by
      rw [div_le_iff₀ hb]
      linarith
    linarith
  -- From `log z ≤ z - 1` in both directions; the other quotient costs a factor of 2.
  have hdown : Real.log (b / a) ≤ 2 * c := by
    have hlog := Real.log_le_sub_one_of_pos (div_pos hb ha)
    have : b / a ≤ 1 + 2 * c := by
      have hca : c * (b / 2) ≤ c * a := mul_le_mul_of_nonneg_left (by linarith) hcNonneg
      rw [div_le_iff₀ ha]
      linarith
    linarith
  have htwo : 1 / 2 ≤ Real.log 2 := by
    have := Real.one_sub_inv_le_log_of_pos two_pos
    norm_num at this ⊢
    exact this
  have habs : |Real.log (a / b)| ≤ 2 * c := by
    rw [← inv_div, Real.log_inv] at hdown
    rw [abs_le]
    exact ⟨by linarith, by linarith⟩
  have hlogTwo : 0 < Real.log 2 := by linarith
  rw [← Real.logb_div ha.ne' hb.ne', Real.logb, abs_div, abs_of_pos hlogTwo, div_le_iff₀ hlogTwo]
  calc |Real.log (a / b)| ≤ 2 * c := habs
    _ = 4 * c * (1 / 2) := by ring
    _ ≤ 4 * c * Real.log 2 := mul_le_mul_of_nonneg_left htwo (by linarith)

/-- The distance of a logarithm from 53 is rounded, and the difference to an exponent is. -/
theorem abs_sub_round_sub_le {L : ℝ} (hlow : 52 ≤ L) (hhigh : L ≤ 53) {t : ℕ}
    (ht : (t : ℝ) / 2 ^ 120 ≤ L ∧ L ≤ (t + 1 : ℕ) / 2 ^ 120) (e : ℕ) :
    |(sub e (round (mkRat (2 * (53 * 2 ^ 120 - t) - 1) (2 ^ 121))) : ℝ) - (e - (53 - L))|
      ≤ (e + 9) / 2 ^ 53 := by
  set q := mkRat (2 * (53 * 2 ^ 120 - t) - 1) (2 ^ 121) with hq
  have hcast : (q : ℝ) = 53 - t / 2 ^ 120 - 1 / 2 ^ 121 := by
    rw [hq, Rat.mkRat_eq_div]
    push_cast
    ring
  have hhalf : |(q : ℝ) - (53 - L)| ≤ 1 / 2 ^ 53 := by
    obtain ⟨htlow, hthigh⟩ := ht
    push_cast [add_div] at hthigh
    rw [hcast, abs_le]
    constructor
    · norm_num at htlow hthigh ⊢
      linarith
    · norm_num at htlow hthigh ⊢
      linarith
  have hqSize : |(q : ℝ)| ≤ 2 := by
    have hone : (1 : ℝ) / 2 ^ 53 ≤ 1 := by norm_num
    rw [abs_le] at hhalf ⊢
    exact ⟨by linarith, by linarith⟩
  -- Two roundings: of the distance from 53 and of the difference.
  have hbelow := abs_cast_round_sub_le q
  have hbelowSize : |((round q : ℚ) : ℝ)| ≤ 3 := by
    have := abs_sub_abs_le_abs_sub ((round q : ℚ) : ℝ) q
    have : (|(q : ℝ)| + 1) / 2 ^ 53 ≤ 1 := by
      rw [div_le_one (by positivity)]
      linarith
    linarith
  have hdifference := abs_cast_round_sub_le (e - round q)
  have hsize : |((e - round q : ℚ) : ℝ)| ≤ e + 3 := by
    push_cast
    have := abs_sub (e : ℝ) (round q : ℚ)
    rw [Nat.abs_cast] at this
    linarith
  have hlast : |(sub e (round q) : ℝ) - (e - (round q : ℚ))| ≤ (e + 4) / 2 ^ 53 := by
    have hbound : |((round (e - round q) : ℚ) : ℝ) - (e - round q : ℚ)| ≤ (e + 3 + 1) / 2 ^ 53 :=
      hdifference.trans (div_le_div_of_nonneg_right (by linarith) (by positivity))
    rw [Rat.cast_sub, Rat.cast_natCast] at hbound
    refine hbound.trans (le_of_eq ?_)
    ring
  have hfirst : |((round q : ℚ) : ℝ) - q| ≤ 3 / 2 ^ 53 :=
    hbelow.trans (div_le_div_of_nonneg_right (by linarith) (by positivity))
  rw [abs_le] at hlast hfirst hhalf ⊢
  constructor
  · linarith
  · linarith

/-- The leading bits of an integer have nearly its logarithm, up to the number of other bits. -/
theorem abs_logb_leading_sub_le {x s : ℕ} (hlow : 2 ^ 52 ≤ x / 2 ^ s) :
    |Real.logb 2 (x / 2 ^ s : ℕ) - (Real.logb 2 x - s)| ≤ 4 * (1 / 2 ^ 52) := by
  have hpos : (0 : ℝ) < 2 ^ s := by positivity
  have hlowCast : (2 : ℝ) ^ 52 ≤ (x / 2 ^ s : ℕ) := by exact_mod_cast hlow
  have hfloor : (2 ^ s * (x / 2 ^ s : ℕ) : ℝ) ≤ x := by exact_mod_cast Nat.mul_div_le x (2 ^ s)
  have hceil : (x : ℝ) < 2 ^ s * ((x / 2 ^ s : ℕ) + 1) := by
    exact_mod_cast Nat.lt_mul_div_succ x (Nat.two_pow_pos s)
  rw [← le_div_iff₀' hpos] at hfloor
  rw [← div_lt_iff₀' hpos] at hceil
  have hquotientPos : (0 : ℝ) < x / 2 ^ s := by
    have : (0 : ℝ) < 2 ^ 52 := by positivity
    linarith
  have hxPos : (0 : ℝ) < x := by
    have := mul_pos hquotientPos hpos
    rwa [div_mul_cancel₀ _ hpos.ne'] at this
  have hquotient : Real.logb 2 (x / 2 ^ s) = Real.logb 2 x - s := by
    rw [Real.logb_div hxPos.ne' hpos.ne', logb_two_pow]
  have hone : 1 ≤ 1 / 2 ^ 52 * ((x : ℝ) / 2 ^ s) := by
    rw [div_mul_eq_mul_div, le_div_iff₀ (by positivity)]
    linarith
  rw [← hquotient]
  refine abs_logb_sub_logb_le hquotientPos ?_ (by norm_num)
  rw [abs_le]
  exact ⟨by linarith, by linarith⟩

/-- The logarithm of an integer past the range of doubles: its leading 53 bits are off by one unit,
the logarithm of these by half a place, and two more roundings follow. -/
theorem abs_log2Scaled_sub_le {x : ℕ} (hexponent : 1024 ≤ Nat.log2 x) :
    |(log2Scaled x : ℝ) - Real.logb 2 x| ≤ Real.logb 2 x / 2 ^ 52 := by
  have hlog := Real.log2_le_logb x
  have hexponentCast : (1024 : ℝ) ≤ Nat.log2 x := by exact_mod_cast hexponent
  have hx : x ≠ 0 := by
    rintro rfl
    exact absurd hexponent (by decide)
  unfold log2Scaled
  extract_lets e m t below
  have hs : e - 53 + 53 = e := by omega
  set s := e - 53
  have heCast : (e : ℝ) = s + 53 := by exact_mod_cast hs.symm
  have hmLow : 2 ^ 52 ≤ m := by
    have hsucc : 52 + s = Nat.log2 x := by omega
    rw [Nat.le_div_iff_mul_le (Nat.two_pow_pos s), ← pow_add, hsucc]
    exact Nat.log2_self_le hx
  have hmHigh : m < 2 ^ 53 := by
    rw [Nat.div_lt_iff_lt_mul (Nat.two_pow_pos s), ← pow_add, add_comm, hs]
    exact Nat.lt_log2_self
  have hleading := abs_logb_leading_sub_le hmLow
  split
  next hpower =>
    have hm : Real.logb 2 m = 52 := by
      rw [hpower, Nat.cast_pow]
      exact logb_two_pow 52
    rw [hm] at hleading
    push_cast
    rw [abs_le] at hleading ⊢
    constructor
    · linarith
    · linarith
  next =>
    have hrounded : |(sub e below : ℝ) - (e - (53 - Real.logb 2 m))| ≤ (e + 9) / 2 ^ 53 :=
      abs_sub_round_sub_le (le_logb_of_pow_le hmLow) (logb_le_of_le_pow (by omega) hmHigh.le)
        (floorLog2_le_logb (by omega) 120) e
    -- The errors are absolute; past the range of doubles the logarithm itself is large enough.
    have heLog : (e : ℝ) = Nat.log2 x + 1 := by exact_mod_cast rfl
    rw [abs_le] at hrounded hleading ⊢
    constructor
    · linarith
    · linarith

theorem roundNat_pos {n : ℕ} (hn : 0 < n) : 0 < roundNat n := by
  have hround := (abs_le.1 (abs_roundNat_sub_le n)).1
  have hnPos : (0 : ℚ) < n := by exact_mod_cast hn
  have hpos : (0 : ℚ) < roundNat n := by linarith
  exact_mod_cast hpos

/-- Rounding an integer to a double moves its logarithm only if it has more than 53 bits. -/
theorem abs_logb_roundNat_sub_le {n : ℕ} (hn : 0 < n) :
    |Real.logb 2 (roundNat n) - Real.logb 2 n| ≤ Real.logb 2 n / 2 ^ 56 := by
  have hnPos : (0 : ℝ) < n := by exact_mod_cast hn
  by_cases hsmall : n < 2 ^ 53
  · rw [roundNat, if_pos hsmall, sub_self, abs_zero]
    have := Real.logb_nonneg one_lt_two (by exact_mod_cast hn : (1 : ℝ) ≤ n)
    positivity
  · have hround : |(roundNat n : ℝ) - n| ≤ 1 / 2 ^ 53 * n := by
      have hcast := (Rat.cast_le (K := ℝ)).2 (abs_roundNat_sub_le n)
      push_cast at hcast
      linarith
    have hlarge : (53 : ℝ) ≤ Real.logb 2 n := le_logb_of_pow_le (not_lt.1 hsmall)
    have := abs_logb_sub_logb_le hnPos hround (by norm_num)
    linarith

/-- The computed logarithm of an integer of any size. -/
theorem abs_log2Nat_sub_le {n : ℕ} (hn : 0 < n) :
    |(log2Nat n : ℝ) - Real.logb 2 n| ≤ Real.logb 2 n / 2 ^ 51 := by
  have hx := roundNat_pos hn
  have hmoved := abs_logb_roundNat_sub_le hn
  have hcomputed : |(log2Nat n : ℝ) - Real.logb 2 (roundNat n)|
      ≤ Real.logb 2 (roundNat n) / 2 ^ 52 := by
    unfold log2Nat
    extract_lets x
    split
    next h => exact abs_log2_sub_le hx ((Nat.log2_lt hx.ne').2 h)
    next h => exact abs_log2Scaled_sub_le ((Nat.le_log2 hx.ne').2 (not_lt.1 h))
  rw [abs_le] at *
  constructor
  · linarith
  · linarith

end Binary64
end PadicLift
