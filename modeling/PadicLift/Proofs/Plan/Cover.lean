import Mathlib.NumberTheory.Primorial
import PadicLift.Plan
import PadicLift.Proofs.Number.Logarithm
import PadicLift.Proofs.Prime.Trim

/-!
# When covering is enough

A basis covers its bits if a sum of rounded logarithms says so, and what it then has to hold is
decided by its product. The product of odd primes is odd, so it need not exceed `2 * x + 2` by its
logarithm: a margin of `log₂ 3`, as a double, is enough (`two_mul_lt_prod`), since `3 * x` lies
above `2 * x + 1` by a factor that no rounding makes up for. This rests on how long a basis can
be. Its primes are at most `maxModulus`, so their product is at most a primorial, and few of them
are small.

Only for `x = 1` there is no such factor. The only basis with a product up to 3 is then the prime 3
itself, and its logarithm is the margin.
-/

namespace PadicLift

open Binary64 hiding round

variable {basis : List ℕ}

/-! ## The logarithm of a product -/

/-- The logarithm of a product is the sum of the logarithms. -/
theorem logb_prod_eq_sum (hpos : ∀ q ∈ basis, 0 < q) :
    Real.logb 2 (basis.prod : ℕ) = (basis.map fun q : ℕ => Real.logb 2 q).sum := by
  induction basis with
  | nil => simp
  | cons q rest ih =>
    rw [List.forall_mem_cons] at hpos
    have hq : (q : ℝ) ≠ 0 := by exact_mod_cast hpos.1.ne'
    have hrest : ((rest.prod : ℕ) : ℝ) ≠ 0 := by exact_mod_cast (List.prod_pos hpos.2).ne'
    rw [List.prod_cons, Nat.cast_mul, Real.logb_mul hq hrest, ih hpos.2, List.map_cons,
      List.sum_cons]

/-- One doubling more shows in the logarithm. -/
theorem one_add_mul_logb_le {y z r : ℕ} (hy : 0 < y) (h : 2 * y ^ r ≤ z ^ r) :
    1 + r * Real.logb 2 y ≤ r * Real.logb 2 z := by
  have hyReal : (0 : ℝ) < (y : ℝ) ^ r := by positivity
  have hlog : Real.logb 2 (2 * (y : ℝ) ^ r) ≤ Real.logb 2 ((z : ℝ) ^ r) :=
    Real.logb_le_logb_of_le one_lt_two (by positivity) (by exact_mod_cast h)
  rwa [Real.logb_mul two_ne_zero hyReal.ne', Real.logb_self_eq_one one_lt_two, Real.logb_pow,
    Real.logb_pow] at hlog

theorem logb_three_mul {x : ℕ} (hx : 0 < x) :
    Real.logb 2 ((3 * x : ℕ) : ℝ) = Real.logb 2 3 + Real.logb 2 x := by
  rw [Nat.cast_mul, Real.logb_mul (by norm_num) (by exact_mod_cast hx.ne')]
  rfl

/-- The fourth power of `6 / 5` is more than 2. -/
theorem quarter_add_logb_le {x : ℕ} (hx : 2 ≤ x) :
    1 / 4 + Real.logb 2 ((2 * x + 1 : ℕ) : ℝ) ≤ Real.logb 2 3 + Real.logb 2 x := by
  have hgap : 2 * (2 * x + 1) ^ 4 ≤ (3 * x) ^ 4 := by
    have hratio : (6 * (2 * x + 1)) ^ 4 ≤ (5 * (3 * x)) ^ 4 := Nat.pow_le_pow_left (by omega) 4
    rw [mul_pow 6, mul_pow 5] at hratio
    omega
  have hlog := one_add_mul_logb_le (by omega) hgap
  rw [logb_three_mul (by omega), Nat.cast_ofNat] at hlog
  linarith

/-- The square of `149 / 100` is more than 2. -/
theorem half_add_logb_le {x : ℕ} (hx : 75 ≤ x) :
    1 / 2 + Real.logb 2 ((2 * x + 1 : ℕ) : ℝ) ≤ Real.logb 2 3 + Real.logb 2 x := by
  have hgap : 2 * (2 * x + 1) ^ 2 ≤ (3 * x) ^ 2 := by
    have hratio : (149 * (2 * x + 1)) ^ 2 ≤ (100 * (3 * x)) ^ 2 :=
      Nat.pow_le_pow_left (by omega) 2
    rw [mul_pow 149, mul_pow 100] at hratio
    omega
  have hlog := one_add_mul_logb_le (by omega) hgap
  rw [logb_three_mul (by omega), Nat.cast_ofNat] at hlog
  linarith

/-! ## How long a basis can be -/

/-- Distinct primes up to a number divide its primorial. -/
theorem prod_le_four_pow {high : ℕ} (hincreasing : basis.Pairwise (· < ·))
    (hprime : ∀ q ∈ basis, q.Prime) (hmax : ∀ q ∈ basis, q ≤ high) : basis.prod ≤ 4 ^ high := by
  have hnodup : basis.Nodup := hincreasing.imp Nat.ne_of_lt
  have hprod : basis.prod = ∏ q ∈ basis.toFinset, q := by
    rw [List.prod_toFinset _ hnodup, List.map_id']
  rw [hprod]
  refine le_trans (Finset.prod_le_prod_of_subset_of_one_le' (fun q hq => ?_) fun q hq _ => ?_)
    (primorial_le_four_pow high)
  · rw [List.mem_toFinset] at hq
    have hle := hmax q hq
    exact Finset.mem_filter.2 ⟨Finset.mem_range.2 (by omega), hprime q hq⟩
  · exact (Finset.mem_filter.1 hq).2.one_lt.le

/-- Distinct primes up to a bound have a product of at most four to the power of the bound. -/
theorem logb_prod_le {high : ℕ} (hincreasing : basis.Pairwise (· < ·))
    (hprime : ∀ q ∈ basis, q.Prime) (hmax : ∀ q ∈ basis, q ≤ high) :
    Real.logb 2 (basis.prod : ℕ) ≤ 2 * high := by
  have hpow : basis.prod ≤ 2 ^ (2 * high) := by
    rw [pow_mul]
    exact prod_le_four_pow hincreasing hprime hmax
  have hlog := logb_le_of_le_pow (List.prod_pos fun q hq => (hprime q hq).pos) hpow
  rwa [Nat.cast_mul, Nat.cast_ofNat] at hlog

/-- The members below a power of two are few. -/
theorem length_filter_le (hincreasing : basis.Pairwise (· < ·)) (bits : ℕ) :
    (basis.filter fun q => decide (q < 2 ^ bits)).length ≤ 2 ^ bits := by
  have hpos := Nat.two_pow_pos bits
  have hle := PrimePool.length_le_of_increasing 0 (2 ^ bits - 1)
    (hincreasing.sublist List.filter_sublist) (fun _ _ => Nat.zero_le _) (fun q hq => by
      have hlt : q < 2 ^ bits := of_decide_eq_true (List.mem_filter.1 hq).2
      omega)
  omega

/-- Each of the others counts with its logarithm. -/
theorem length_mul_le (bits : ℕ) (hpos : ∀ q ∈ basis, 0 < q) :
    (basis.length : ℝ) * bits
      ≤ (basis.filter fun q => decide (q < 2 ^ bits)).length * bits
        + (basis.map fun q : ℕ => Real.logb 2 q).sum := by
  induction basis with
  | nil => simp
  | cons q rest ih =>
    rw [List.forall_mem_cons] at hpos
    have hrest := ih hpos.2
    rw [List.map_cons, List.sum_cons, List.length_cons, List.filter_cons]
    by_cases hq : q < 2 ^ bits
    · have hlog : 0 ≤ Real.logb 2 q := Real.logb_nonneg one_lt_two (by exact_mod_cast hpos.1)
      rw [if_pos (decide_eq_true hq), List.length_cons]
      push_cast
      linarith
    · have hlog : (bits : ℝ) ≤ Real.logb 2 q := le_logb_of_pow_le (not_lt.1 hq)
      rw [if_neg (by simpa using hq)]
      push_cast
      linarith

/-- So a basis has not many more primes than a twentieth of its bits. -/
theorem length_le_logb_prod (hincreasing : basis.Pairwise (· < ·)) (hpos : ∀ q ∈ basis, 0 < q) :
    (basis.length : ℝ) ≤ 2 ^ 20 + Real.logb 2 (basis.prod : ℕ) / 20 := by
  have hsum := length_mul_le 20 hpos
  have hfew : ((basis.filter fun q => decide (q < 2 ^ 20)).length : ℝ) ≤ 2 ^ 20 := by
    exact_mod_cast length_filter_le hincreasing 20
  rw [logb_prod_eq_sum hpos]
  set few : ℝ := ((basis.filter fun q => decide (q < 2 ^ 20)).length : ℝ)
  push_cast at hsum
  linarith

/-! ## How much a sum of logarithms can be too large -/

/-- Growth by a small factor, many times, is nearly linear. -/
theorem one_add_pow_le {ε : ℝ} (hε : 0 ≤ ε) {k : ℕ} (hk : k * ε ≤ 1 / 1000) :
    (1 + ε) ^ k ≤ 1 + k * ε * (1 + 1 / 500) := by
  have hkε : 0 ≤ k * ε := by positivity
  rcases Nat.eq_zero_or_pos k with rfl | hkPos
  · simp
  have hεle : ε ≤ 1 := by
    have hone : (1 : ℝ) ≤ k := by exact_mod_cast hkPos
    have := mul_le_mul_of_nonneg_right hone hε
    linarith
  have hbernoulli : 1 - k * ε ≤ (1 - ε) ^ k := by
    have := one_add_mul_le_pow (by linarith : -2 ≤ -ε) k
    calc 1 - k * ε = 1 + k * -ε := by ring
      _ ≤ (1 + -ε) ^ k := this
      _ = (1 - ε) ^ k := by ring
  have hproduct : (1 + ε) ^ k * (1 - ε) ^ k ≤ 1 := by
    rw [← mul_pow]
    exact pow_le_one₀ (by nlinarith) (by nlinarith)
  have hpow : (1 + ε) ^ k * (1 - k * ε) ≤ 1 :=
    (mul_le_mul_of_nonneg_left hbernoulli (by positivity)).trans hproduct
  have hone : 1 ≤ (1 + k * ε * (1 + 1 / 500)) * (1 - k * ε) := by nlinarith
  exact le_of_mul_le_mul_right (hpow.trans hone) (by linarith)

/-- The logarithm of an odd prime is at least one and a half. -/
theorem logb_ge_of_three_le {q : ℕ} (hq : 3 ≤ q) : 3 / 2 ≤ Real.logb 2 q := by
  have hsquare : ((3 : ℕ) : ℝ) ≤ Real.logb 2 ((q ^ 2 : ℕ) : ℝ) := le_logb_of_pow_le (by nlinarith)
  rw [Nat.cast_pow, Real.logb_pow] at hsquare
  push_cast at hsquare
  linarith

/-- The computed logarithms of odd primes, before they are added up. -/
theorem sum_log2Nat_le (hthree : ∀ q ∈ basis, 3 ≤ q) :
    (∀ x ∈ basis.map log2Nat, 1 ≤ x) ∧
      ((basis.map log2Nat).sum : ℝ)
        ≤ (basis.map fun q : ℕ => Real.logb 2 q).sum * (1 + 1 / 2 ^ 51) := by
  induction basis with
  | nil => simp
  | cons q rest ih =>
    rw [List.forall_mem_cons] at hthree
    obtain ⟨hone, hrest⟩ := ih hthree.2
    have hnear := abs_le.1 (abs_log2Nat_sub_le (by omega : 0 < q))
    have hlog := logb_ge_of_three_le hthree.1
    have hq : (1 : ℝ) ≤ log2Nat q := by linarith
    rw [List.map_cons, List.forall_mem_cons, List.sum_cons, List.map_cons, List.sum_cons,
      Rat.cast_add]
    exact ⟨⟨by exact_mod_cast hq, hone⟩, by linarith⟩

/-- The computed bits of a basis of odd primes. -/
theorem log2Sum_le (hthree : ∀ q ∈ basis, 3 ≤ q) (hlength : (basis.length : ℝ) ≤ 2 ^ 40) :
    (log2Sum basis : ℝ) ≤ Real.logb 2 (basis.prod : ℕ)
      + Real.logb 2 (basis.prod : ℕ) * (1 / 2 ^ 51 + basis.length / 2 ^ 52 * (1 + 1 / 400)) := by
  have hpos : ∀ q ∈ basis, 0 < q := fun q hq => by have := hthree q hq; omega
  obtain ⟨hone, hsum⟩ := sum_log2Nat_le hthree
  -- The logarithms are rounded once each, and then once for each sum.
  have hadded : (log2Sum basis : ℝ)
      ≤ (basis.map log2Nat).sum * (1 + 1 / 2 ^ 52) ^ basis.length := by
    have hcast := (Rat.cast_le (K := ℝ)).2 (sum_le_mul_pow hone)
    rw [List.length_map] at hcast
    simp only [Rat.cast_mul, Rat.cast_pow, Rat.cast_add, Rat.cast_div, Rat.cast_one,
      Rat.cast_ofNat] at hcast
    exact hcast
  have hgrowth : (1 + 1 / 2 ^ 52 : ℝ) ^ basis.length
      ≤ 1 + basis.length * (1 / 2 ^ 52) * (1 + 1 / 500) :=
    one_add_pow_le (by positivity) (by linarith)
  have hlog : 0 ≤ Real.logb 2 (basis.prod : ℕ) :=
    Real.logb_nonneg one_lt_two (by exact_mod_cast List.prod_pos hpos)
  have hlengthNonneg : (0 : ℝ) ≤ basis.length := Nat.cast_nonneg _
  rw [← logb_prod_eq_sum hpos] at hsum
  set L := Real.logb 2 (basis.prod : ℕ)
  set k : ℝ := (basis.length : ℝ)
  calc (log2Sum basis : ℝ) ≤ (basis.map log2Nat).sum * (1 + 1 / 2 ^ 52) ^ basis.length := hadded
    _ ≤ L * (1 + 1 / 2 ^ 51) * (1 + k * (1 / 2 ^ 52) * (1 + 1 / 500)) :=
        mul_le_mul hsum hgrowth (by positivity) (by positivity)
    _ = L + L * (1 / 2 ^ 51 + k / 2 ^ 52 * ((1 + 1 / 2 ^ 51) * (1 + 1 / 500))) := by ring
    _ ≤ L + L * (1 / 2 ^ 51 + k / 2 ^ 52 * (1 + 1 / 400)) := by
        gcongr
        norm_num

/-! ## What the bits to cover come to -/

/-- The least margin that is enough: `log₂ 3` as a double. -/
def leastMargin : ℚ := log2Nat 3

/-- The least margin is a double. -/
theorem leastMargin_eq : leastMargin = (7138036527644008 : ℕ) / 2 ^ 52 := by
  decide +kernel

/-- The logarithm of 3 exceeds the least margin by no more than `2 ^ -50`. -/
theorem logb_three_le : Real.logb 2 3 ≤ leastMargin + 1 / 2 ^ 50 := by
  have hnear := (abs_le.1 (abs_log2Nat_sub_le (by decide : 0 < 3))).1
  have hlog : Real.logb 2 (3 : ℕ) ≤ (2 : ℕ) := logb_le_of_le_pow (by decide) (by decide)
  push_cast at hnear hlog
  have hcast : ((leastMargin : ℚ) : ℝ) = log2Nat 3 := rfl
  rw [hcast]
  linarith

/-- Rounding takes next to nothing away from a number that is not negative. -/
theorem le_cast_round {x : ℚ} (hx : 0 ≤ x) :
    (x : ℝ) - (x + 1) / 2 ^ 53 ≤ (Binary64.round x : ℚ) := by
  have hxReal : (0 : ℝ) ≤ x := by exact_mod_cast hx
  have hround := (abs_le.1 (abs_cast_round_sub_le x)).1
  rw [abs_of_nonneg hxReal] at hround
  linarith

theorem log2Nat_nonneg {m : ℕ} (hm : 0 < m) : 0 ≤ log2Nat m := by
  have hnear := (abs_le.1 (abs_log2Nat_sub_le hm)).1
  have hlog : 0 ≤ Real.logb 2 m := Real.logb_nonneg one_lt_two (by exact_mod_cast hm)
  have hcast : (0 : ℝ) ≤ log2Nat m := by linarith
  exact_mod_cast hcast

/-- The bits to cover are nearly the logarithm of `3 * n * norm`. -/
theorem logb_le_bitsFor {norm n : ℕ} (hnorm : 0 < norm) (hn : 0 < n) {margin : ℚ}
    (hmargin : leastMargin ≤ margin) :
    Real.logb 2 3 + Real.logb 2 (n * norm : ℕ) - Real.logb 2 (n * norm : ℕ) / 2 ^ 50 - 1 / 2 ^ 48
      ≤ (Extent.bitsFor norm n margin : ℝ) := by
  have hnormReal : (norm : ℝ) ≠ 0 := by exact_mod_cast hnorm.ne'
  have hnReal : (n : ℝ) ≠ 0 := by exact_mod_cast hn.ne'
  have hsplit : Real.logb 2 (n * norm : ℕ) = Real.logb 2 norm + Real.logb 2 n := by
    rw [Nat.cast_mul, Real.logb_mul hnReal hnormReal, add_comm]
  have hnormNear := (abs_le.1 (abs_log2Nat_sub_le hnorm)).1
  have hnNear := (abs_le.1 (abs_log2Nat_sub_le hn)).1
  have hnormLog : 0 ≤ Real.logb 2 norm := Real.logb_nonneg one_lt_two (by exact_mod_cast hnorm)
  have hnLog : 0 ≤ Real.logb 2 n := Real.logb_nonneg one_lt_two (by exact_mod_cast hn)
  have hsum : 0 ≤ log2Nat norm + log2Nat n := add_nonneg (log2Nat_nonneg hnorm) (log2Nat_nonneg hn)
  have hmarginReal : (leastMargin : ℝ) ≤ margin := by exact_mod_cast hmargin
  have hmarginNonneg : 0 ≤ margin := le_trans (by rw [leastMargin_eq]; positivity) hmargin
  have hleast : (leastMargin : ℝ) ≤ 2 := by
    rw [leastMargin_eq]
    norm_num
  have hthree := logb_three_le
  -- Two roundings: of the sum of the logarithms, and with the margin.
  have hfirst := le_cast_round hsum
  have hlast := le_cast_round (add_nonneg (round_nonneg hsum) hmarginNonneg)
  have hbits : Extent.bitsFor norm n margin
      = Binary64.round (Binary64.round (log2Nat norm + log2Nat n) + margin) := rfl
  rw [hsplit, hbits]
  push_cast at hfirst hlast
  linarith

/-- Rounding does not take a margin below the least one. -/
theorem leastMargin_le_round {x : ℚ} (hx : leastMargin ≤ x) : leastMargin ≤ Binary64.round x := by
  have hpos : 0 < x := lt_of_lt_of_le (by rw [leastMargin_eq]; positivity) hx
  rw [leastMargin_eq] at hx ⊢
  exact le_round (by norm_num) hpos hx

/-- For one entry of size 1 only the margin has to be covered. -/
theorem bitsFor_one_one (margin : ℚ) : Extent.bitsFor 1 1 margin = Binary64.round margin := by
  have hzero : Binary64.add (log2Nat 1) (log2Nat 1) = 0 := by decide +kernel
  rw [Extent.bitsFor, hzero, Binary64.add, zero_add]

/-! ## Odd bases -/

/-- Odd primes that a pool can hold. -/
structure IsOddBasis (basis : List ℕ) : Prop where
  increasing : basis.Pairwise (· < ·)
  prime : ∀ q ∈ basis, q.Prime
  le_max : ∀ q ∈ basis, q ≤ maxModulus
  odd : ∀ q ∈ basis, 2 < q

namespace IsOddBasis

section Bits

variable (hbasis : IsOddBasis basis)
include hbasis

/-- A basis of odd primes has an odd product. -/
theorem not_two_dvd_prod : ¬ 2 ∣ basis.prod := by
  intro hdvd
  obtain ⟨q, hq, hdvd⟩ := (Prime.dvd_prod_iff Nat.prime_two.prime).1 hdvd
  have heq := (Nat.prime_dvd_prime_iff_eq Nat.prime_two (hbasis.prime q hq)).1 hdvd
  exact (hbasis.odd q hq).ne heq

/-- The computed bits of a short basis are almost right. -/
theorem log2Sum_le_of_short (hshort : Real.logb 2 (basis.prod : ℕ) ≤ 8) :
    (log2Sum basis : ℝ) ≤ Real.logb 2 (basis.prod : ℕ) + 1 / 2 ^ 40 := by
  have hpos : ∀ q ∈ basis, 0 < q := fun q hq => (hbasis.prime q hq).pos
  have hnone : basis.filter (fun q => decide (q < 2 ^ 1)) = [] := by
    refine List.filter_eq_nil_iff.2 fun q hq => ?_
    have hq := hbasis.odd q hq
    rw [decide_eq_true_eq]
    omega
  have hlength := length_mul_le 1 hpos
  rw [hnone, ← logb_prod_eq_sum hpos] at hlength
  have hlog : 0 ≤ Real.logb 2 (basis.prod : ℕ) :=
    Real.logb_nonneg one_lt_two (by exact_mod_cast List.prod_pos hpos)
  set k : ℝ := (basis.length : ℝ) with hk
  simp only [List.length_nil, Nat.cast_zero, zero_add, Nat.cast_one, mul_one] at hlength
  have hsum := log2Sum_le hbasis.odd (by rw [← hk]; linarith)
  have herror : Real.logb 2 (basis.prod : ℕ) * (1 / 2 ^ 51 + k / 2 ^ 52 * (1 + 1 / 400))
      ≤ 8 * (1 / 2 ^ 51 + 8 / 2 ^ 52 * (1 + 1 / 400)) := by
    have hk8 : k ≤ 8 := hlength.trans hshort
    gcongr
  linarith

/-- The computed bits of any basis are too large by less than a half. -/
theorem log2Sum_le_add :
    Real.logb 2 (basis.prod : ℕ) ≤ 189812530 ∧
      (log2Sum basis : ℝ) ≤ Real.logb 2 (basis.prod : ℕ) + 9 / 20 := by
  have hpos : ∀ q ∈ basis, 0 < q := fun q hq => (hbasis.prime q hq).pos
  have hbits : Real.logb 2 (basis.prod : ℕ) ≤ 189812530 := by
    have hle := logb_prod_le hbasis.increasing hbasis.prime hbasis.le_max
    have hmax : (maxModulus : ℝ) = 94906265 := by norm_num [maxModulus]
    rw [hmax] at hle
    linarith
  have hlog : 0 ≤ Real.logb 2 (basis.prod : ℕ) :=
    Real.logb_nonneg one_lt_two (by exact_mod_cast List.prod_pos hpos)
  have hlength := length_le_logb_prod hbasis.increasing hpos
  set k : ℝ := (basis.length : ℝ) with hk
  have hkBound : k ≤ 10539203 := by linarith
  have hsum := log2Sum_le hbasis.odd (by rw [← hk]; linarith)
  have herror : Real.logb 2 (basis.prod : ℕ) * (1 / 2 ^ 51 + k / 2 ^ 52 * (1 + 1 / 400)) ≤ 9 / 20 :=
    calc Real.logb 2 (basis.prod : ℕ) * (1 / 2 ^ 51 + k / 2 ^ 52 * (1 + 1 / 400))
        ≤ 189812530 * (1 / 2 ^ 51 + 10539203 / 2 ^ 52 * (1 + 1 / 400)) := by gcongr
      _ ≤ 9 / 20 := by norm_num
  exact ⟨hbits, hsum.trans (by linarith)⟩

/-- The only basis with a product up to 3 is the prime 3, whose bits are the margin. -/
theorem log2Sum_le_leastMargin (hle : basis.prod ≤ 3) : log2Sum basis ≤ leastMargin := by
  have hpos : 0 < basis.prod := List.prod_pos fun q hq => (hbasis.prime q hq).pos
  have hthree : ∀ q ∈ basis, q = 3 := fun q hq =>
    le_antisymm ((Nat.le_of_dvd hpos (List.dvd_prod hq)).trans hle) (hbasis.odd q hq)
  have hincreasing := hbasis.increasing
  rcases basis with _ | ⟨q, _ | ⟨r, rest⟩⟩
  · decide +kernel
  · rw [hthree q List.mem_cons_self]
    decide +kernel
  · have hlt := List.rel_of_pairwise_cons hincreasing List.mem_cons_self
    have hq := hthree q List.mem_cons_self
    have hr := hthree r (List.mem_cons_of_mem q List.mem_cons_self)
    omega

end Bits

/-! ## The margin that is enough -/

/-- If `3 * x` is larger than `2 * x + 1` by enough, a basis with a product up to `2 * x + 1` does
not cover: its computed bits are too small by `1 / 2 ^ 40` at least, or by a twentieth. -/
theorem log2Sum_le_bitsFor (hbasis : IsOddBasis basis) {norm n : ℕ} {margin : ℚ} (hnorm : 0 < norm)
    (hn : 0 < n) (hmargin : leastMargin ≤ margin) (htwo : 2 ≤ n * norm)
    (hle : basis.prod ≤ 2 * (n * norm) + 1) :
    (log2Sum basis : ℝ) ≤ (Extent.bitsFor norm n margin : ℝ) := by
  have hbits := logb_le_bitsFor hnorm hn hmargin
  have hlog : 0 ≤ Real.logb 2 (n * norm : ℕ) :=
    Real.logb_nonneg one_lt_two (by exact_mod_cast Nat.mul_pos hn hnorm)
  have hpos : 0 < basis.prod := List.prod_pos fun q hq => (hbasis.prime q hq).pos
  have hprod : Real.logb 2 (basis.prod : ℕ) ≤ Real.logb 2 ((2 * (n * norm) + 1 : ℕ) : ℝ) :=
    Real.logb_le_logb_of_le one_lt_two (by exact_mod_cast hpos) (by exact_mod_cast hle)
  generalize n * norm = x at *
  by_cases hsmall : x < 75
  · have hgap := quarter_add_logb_le htwo
    have hshort : Real.logb 2 ((2 * x + 1 : ℕ) : ℝ) ≤ (8 : ℕ) :=
      logb_le_of_le_pow (by omega) (by omega)
    have hxShort : Real.logb 2 (x : ℝ) ≤ (8 : ℕ) := logb_le_of_le_pow (by omega) (by omega)
    rw [Nat.cast_ofNat] at hshort hxShort
    have hsum := hbasis.log2Sum_le_of_short (hprod.trans hshort)
    linarith
  · have hgap := half_add_logb_le (not_lt.1 hsmall)
    obtain ⟨hlong, hsum⟩ := hbasis.log2Sum_le_add
    -- A matrix far larger than any basis needs no gap.
    rcases le_total (Real.logb 2 (x : ℝ)) (2 ^ 40) with hlarge | hlarge
    · linarith
    · have hthree : 0 ≤ Real.logb 2 (3 : ℝ) := Real.logb_nonneg one_lt_two (by norm_num)
      linarith

/-- Whatever has to be covered, a basis that covers it with the margin `log₂ 3` or a larger one
holds all corrections. -/
theorem two_mul_lt_prod (hbasis : IsOddBasis basis) {norm n : ℕ} {margin : ℚ} (hnorm : 0 < norm)
    (hn : 0 < n) (hmargin : leastMargin ≤ margin)
    (hcovered : (Extent.bits (Extent.bitsFor norm n margin)).isCovered basis = true) :
    2 * (n * norm + 1) < basis.prod := by
  by_contra hsmall
  have hcovered : Extent.bitsFor norm n margin < log2Sum basis := of_decide_eq_true hcovered
  have hnot := hbasis.not_two_dvd_prod
  have hle : basis.prod ≤ 2 * (n * norm) + 1 := by omega
  have hpos : 0 < n * norm := Nat.mul_pos hn hnorm
  by_cases hone : n * norm = 1
  · obtain ⟨rfl, rfl⟩ := mul_eq_one.1 hone
    have hsum := hbasis.log2Sum_le_leastMargin (by omega)
    rw [bitsFor_one_one] at hcovered
    exact absurd hcovered (not_lt.2 (hsum.trans (leastMargin_le_round hmargin)))
  · have hsum := hbasis.log2Sum_le_bitsFor hnorm hn hmargin (by omega) hle
    have hcast : ((Extent.bitsFor norm n margin : ℚ) : ℝ) < log2Sum basis := by
      exact_mod_cast hcovered
    exact absurd hcast (not_lt.2 hsum)

end IsOddBasis
end PadicLift
