import Mathlib.Analysis.Convex.SpecificFunctions.Basic
import PadicLift.Proofs.Number.Quotient
import PadicLift.Proofs.Plan.DigitCount
import PadicLift.Proofs.Plan.Margin
import PadicLift.Proofs.Prime.Size

/-!
# How many primes cover an extent

A prime with `d + 1` bits is larger than `2 ^ d`, so `k` of them cover `k * d` bits, and distinct
ones cover more: their logarithms lie above `d` by a part that grows with the square of `k`
(`add_le_logb_prod`). That part is larger than all that rounding takes away from the sum of their
computed logarithms, whatever `k` is (`lt_log2Sum`). So an estimate that counts each prime with one
bit less than it has is never short, neither in exact numbers nor in doubles.
-/

namespace PadicLift

open Binary64 hiding round

variable {basis : List ℕ} {d : ℕ}

/-! ## Distinct numbers above a bound -/

/-- The `i`-th of increasing numbers above a bound is at least `i` above it. -/
theorem mul_le_two_mul_sum {low : ℕ} (hincreasing : basis.Pairwise (· < ·))
    (hlow : ∀ q ∈ basis, low < q) :
    basis.length * (2 * low + basis.length + 1) ≤ 2 * basis.sum := by
  induction basis generalizing low with
  | nil => simp
  | cons q rest ih =>
    rw [List.pairwise_cons] at hincreasing
    have hq := hlow q List.mem_cons_self
    have hrest : rest.length * (2 * (low + 1) + rest.length + 1) ≤ 2 * rest.sum :=
      ih hincreasing.2 fun r hr => by
        have hr := hincreasing.1 r hr
        omega
    rw [List.length_cons, List.sum_cons]
    nlinarith

/-! ## Logarithms of numbers with `d + 1` bits -/

/-- Between two powers of two the logarithm lies above the line through its ends. -/
theorem line_le_logb {q : ℕ} (hlow : 2 ^ d ≤ q) (hhigh : q ≤ 2 ^ (d + 1)) :
    (d : ℝ) - 1 + q / 2 ^ d ≤ Real.logb 2 q := by
  have hpower : (0 : ℝ) < 2 ^ d := by positivity
  have hlowReal : (2 : ℝ) ^ d ≤ q := by exact_mod_cast hlow
  have hhighReal : (q : ℝ) ≤ 2 ^ d * 2 := by exact_mod_cast hhigh
  have ht₀ : 0 ≤ (q : ℝ) / 2 ^ d - 1 := by
    rw [sub_nonneg, le_div_iff₀ hpower, one_mul]
    exact hlowReal
  have ht₁ : (q : ℝ) / 2 ^ d - 1 ≤ 1 := by
    rw [sub_le_iff_le_add, div_le_iff₀ hpower]
    linarith
  set t : ℝ := (q : ℝ) / 2 ^ d - 1 with ht
  have hbernoulli : (2 : ℝ) ^ t ≤ 1 + t := by
    have h := rpow_one_add_le_one_add_mul_self (by norm_num : (-1 : ℝ) ≤ 1) ht₀ ht₁
    rwa [one_add_one_eq_two, mul_one] at h
  have hsplit : (d : ℝ) - 1 + q / 2 ^ d = d + t := by rw [ht]; ring
  rw [hsplit, Real.le_logb_iff_rpow_le one_lt_two (hpower.trans_le hlowReal),
    Real.rpow_add two_pos, Real.rpow_natCast]
  calc (2 : ℝ) ^ d * 2 ^ t ≤ 2 ^ d * (1 + t) := mul_le_mul_of_nonneg_left hbernoulli hpower.le
    _ = q := by
        rw [ht]
        field_simp
        ring

section Bits

variable (hbits : ∀ q ∈ basis, HasBits (d + 1) q)
include hbits

/-- Logarithms of primes with a given number of bits lie above the line through both ends. -/
theorem sum_line_le :
    (basis.length : ℝ) * (d - 1) + basis.sum / 2 ^ d
      ≤ (basis.map fun q : ℕ => Real.logb 2 q).sum := by
  induction basis with
  | nil => simp
  | cons q rest ih =>
    rw [List.forall_mem_cons] at hbits
    have hrest := ih hbits.2
    have hq : (d : ℝ) - 1 + q / 2 ^ d ≤ Real.logb 2 q := line_le_logb hbits.1.1.le hbits.1.2.le
    rw [List.length_cons, List.map_cons, List.sum_cons, List.sum_cons, Nat.cast_add _ rest.sum,
      Nat.cast_succ, add_div]
    linarith

/-- Distinct numbers with `d + 1` bits cover `d` bits each, and some more. -/
theorem add_le_logb_prod (hincreasing : basis.Pairwise (· < ·)) :
    (basis.length : ℝ) * d + basis.length * (basis.length + 1) / 2 ^ (d + 1)
      ≤ Real.logb 2 (basis.prod : ℕ) := by
  have hpower : (0 : ℝ) < 2 ^ d := by positivity
  have hsum : (basis.length : ℝ) * (2 * 2 ^ d + basis.length + 1) ≤ 2 * basis.sum := by
    exact_mod_cast mul_le_two_mul_sum hincreasing fun q hq => (hbits q hq).1
  have hline := sum_line_le hbits
  rw [logb_prod_eq_sum fun q hq => (Nat.zero_le _).trans_lt (hbits q hq).1]
  refine le_trans ?_ hline
  have hshare : (basis.length : ℝ) + basis.length * (basis.length + 1) / 2 ^ (d + 1)
      ≤ basis.sum / 2 ^ d := by
    rw [le_div_iff₀ hpower, add_mul, pow_succ]
    field_simp
    linarith
  linarith

/-- No prime with a given number of bits adds more than these bits. -/
theorem logb_prod_le_mul : Real.logb 2 (basis.prod : ℕ) ≤ basis.length * (d + 1) := by
  have hprod : basis.prod ≤ 2 ^ ((d + 1) * basis.length) := by
    rw [pow_mul]
    exact List.prod_le_pow_card basis _ fun q hq => (hbits q hq).2.le
  have hpos : 0 < basis.prod := List.prod_pos fun q hq => (Nat.zero_le _).trans_lt (hbits q hq).1
  have hlog := logb_le_of_le_pow hpos hprod
  rwa [Nat.cast_mul, Nat.cast_succ, mul_comm] at hlog

end Bits

/-! ## Sums of computed logarithms -/

/-- Rounded logarithms fall short of the true ones by very little. -/
theorem mul_le_sum_log2Nat (hpos : ∀ q ∈ basis, 0 < q) :
    (basis.map fun q : ℕ => Real.logb 2 q).sum * (1 - 1 / 2 ^ 51)
      ≤ ((basis.map log2Nat).sum : ℚ) := by
  induction basis with
  | nil => simp
  | cons q rest ih =>
    rw [List.forall_mem_cons] at hpos
    have hrest := ih hpos.2
    have hnear := (abs_le.1 (abs_log2Nat_sub_le hpos.1)).1
    rw [List.map_cons, List.map_cons, List.sum_cons, List.sum_cons]
    push_cast at hrest ⊢
    linarith

/-- The computed bits of a basis of odd primes are too small by little for each of them. -/
theorem logb_prod_sub_le (hthree : ∀ q ∈ basis, 3 ≤ q) :
    Real.logb 2 (basis.prod : ℕ) - Real.logb 2 (basis.prod : ℕ) * (basis.length + 2) / 2 ^ 52
      ≤ log2Sum basis := by
  have hpos : ∀ q ∈ basis, 0 < q := fun q hq => by have := hthree q hq; omega
  have hlog : 0 ≤ Real.logb 2 (basis.prod : ℕ) :=
    Real.logb_nonneg one_lt_two (by exact_mod_cast List.prod_pos hpos)
  have hsum := mul_le_sum_log2Nat hpos
  rw [← logb_prod_eq_sum hpos] at hsum
  have hadded : ((basis.map log2Nat).sum : ℚ) * (1 - 1 / 2 ^ 52 : ℝ) ^ basis.length
      ≤ log2Sum basis := by
    have hcast := (Rat.cast_le (K := ℝ)).2 (mul_pow_le_sum (sum_log2Nat_le hthree).1)
    rw [List.length_map] at hcast
    simp only [Rat.cast_mul, Rat.cast_pow, Rat.cast_sub, Rat.cast_div, Rat.cast_one,
      Rat.cast_ofNat] at hcast
    exact hcast
  -- Each of the roundings takes off a relative `2 ^ (-52)`; Bernoulli adds them up.
  have hbernoulli : 1 - (basis.length : ℝ) / 2 ^ 52 ≤ (1 - 1 / 2 ^ 52 : ℝ) ^ basis.length := by
    have h := one_add_mul_le_pow (by norm_num : (-2 : ℝ) ≤ -(1 / 2 ^ 52)) basis.length
    rw [← sub_eq_add_neg] at h
    linarith
  have hpowerNonneg : (0 : ℝ) ≤ (1 - 1 / 2 ^ 52 : ℝ) ^ basis.length := by
    apply pow_nonneg
    norm_num
  set L := Real.logb 2 (basis.prod : ℕ)
  set k : ℝ := (basis.length : ℝ)
  have hk : 0 ≤ k := Nat.cast_nonneg _
  calc L - L * (k + 2) / 2 ^ 52 ≤ L * (1 - 1 / 2 ^ 51) * (1 - k / 2 ^ 52) := by
        have : 0 ≤ L * k / 2 ^ 103 := by positivity
        linarith
    _ ≤ L * (1 - 1 / 2 ^ 51) * (1 - 1 / 2 ^ 52) ^ basis.length := by
        apply mul_le_mul_of_nonneg_left hbernoulli
        apply mul_nonneg hlog
        norm_num
    _ ≤ ((basis.map log2Nat).sum : ℚ) * (1 - 1 / 2 ^ 52 : ℝ) ^ basis.length :=
        mul_le_mul_of_nonneg_right hsum hpowerNonneg
    _ ≤ log2Sum basis := hadded

/-- Primes with `d + 1` bits cover `d` bits each in doubles too. -/
theorem lt_log2Sum (hne : basis ≠ []) (hincreasing : basis.Pairwise (· < ·)) (hd : 2 ≤ d)
    (hsmall : d ≤ 26) (hbits : ∀ q ∈ basis, HasBits (d + 1) q) :
    (basis.length : ℝ) * d < log2Sum basis := by
  have hthree : ∀ q ∈ basis, 3 ≤ q := by
    intro q hq
    have hq : 2 ^ d < q := (hbits q hq).1
    have hfour : 2 ^ 2 ≤ 2 ^ d := Nat.pow_le_pow_right two_pos hd
    omega
  have hsum := logb_prod_sub_le hthree
  have hlow := add_le_logb_prod hbits hincreasing
  have hhigh := logb_prod_le_mul hbits
  have hone : (1 : ℝ) ≤ basis.length := by exact_mod_cast List.length_pos_of_ne_nil hne
  have hdReal : (d : ℝ) ≤ 26 := by exact_mod_cast hsmall
  set L := Real.logb 2 (basis.prod : ℕ)
  set k : ℝ := (basis.length : ℝ)
  -- What is lost in rounding against what the members have beyond `d` bits.
  have hlost : L * (k + 2) / 2 ^ 52 ≤ 27 * k * (k + 2) / 2 ^ 52 := by
    have hL : L ≤ 27 * k := by nlinarith
    gcongr
  have hbeyond : k * (k + 1) / 2 ^ 27 ≤ k * (k + 1) / 2 ^ (d + 1) := by
    apply div_le_div_of_nonneg_left (by positivity) (by positivity)
    exact pow_le_pow_right₀ one_le_two (by omega)
  have hmore : 27 * k * (k + 2) / 2 ^ 52 < k * (k + 1) / 2 ^ 27 := by
    rw [div_lt_div_iff₀ (by positivity) (by positivity)]
    nlinarith
  linarith

/-- The estimate in sixteenths counts at least a sixteenth more for each member. -/
theorem lt_sum_sixteenths (hne : basis ≠ []) (hbits : ∀ q ∈ basis, HasBits (d + 1) q) :
    basis.length * (16 * d) < basis.foldl (fun s p => s + Extent.sixteenths p) 0 := by
  have hsixteenths : ∀ q ∈ basis.map Extent.sixteenths, 16 * d + 1 ≤ q := by
    rw [List.forall_mem_map]
    intro q hq
    have hpower : 2 ^ (16 * d) ≤ q ^ 16 := by
      rw [mul_comm, pow_mul]
      exact Nat.pow_le_pow_left (hbits q hq).1.le 16
    have hpos : 0 < q ^ 16 := (Nat.two_pow_pos _).trans_le hpower
    exact Nat.add_le_add_right ((Nat.le_log2 hpos.ne').2 hpower) 1
  have hsum := List.card_nsmul_le_sum _ _ hsixteenths
  have hlength := List.length_pos_of_ne_nil hne
  rw [List.length_map, smul_eq_mul, mul_add, List.sum_eq_foldl, List.foldl_map] at hsum
  omega

/-! ## Covering -/

/-- A basis covers a number of bits: its product does, and so do both of its computed sizes. -/
structure Covers (value : ℚ) (basis : List ℕ) : Prop where
  nonempty : basis ≠ []
  lt_prod : (2 : ℝ) ^ (value : ℝ) < (basis.prod : ℕ)
  isNear : (Extent.bits value).isNear basis = true
  isCovered : (Extent.bits value).isCovered basis = true

/-- Distinct moduli of one size cover as many bits as they have without their leading bits. -/
theorem covers_of_hasBits {value : ℚ} (hne : basis ≠ []) (hincreasing : basis.Pairwise (· < ·))
    (hmax : ∀ q ∈ basis, q ≤ maxModulus) (hd : 2 ≤ d) (hbits : ∀ q ∈ basis, HasBits (d + 1) q)
    (hvalue : value ≤ basis.length * d) : Covers value basis := by
  have hpos : 0 < basis.prod := List.prod_pos fun q hq => (Nat.zero_le _).trans_lt (hbits q hq).1
  -- A modulus has at most 27 bits.
  have hsmall : d ≤ 26 := by
    obtain ⟨q, rest, rfl⟩ := List.exists_cons_of_ne_nil hne
    have hlow : 2 ^ d < q := (hbits q List.mem_cons_self).1
    have hq := hmax q List.mem_cons_self
    unfold maxModulus at hq
    have hlt : 2 ^ d < 2 ^ 27 := by omega
    have := (Nat.pow_lt_pow_iff_right one_lt_two).1 hlt
    omega
  have hvalueReal : (value : ℝ) ≤ basis.length * d := by exact_mod_cast hvalue
  refine ⟨hne, ?_, ?_, ?_⟩
  · rw [← Real.lt_logb_iff_rpow_lt one_lt_two (by exact_mod_cast hpos)]
    have hlength : (0 : ℝ) < basis.length := by exact_mod_cast List.length_pos_of_ne_nil hne
    have hbeyond : (0 : ℝ) < basis.length * (basis.length + 1) / 2 ^ (d + 1) := by positivity
    have hlow := add_le_logb_prod hbits hincreasing
    linarith
  · show decide (value < _) = true
    rw [decide_eq_true_eq, Rat.mkRat_eq_div, lt_div_iff₀ (by norm_num)]
    have hsum : ((basis.length * (16 * d) : ℕ) : ℚ)
        < (basis.foldl (fun s p => s + Extent.sixteenths p) 0 : ℕ) := by
      exact_mod_cast lt_sum_sixteenths hne hbits
    push_cast at hsum ⊢
    linarith
  · show decide (value < log2Sum basis) = true
    have hlt := hvalueReal.trans_lt (lt_log2Sum hne hincreasing hd hsmall hbits)
    rw [decide_eq_true_eq]
    exact_mod_cast hlt

/-! ## The estimate -/

/-- How many primes with `bits` bits are expected to cover, each counted with one bit less. -/
def estimate (bits : ℕ) (value : ℚ) : ℕ := ⌈value / (bits - 1 : ℕ)⌉₊

/-- As many primes as estimated have enough bits among them, even with one bit less each. -/
theorem le_estimate_mul {bits : ℕ} (hbits : 2 ≤ bits) (value : ℚ) :
    value ≤ estimate bits value * (bits - 1 : ℕ) := by
  have hpos : (0 : ℚ) < (bits - 1 : ℕ) := by exact_mod_cast (by omega : 0 < bits - 1)
  rw [← div_le_iff₀ hpos]
  exact Nat.le_ceil _

theorem estimate_pos {bits : ℕ} (hbits : 2 ≤ bits) {value : ℚ} (hvalue : 0 < value) :
    0 < estimate bits value := by
  apply Nat.ceil_pos.2
  apply div_pos hvalue
  exact_mod_cast (by omega : 0 < bits - 1)

namespace Extent

/-- The bits to cover are a double from 1 up. -/
theorem isDouble_of_ofMargin {norm n : ℕ} {margin : Number} {value : ℚ} (hnorm : 0 < norm)
    (hn : 0 < n) (hmargin : margin.before (.whole 1) = false)
    (h : ofMargin norm n margin = .ok (.bits value)) : 1 ≤ value ∧ IsDouble value := by
  by_cases hfinite : margin.IsFinite
  · rw [Number.before_whole hfinite, decide_eq_false_iff_not, not_lt, Int.cast_one] at hmargin
    rw [ofMargin_of_isFinite norm n hfinite] at h
    split at h
    · cases h
      have hlogs : 0 ≤ Binary64.add (log2Nat norm) (log2Nat n) :=
        round_nonneg (add_nonneg (log2Nat_nonneg hnorm) (log2Nat_nonneg hn))
      have hsum : 1 ≤ Binary64.add (log2Nat norm) (log2Nat n) + Binary64.round margin.value :=
        (one_le_round hmargin).trans (le_add_of_nonneg_left hlogs)
      exact ⟨one_le_round hsum, isDouble_round (zero_lt_one.trans_le hsum)⟩
    · cases h
  · cases margin with
    | whole v => exact absurd trivial hfinite
    | double negative size => exact absurd trivial hfinite
    | infinite negative => cases h
    | undefined => cases h

/-- A random source is asked for the quotient of the bits to cover and of those it promises. -/
theorem share_of_isRandom {bits : ℕ} {source : PrimeSource} (hsource : source.IsRandom bits)
    (hbits : 3 ≤ bits) (value : ℚ) :
    (Extent.bits value).share source = .ok (Binary64.div value (bits - 1 : ℕ)).ceil := by
  have hone : (1 : ℚ) < (bits : ℚ) - 1 := by
    rw [lt_sub_iff_add_lt, one_add_one_eq_two]
    exact_mod_cast hbits
  rw [share, hsource.size_eq, if_pos hone, Nat.cast_sub (by omega), Nat.cast_one]

end Extent

/-- In a pool there is no room for an estimate that rounding could change. -/
theorem ceil_div_le_iff {bits k : ℕ} {value : ℚ} (hvalue : IsDouble value) (hone : 1 ≤ value)
    (hlow : 2 ≤ bits) (hhigh : bits ≤ 62) (hk : k ≤ maxModulus + 1) :
    (Binary64.div value (bits - 1 : ℕ)).ceil ≤ k ↔ estimate bits value ≤ k := by
  have hproduct : k * (bits - 1) ≤ (maxModulus + 1) * 61 := Nat.mul_le_mul hk (by omega)
  unfold maxModulus at hproduct
  rw [Rat.ceil_le_iff, estimate, Nat.ceil_le, Int.cast_natCast]
  apply hvalue.div_le_natCast_iff hone
  · omega
  · omega
  · omega

namespace Selection

variable {n : ℕ} {bits count : ℕ} {value : ℚ}

/-- Whether a pool is filled, in exact numbers. -/
theorem isFilled_eq {number : Quantity} (hnumber : number.integer? = some (count : ℤ))
    (hvalue : IsDouble value) (hone : 1 ≤ value) (hlow : 2 ≤ bits) (hhigh : bits ≤ 62)
    (pool : PrimePool) :
    isFilled (poolSize number (Binary64.div value (bits - 1 : ℕ)).ceil) pool.primes
      = decide (((count + estimate bits value : ℕ) : ℤ) ≤ pool.primes.length) := by
  have hceil : 0 ≤ (Binary64.div value (bits - 1 : ℕ)).ceil := by
    rw [rat_ceil_eq]
    apply Int.ceil_nonneg
    apply round_nonneg
    positivity
  unfold poolSize
  rw [hnumber]
  show decide (_ ≤ _) = decide (_ ≤ _)
  rw [decide_eq_decide]
  by_cases hless : pool.primes.length < count
  · constructor <;> intro h <;> omega
  · obtain ⟨k, hk⟩ := Nat.exists_eq_add_of_le (not_lt.1 hless)
    have hlength := pool.length_le
    have hshare := ceil_div_le_iff hvalue hone hlow hhigh (by omega : k ≤ maxModulus + 1)
    rw [hk]
    push_cast
    omega

theorem isBelow_one_of_integer {number : Quantity} {c : ℤ} (hnumber : number.integer? = some c)
    (hc : 1 ≤ c) : number.isBelow 1 = false := by
  unfold Quantity.integer? at hnumber
  split at hnumber
  next v hv =>
    cases hnumber
    have hvalue : ¬ (c : ℚ) < (1 : ℤ) := by
      rw [not_lt]
      exact_mod_cast hc
    rw [Quantity.isBelow, hv]
    exact decide_eq_false hvalue
  next => cases hnumber

/-- With a random source, the pool is filled up to the estimate, and split from then on. -/
theorem fromPool_of_isRandom {residues : Residues n} {known : Known n} {settings : Settings}
    {asked : Option ℤ} {supply : Supply} (hsource : supply.source.IsRandom bits) (hlow : 3 ≤ bits)
    (hhigh : bits ≤ 62) (hvalue : IsDouble value) (hone : 1 ≤ value)
    (hcount : (requested settings asked).integer? = some (count : ℤ)) (hpos : 1 ≤ count) :
    fromPool residues known settings asked (.bits value) supply =
      match (PrimePool.empty 0 settings.allowance).fill (count + estimate bits value : ℕ)
        supply.source with
      | (.error f, _, source) => (.error f, { supply with source })
      | (.ok _, pool, source) =>
        settle residues known settings.retries settings.maxRetries.text count (.bits value)
          settings.retries [] pool { supply with source } := by
  have hrequested : (if asked.getD 0 = 0 then settings.primesCount else .ofInt (asked.getD 0))
      = requested settings asked := rfl
  have hbelow := isBelow_one_of_integer hcount (by exact_mod_cast hpos)
  -- The size that the choice asks for is rounded, but comes to the estimate.
  have hfill : (PrimePool.empty 0 settings.allowance).drawUntil
      (isFilled (poolSize (requested settings asked) (Binary64.div value (bits - 1 : ℕ)).ceil))
      supply.source
        = (PrimePool.empty 0 settings.allowance).fill (count + estimate bits value : ℕ)
          supply.source :=
    PrimePool.drawUntil_congr
      (fun pool => isFilled_eq hcount hvalue hone (by omega) hhigh pool) _ _
  unfold fromPool
  dsimp only
  rw [hrequested, hbelow, if_neg Bool.false_ne_true, Extent.share_of_isRandom hsource hlow, hcount]
  dsimp only
  rw [hfill]
  obtain ⟨outcome, pool, source⟩ := (PrimePool.empty 0 settings.allowance).fill
    (count + estimate bits value : ℕ) supply.source
  cases outcome with
  | error f => rfl
  | ok => rfl

end Selection
end PadicLift
