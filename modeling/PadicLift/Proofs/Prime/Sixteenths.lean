import PadicLift.Proofs.Number.Quotient
import PadicLift.Proofs.Plan.Cover

/-!
# Sums of sixteenths

The computed logarithm of a modulus is at most its logarithm in sixteenths, rounded up: the number
of sixteenths is a double, and rounding does not pass over a double. For the same reason this is
true of sums, so a basis that covers by its computed size is near covering
(`Extent.isNear_of_isCovered`).
-/

-- Powers take their instance from the core library, as they do beside the definitions.
attribute [local instance (high)] instPowNat

namespace PadicLift

open Binary64 hiding round

namespace Extent

variable {p : ℕ} {basis : List ℕ}

/-! ## One logarithm -/

theorem lt_two_pow_of_le_maxModulus (hmax : p ≤ maxModulus) : p < 2 ^ 27 :=
  lt_of_le_of_lt hmax (by decide)

theorem log2_le_of_le_maxModulus (hp : 0 < p) (hmax : p ≤ maxModulus) : Nat.log2 p ≤ 26 :=
  Nat.le_of_lt_succ ((Nat.log2_lt hp.ne').2 (lt_two_pow_of_le_maxModulus hmax))

/-- The sixteenths bound the logarithm from above. -/
theorem pow_lt_two_pow_sixteenths (p : ℕ) : p ^ 16 < 2 ^ sixteenths p := Nat.lt_log2_self

/-- The logarithm to any number of places lies below the sixteenths. -/
theorem floorLog2_lt_sixteenths (hp : 0 < p) (places : ℕ) :
    floorLog2 p (places + 4) < sixteenths p * 2 ^ places := by
  obtain ⟨hlow, -⟩ := floorLog2_bounds hp (places + 4)
  have hpower : p ^ 2 ^ (places + 4) = (p ^ 16) ^ 2 ^ places := by
    rw [← pow_mul, pow_add, mul_comm]
    norm_num
  have hlt : 2 ^ floorLog2 p (places + 4) < 2 ^ (sixteenths p * 2 ^ places) := by
    rw [pow_mul 2 (sixteenths p)]
    refine hlow.trans_lt (hpower ▸ ?_)
    exact Nat.pow_lt_pow_left (pow_lt_two_pow_sixteenths p) (Nat.two_pow_pos _).ne'
  exact (Nat.pow_lt_pow_iff_right one_lt_two).1 hlt

/-- They also bound the logarithm that is computed. -/
theorem log2_le_sixteenths (hp : 0 < p) (hmax : p ≤ maxModulus) :
    Binary64.log2 p ≤ (sixteenths p : ℚ) / 16 := by
  unfold Binary64.log2
  extract_lets e places floor
  -- The logarithm of a power of two is exact; any other lies in an interval that is cut out.
  split
  next hpower =>
    have hlt : 2 ^ (16 * e) < 2 ^ sixteenths p := by
      rw [mul_comm, pow_mul, ← hpower]
      exact pow_lt_two_pow_sixteenths p
    have hle : 16 * e < sixteenths p := (Nat.pow_lt_pow_iff_right one_lt_two).1 hlt
    rw [le_div_iff₀ (by norm_num), mul_comm]
    exact_mod_cast hle.le
  next =>
    have hle : dyadic floor places ≤ dyadic (floor + 1) places := by
      rw [dyadic, dyadic, Rat.mkRat_eq_div, Rat.mkRat_eq_div]
      apply div_le_div_of_nonneg_right _ (by positivity)
      push_cast
      linarith
    refine (le_between hle _).2.trans ?_
    obtain ⟨k, hk⟩ : ∃ k, places = k + 4 := by
      have he : e ≤ 26 := log2_le_of_le_maxModulus hp hmax
      have hlog := Nat.log2_le_self e
      exact ⟨48 - Nat.log2 e, by omega⟩
    have hfloor : floor + 1 ≤ sixteenths p * 2 ^ k := by
      have hlt := floorLog2_lt_sixteenths hp k
      rwa [← hk] at hlt
    have hcast : (floor : ℚ) + 1 ≤ sixteenths p * 2 ^ k := by exact_mod_cast hfloor
    rw [dyadic, hk, Rat.mkRat_eq_div, div_le_div_iff₀ (by positivity) (by norm_num)]
    push_cast [pow_add]
    linarith

theorem log2Nat_le_sixteenths (hmax : p ≤ maxModulus) :
    0 ≤ log2Nat p ∧ log2Nat p ≤ (sixteenths p : ℚ) / 16 := by
  rcases Nat.eq_zero_or_pos p with rfl | hp
  · decide +kernel
  · refine ⟨log2Nat_nonneg hp, ?_⟩
    have hround : roundNat p = p := by
      rw [roundNat, if_pos (lt_of_le_of_lt hmax (by decide))]
    have hlog := log2_le_of_le_maxModulus hp hmax
    have hrange := (Nat.log2_lt (k := 1024) hp.ne').1 (by omega)
    unfold log2Nat
    rw [hround, if_pos hrange]
    exact log2_le_sixteenths hp hmax

theorem sixteenths_le_mul (hp : 0 < p) {k : ℕ} (h : p < 2 ^ k) : sixteenths p ≤ k * 16 := by
  show Nat.log2 (p ^ 16) < k * 16
  rw [Nat.log2_lt (by positivity), pow_mul]
  exact Nat.pow_lt_pow_left h (by norm_num)

theorem sixteenths_le (hmax : p ≤ maxModulus) : sixteenths p ≤ 27 * 16 := by
  rcases Nat.eq_zero_or_pos p with rfl | hp
  · decide
  · exact sixteenths_le_mul hp (lt_two_pow_of_le_maxModulus hmax)

/-! ## Sums -/

/-- Rounding does not pass a whole number of sixteenths. -/
theorem round_le_sixteenths {m : ℕ} (hm : m < 2 ^ 53) {x : ℚ} (hx : 0 ≤ x) (h : x ≤ m / 16) :
    Binary64.round x ≤ m / 16 := by
  rcases hx.eq_or_lt with rfl | hpos
  · rwa [round_zero]
  · have hround := round_le_div_two_pow (e := 4) hm (by norm_num) hpos
    norm_num at hround
    exact hround h

/-- A sum of logarithms stays below the sum of the sixteenths. -/
theorem foldl_log2Nat_le {m : ℕ} {s : ℚ} (hmax : ∀ p ∈ basis, p ≤ maxModulus)
    (hsmall : m + 27 * 16 * basis.length < 2 ^ 53) (hs : 0 ≤ s) (hle : s ≤ m / 16) :
    basis.foldl (fun s p => add s (log2Nat p)) s
      ≤ (basis.foldl (fun t p => t + sixteenths p) m : ℕ) / 16 := by
  induction basis generalizing m s with
  | nil => exact hle
  | cons p rest ih =>
    rw [List.forall_mem_cons] at hmax
    rw [List.length_cons] at hsmall
    obtain ⟨hnonneg, hlog⟩ := log2Nat_le_sixteenths hmax.1
    have hsixteenths := sixteenths_le hmax.1
    have hsum : 0 ≤ s + log2Nat p := add_nonneg hs hnonneg
    rw [List.foldl_cons, List.foldl_cons]
    apply ih hmax.2
    · omega
    · exact round_nonneg hsum
    · apply round_le_sixteenths (by omega) hsum
      push_cast
      linarith

/-- A basis that covers is near covering. -/
theorem isNear_of_isCovered {extent : Extent} (hincreasing : basis.Pairwise (· < ·))
    (hmax : ∀ p ∈ basis, p ≤ maxModulus) (h : extent.isCovered basis = true) :
    extent.isNear basis = true := by
  cases extent with
  | boundless f => cases h
  | bits value =>
    have hlength := PrimePool.length_le_of_increasing 0 maxModulus hincreasing
      (fun _ _ => Nat.zero_le _) hmax
    have hsum := foldl_log2Nat_le (m := 0) (s := 0) hmax (by unfold maxModulus at hlength; omega)
      le_rfl (by norm_num)
    change decide (value < log2Sum basis) = true at h
    rw [decide_eq_true_eq, log2Sum_eq_foldl] at h
    show decide (value < _) = true
    rw [decide_eq_true_eq, Rat.mkRat_eq_div]
    push_cast
    exact h.trans_le hsum

end Extent
end PadicLift
