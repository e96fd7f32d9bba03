import Mathlib.Algebra.Order.Field.Basic
import Mathlib.Algebra.Order.Field.Power
import Mathlib.Data.Rat.Cast.Order
import Mathlib.Data.Real.Basic
import Mathlib.Tactic.FieldSimp
import Mathlib.Tactic.Linarith
import Mathlib.Tactic.Positivity
import Mathlib.Tactic.Ring
import PadicLift.Number.Binary64

/-!
# How far rounding can be off

A rounding is off by at most half the spacing of the doubles around its argument: a `2 ^ (-53)` of
the argument, or next to nothing where the argument is tiny (`abs_round_sub_le`). Errors of a
computation grow with the number of roundings, and `Near` says by how much: after `m` roundings a
double is within `drift m` of the number it stands for, relative to the size of what was added up.
-/

namespace PadicLift
namespace Binary64

/-! ## The nearest integer -/

/-- The nearest quotient is off by at most a half. -/
theorem abs_divNearest_sub_le (a : ℕ) {b : ℕ} (hb : 0 < b) :
    |(divNearest a b : ℚ) - a / b| ≤ 1 / 2 := by
  have hbPos : (0 : ℚ) < b := by exact_mod_cast hb
  have hsplit : (a : ℚ) = b * (a / b : ℕ) + (a % b : ℕ) := by
    exact_mod_cast (Nat.div_add_mod a b).symm
  have hquotient : (a : ℚ) / b = (a / b : ℕ) + (a % b : ℕ) / b := by
    conv_lhs => rw [hsplit]
    field_simp
  have hremainder : (a % b : ℕ) < b := Nat.mod_lt a hb
  have hlow : (0 : ℚ) ≤ (a % b : ℕ) / b := by positivity
  have hhigh : ((a % b : ℕ) : ℚ) / b < 1 := by
    rw [div_lt_one hbPos]
    exact_mod_cast hremainder
  rw [hquotient, divNearest]
  split
  next h =>
    have hhalf : ((a % b : ℕ) : ℚ) / b < 1 / 2 := by
      rw [div_lt_iff₀ hbPos]
      have : (2 * (a % b : ℕ) : ℚ) < b := by exact_mod_cast h
      linarith
    rw [abs_le]
    exact ⟨by linarith, by linarith⟩
  next h =>
    split
    next h' =>
      have hhalf : 1 / 2 < ((a % b : ℕ) : ℚ) / b := by
        rw [lt_div_iff₀ hbPos]
        have : (b : ℚ) < 2 * (a % b : ℕ) := by exact_mod_cast h'
        linarith
      rw [abs_le]
      push_cast
      exact ⟨by linarith, by linarith⟩
    -- A tie: the quotient itself or the next number, whichever is even.
    next h' =>
      have hhalf : ((a % b : ℕ) : ℚ) / b = 1 / 2 := by
        rw [div_eq_iff hbPos.ne']
        have : (2 * (a % b : ℕ) : ℚ) = b := by exact_mod_cast (by omega : 2 * (a % b) = b)
        linarith
      have heven : (0 : ℚ) ≤ (a / b % 2 : ℕ) ∧ ((a / b % 2 : ℕ) : ℚ) ≤ 1 := by
        have : a / b % 2 ≤ 1 := by omega
        exact ⟨by positivity, by exact_mod_cast this⟩
      rw [abs_le]
      push_cast at heven ⊢
      exact ⟨by linarith, by linarith⟩

/-- An error of at most a half, scaled. -/
theorem abs_mul_sub_le {q x c : ℚ} (hc : 0 < c) (h : |q - x / c| ≤ 1 / 2) :
    |q * c - x| ≤ c / 2 := by
  have hsplit : q * c - x = (q - x / c) * c := by rw [sub_mul, div_mul_cancel₀ _ hc.ne']
  rw [hsplit, abs_mul, abs_of_pos hc]
  have := mul_le_mul_of_nonneg_right h hc.le
  linarith

/-! ## The nearest double -/

/-- A whole number rounds with a relative error of at most `2 ^ (-53)`. -/
theorem abs_roundNat_sub_le (n : ℕ) : |(roundNat n : ℚ) - n| ≤ n / 2 ^ 53 := by
  unfold roundNat
  split
  · rw [sub_self, abs_zero]
    positivity
  next hlarge =>
    have hn : n ≠ 0 := by
      rintro rfl
      exact hlarge (by decide)
    have hlog : 53 ≤ Nat.log2 n := (Nat.le_log2 hn).2 (not_lt.1 hlarge)
    dsimp only
    set s := Nat.log2 n - 52 with hs
    have hnearest := abs_divNearest_sub_le n (Nat.two_pow_pos s)
    have hscale : (2 : ℚ) ^ s * 2 ^ 52 ≤ n := by
      rw [← pow_add, hs, Nat.sub_add_cancel (by omega)]
      exact_mod_cast Nat.log2_self_le hn
    push_cast at hnearest ⊢
    refine (abs_mul_sub_le (by positivity) hnearest).trans ?_
    rw [le_div_iff₀ (by positivity)]
    calc (2 : ℚ) ^ s / 2 * 2 ^ 53 = 2 ^ s * 2 ^ 52 := by ring
      _ ≤ (n : ℚ) := hscale

/-- The exponent of a quotient gives a power of two that is not above it, -/
theorem zpow_floorExponent_le {a d : ℕ} (ha : 0 < a) (hd : 0 < d) :
    (2 : ℚ) ^ floorExponent a d ≤ a / d := by
  have hdPos : (0 : ℚ) < d := by exact_mod_cast hd
  have ha' : (2 : ℚ) ^ (Nat.log2 a : ℤ) ≤ a := by
    rw [zpow_natCast]
    exact_mod_cast Nat.log2_self_le ha.ne'
  have hd' : (d : ℚ) ≤ 2 ^ ((Nat.log2 d : ℤ) + 1) := by
    rw [← Nat.cast_succ, zpow_natCast]
    exact_mod_cast Nat.lt_log2_self.le
  unfold floorExponent
  extract_lets k reached
  rw [le_div_iff₀ hdPos]
  by_cases h : reached = true
  · rw [if_pos h]
    by_cases hk : 0 ≤ k
    · obtain ⟨e, he⟩ := Int.eq_ofNat_of_zero_le hk
      have hle : d * 2 ^ e ≤ a := by simpa [reached, he] using h
      rw [he, zpow_natCast, mul_comm]
      exact_mod_cast hle
    · obtain ⟨e, he⟩ := Int.eq_ofNat_of_zero_le (by omega : 0 ≤ -k)
      have hle : d ≤ a * 2 ^ e := by simpa [reached, hk, he] using h
      rw [← neg_neg k, he, zpow_neg, zpow_natCast, inv_mul_le_iff₀ (by positivity), mul_comm]
      exact_mod_cast hle
  -- One power further down is reached whatever the leading bits are.
  · rw [if_neg h]
    calc (2 : ℚ) ^ (k - 1) * d ≤ 2 ^ (k - 1) * 2 ^ ((Nat.log2 d : ℤ) + 1) :=
          mul_le_mul_of_nonneg_left hd' (by positivity)
      _ = 2 ^ (Nat.log2 a : ℤ) := by
          rw [← zpow_add₀ two_ne_zero]
          congr 1
          omega
      _ ≤ a := ha'

/-- and the next one is above it. -/
theorem lt_zpow_floorExponent (a : ℕ) {d : ℕ} (hd : 0 < d) :
    (a : ℚ) / d < 2 ^ (floorExponent a d + 1) := by
  have hdPos : (0 : ℚ) < d := by exact_mod_cast hd
  have ha' : (a : ℚ) < 2 ^ ((Nat.log2 a : ℤ) + 1) := by
    rw [← Nat.cast_succ, zpow_natCast]
    exact_mod_cast Nat.lt_log2_self
  have hd' : (2 : ℚ) ^ (Nat.log2 d : ℤ) ≤ d := by
    rw [zpow_natCast]
    exact_mod_cast Nat.log2_self_le hd.ne'
  unfold floorExponent
  extract_lets k reached
  rw [div_lt_iff₀ hdPos]
  by_cases h : reached = true
  · rw [if_pos h]
    calc (a : ℚ) < 2 ^ ((Nat.log2 a : ℤ) + 1) := ha'
      _ = 2 ^ (k + 1) * 2 ^ (Nat.log2 d : ℤ) := by
          rw [← zpow_add₀ two_ne_zero]
          congr 1
          omega
      _ ≤ 2 ^ (k + 1) * d := mul_le_mul_of_nonneg_left hd' (by positivity)
  -- The power that is not reached is above the quotient.
  · rw [if_neg h, sub_add_cancel]
    by_cases hk : 0 ≤ k
    · obtain ⟨e, he⟩ := Int.eq_ofNat_of_zero_le hk
      have hlt : a < d * 2 ^ e := by simpa [reached, he] using h
      rw [he, zpow_natCast, mul_comm]
      exact_mod_cast hlt
    · obtain ⟨e, he⟩ := Int.eq_ofNat_of_zero_le (by omega : 0 ≤ -k)
      have hlt : a * 2 ^ e < d := by simpa [reached, hk, he] using h
      rw [← neg_neg k, he, zpow_neg, zpow_natCast, lt_inv_mul_iff₀ (by positivity), mul_comm]
      exact_mod_cast hlt

/-- Rounded to multiples of `2 ^ u`, a number is off by at most half of it. -/
theorem abs_roundAt_sub_le (a : ℕ) {d : ℕ} (hd : 0 < d) (u : ℤ) :
    |roundAt a d u - a / d| ≤ 2 ^ u / 2 := by
  unfold roundAt
  by_cases hu : 0 ≤ u
  · obtain ⟨e, rfl⟩ := Int.eq_ofNat_of_zero_le hu
    have hnearest := abs_divNearest_sub_le a (Nat.mul_pos hd (Nat.two_pow_pos e))
    rw [if_pos hu, Int.toNat_natCast, zpow_natCast]
    push_cast at hnearest ⊢
    rw [← div_div] at hnearest
    exact abs_mul_sub_le (by positivity) hnearest
  · obtain ⟨e, he⟩ := Int.eq_ofNat_of_zero_le (by omega : 0 ≤ -u)
    have hnearest := abs_divNearest_sub_le (a * 2 ^ e) hd
    rw [if_neg hu, he, Int.toNat_natCast, Rat.mkRat_eq_div, ← neg_neg u, he, zpow_neg,
      zpow_natCast, div_eq_mul_inv]
    push_cast at hnearest ⊢
    rw [mul_div_right_comm, ← div_inv_eq_mul] at hnearest
    exact abs_mul_sub_le (by positivity) hnearest

/-- A number rounds with a relative error of at most `2 ^ (-53)`, apart from the absolute error of
those too small for a full significand. -/
theorem abs_round_sub_le (x : ℚ) : |round x - x| ≤ |x| / 2 ^ 53 + 2 ^ (-1075 : ℤ) := by
  by_cases h : x = 0
  · subst h
    rw [round, if_pos rfl, sub_self, abs_zero]
    positivity
  unfold round
  rw [if_neg h]
  extract_lets a u r
  have ha : 0 < a := Int.natAbs_pos.2 (Rat.num_ne_zero.2 h)
  have habs : |x| = a / x.den := by
    rw [Rat.abs_def, Rat.divInt_eq_div, Int.cast_natCast, Int.cast_natCast]
  have hnearest : |r - (|x|)| ≤ 2 ^ u / 2 := by
    rw [habs]
    exact abs_roundAt_sub_le a x.den_pos u
  have hspacing : (2 : ℚ) ^ u / 2 ≤ |x| / 2 ^ 53 + 2 ^ (-1075 : ℤ) := by
    rcases max_cases (floorExponent a x.den - 52) (-1074) with hmax | hmax
    · have hexponent := zpow_floorExponent_le ha x.den_pos
      have hhalf : (2 : ℚ) ^ u / 2 ≤ |x| / 2 ^ 53 := by
        have hu : u = floorExponent a x.den - 52 := hmax.1
        rw [habs, hu, zpow_sub₀ two_ne_zero, div_div, zpow_ofNat, ← pow_succ]
        exact div_le_div_of_nonneg_right hexponent (by positivity)
      have : (0 : ℚ) ≤ 2 ^ (-1075 : ℤ) := by positivity
      linarith
    -- A subnormal result: the spacing no longer shrinks with the argument.
    · have hhalf : (2 : ℚ) ^ u / 2 = 2 ^ (-1075 : ℤ) := by
        have hu : u = -1074 := hmax.1
        rw [hu, div_eq_mul_inv, ← zpow_sub_one₀ two_ne_zero]
        rfl
      have : (0 : ℚ) ≤ |x| / 2 ^ 53 := by positivity
      linarith
  refine le_trans ?_ (hnearest.trans hspacing)
  by_cases hneg : x.num < 0
  · rw [if_pos hneg, abs_of_neg (Rat.num_neg.1 hneg), abs_sub_comm, sub_neg_eq_add,
      sub_neg_eq_add, add_comm]
  · rw [if_neg hneg, abs_of_nonneg (Rat.num_nonneg.1 (not_lt.1 hneg))]

/-- What a subnormal result is off by is next to nothing. -/
theorem zpow_subnormal_le : (2 : ℚ) ^ (-1075 : ℤ) ≤ 1 / 2 ^ 53 := by
  rw [one_div, ← zpow_natCast, ← zpow_neg]
  exact zpow_le_zpow_right₀ one_le_two (by norm_num)

/-- One relative error covers both once 1 is added to the size. -/
theorem abs_cast_round_sub_le (x : ℚ) : |((round x : ℚ) : ℝ) - x| ≤ (|(x : ℝ)| + 1) / 2 ^ 53 := by
  have hround : |round x - x| ≤ (|x| + 1) / 2 ^ 53 := by
    rw [add_div]
    exact (abs_round_sub_le x).trans (add_le_add_right zpow_subnormal_le _)
  have hcast := (Rat.cast_le (K := ℝ)).2 hround
  push_cast at hcast
  exact hcast

theorem round_zero : round 0 = 0 := if_pos rfl

/-- Rounding keeps the sign. -/
theorem round_nonneg {x : ℚ} (hx : 0 ≤ x) : 0 ≤ round x := by
  unfold round
  split
  · exact le_rfl
  · dsimp only
    rw [if_neg (not_lt.2 (Rat.num_nonneg.2 hx))]
    unfold roundAt
    split
    · positivity
    · rw [Rat.mkRat_eq_div]
      positivity

theorem sum_nonneg {xs : List ℚ} (h : ∀ x ∈ xs, 0 ≤ x) : 0 ≤ sum xs := by
  suffices hfold : ∀ s, 0 ≤ s → 0 ≤ xs.foldl add s from hfold 0 le_rfl
  induction xs with
  | nil => exact fun s hs => hs
  | cons x rest ih =>
    rw [List.forall_mem_cons] at h
    exact fun s hs => ih h.2 _ (round_nonneg (add_nonneg hs h.1))

/-! ## Doubles below the argument -/

/-- The nearest quotient passes no whole number from above, -/
theorem le_divNearest {a b m : ℕ} (hb : 0 < b) (h : m * b ≤ a) : m ≤ divNearest a b := by
  have hle : m ≤ a / b := (Nat.le_div_iff_mul_le hb).2 h
  unfold divNearest
  dsimp only
  split
  · exact hle
  · split <;> omega

/-- A multiple of the spacing is not passed over. -/
theorem le_roundAt {a d m : ℕ} (hd : 0 < d) {u : ℤ} (h : (m : ℚ) * 2 ^ u ≤ a / d) :
    (m : ℚ) * 2 ^ u ≤ roundAt a d u := by
  have hdPos : (0 : ℚ) < d := by exact_mod_cast hd
  rw [le_div_iff₀ hdPos] at h
  unfold roundAt
  by_cases hu : 0 ≤ u
  · obtain ⟨e, rfl⟩ := Int.eq_ofNat_of_zero_le hu
    rw [zpow_natCast] at h ⊢
    have hle : m * (d * 2 ^ e) ≤ a := by
      rw [mul_left_comm, mul_comm]
      exact_mod_cast h
    have hnearest := le_divNearest (Nat.mul_pos hd (Nat.two_pow_pos e)) hle
    rw [if_pos hu, Int.toNat_natCast]
    exact_mod_cast Nat.mul_le_mul_right (2 ^ e) hnearest
  · obtain ⟨e, he⟩ := Int.eq_ofNat_of_zero_le (by omega : 0 ≤ -u)
    have hpos : (0 : ℚ) < 2 ^ e := by positivity
    rw [← neg_neg u, he, zpow_neg, zpow_natCast, mul_right_comm, ← div_eq_mul_inv,
      div_le_iff₀ hpos] at h
    have hle : m * d ≤ a * 2 ^ e := by exact_mod_cast h
    have hnearest : (m : ℚ) ≤ divNearest (a * 2 ^ e) d := by exact_mod_cast le_divNearest hd hle
    rw [if_neg hu, he, Int.toNat_natCast, Rat.mkRat_eq_div, ← neg_neg u, he, zpow_neg,
      zpow_natCast, ← div_eq_mul_inv]
    push_cast
    exact div_le_div_of_nonneg_right hnearest hpos.le

/-- nor from below. -/
theorem divNearest_le {a b m : ℕ} (h : a ≤ m * b) : divNearest a b ≤ m := by
  rcases Nat.eq_zero_or_pos b with rfl | hb
  · obtain rfl : a = 0 := by omega
    simp [divNearest]
  have hle : a / b ≤ m := Nat.div_le_of_le_mul (by rwa [mul_comm])
  have hsplit := Nat.div_add_mod a b
  unfold divNearest
  dsimp only
  split
  · exact hle
  -- With a remainder, the quotient is below `m`.
  next hremainder =>
    have hlt : a / b < m := by
      by_contra hge
      obtain rfl : a / b = m := le_antisymm hle (not_lt.1 hge)
      rw [mul_comm] at hsplit
      omega
    split <;> omega

theorem roundAt_le {a d m : ℕ} (hd : 0 < d) {u : ℤ} (h : (a : ℚ) / d ≤ m * 2 ^ u) :
    roundAt a d u ≤ m * 2 ^ u := by
  have hdPos : (0 : ℚ) < d := by exact_mod_cast hd
  rw [div_le_iff₀ hdPos] at h
  unfold roundAt
  by_cases hu : 0 ≤ u
  · obtain ⟨e, rfl⟩ := Int.eq_ofNat_of_zero_le hu
    rw [zpow_natCast] at h ⊢
    have hle : a ≤ m * (d * 2 ^ e) := by
      rw [mul_left_comm, mul_comm]
      exact_mod_cast h
    rw [if_pos hu, Int.toNat_natCast]
    exact_mod_cast Nat.mul_le_mul_right (2 ^ e) (divNearest_le hle)
  · obtain ⟨e, he⟩ := Int.eq_ofNat_of_zero_le (by omega : 0 ≤ -u)
    have hpos : (0 : ℚ) < 2 ^ e := by positivity
    rw [← neg_neg u, he, zpow_neg, zpow_natCast, mul_right_comm, ← div_eq_mul_inv,
      le_div_iff₀ hpos] at h
    have hle : a * 2 ^ e ≤ m * d := by exact_mod_cast h
    have hnearest : (divNearest (a * 2 ^ e) d : ℚ) ≤ m := by exact_mod_cast divNearest_le hle
    rw [if_neg hu, he, Int.toNat_natCast, Rat.mkRat_eq_div, ← neg_neg u, he, zpow_neg,
      zpow_natCast, ← div_eq_mul_inv]
    push_cast
    exact div_le_div_of_nonneg_right hnearest hpos.le

theorem exists_roundAt_eq (a d : ℕ) (u : ℤ) : ∃ m : ℕ, roundAt a d u = m * 2 ^ u := by
  unfold roundAt
  by_cases hu : 0 ≤ u
  · obtain ⟨e, rfl⟩ := Int.eq_ofNat_of_zero_le hu
    refine ⟨divNearest a (d * 2 ^ e), ?_⟩
    rw [if_pos hu, Int.toNat_natCast, zpow_natCast]
    push_cast
    rfl
  · obtain ⟨e, he⟩ := Int.eq_ofNat_of_zero_le (by omega : 0 ≤ -u)
    refine ⟨divNearest (a * 2 ^ e) d, ?_⟩
    rw [if_neg hu, he, Int.toNat_natCast, Rat.mkRat_eq_div, ← neg_neg u, he, zpow_neg,
      zpow_natCast, ← div_eq_mul_inv]
    push_cast
    rfl

/-! ## The spacing of doubles -/

/-- The exponent of the spacing of doubles around a positive number. -/
def spacing (x : ℚ) : ℤ := max (floorExponent x.num.natAbs x.den - 52) (-1074)

section Spacing

variable {x : ℚ} (hx : 0 < x)
include hx

theorem natAbs_num_div_den : (x.num.natAbs : ℚ) / x.den = x := by
  conv_rhs => rw [← abs_of_pos hx, Rat.abs_def, Rat.divInt_eq_div]
  rw [Int.cast_natCast, Int.cast_natCast]

/-- A positive number is rounded to a multiple of its spacing. -/
theorem round_eq_roundAt : round x = roundAt x.num.natAbs x.den (spacing x) := by
  unfold round
  rw [if_neg hx.ne', if_neg (not_lt.2 (Rat.num_nonneg.2 hx.le))]
  rfl

theorem lt_mul_zpow_spacing : x < 2 ^ 53 * 2 ^ spacing x := by
  have hexponent : floorExponent x.num.natAbs x.den + 1 ≤ 53 + spacing x := by
    unfold spacing
    omega
  calc x = x.num.natAbs / x.den := (natAbs_num_div_den hx).symm
    _ < 2 ^ (floorExponent x.num.natAbs x.den + 1) := lt_zpow_floorExponent _ x.den_pos
    _ ≤ 2 ^ (53 + spacing x) := zpow_le_zpow_right₀ one_le_two hexponent
    _ = 2 ^ 53 * 2 ^ spacing x := by
        rw [zpow_add₀ two_ne_zero]
        norm_num

/-- Above the subnormal range a number has 53 bits down to the spacing. -/
theorem mul_zpow_spacing_le (h : -1074 < spacing x) : 2 ^ 52 * 2 ^ spacing x ≤ x := by
  have hexponent : spacing x = floorExponent x.num.natAbs x.den - 52 := by
    unfold spacing at h ⊢
    omega
  have ha : 0 < x.num.natAbs := Int.natAbs_pos.2 (Rat.num_ne_zero.2 hx.ne')
  calc (2 : ℚ) ^ 52 * 2 ^ spacing x = 2 ^ floorExponent x.num.natAbs x.den := by
        rw [hexponent, zpow_sub₀ two_ne_zero]
        field_simp
    _ ≤ x.num.natAbs / x.den := zpow_floorExponent_le ha x.den_pos
    _ = x := natAbs_num_div_den hx

/-- The error is at most half the spacing. -/
theorem abs_round_sub_le_spacing : |round x - x| ≤ 2 ^ spacing x / 2 := by
  have hnearest := abs_roundAt_sub_le x.num.natAbs x.den_pos (spacing x)
  rwa [natAbs_num_div_den hx, ← round_eq_roundAt hx] at hnearest

/-- Rounding passes no multiple of the spacing from above, -/
theorem mul_spacing_le_round {m : ℕ} (h : (m : ℚ) * 2 ^ spacing x ≤ x) :
    (m : ℚ) * 2 ^ spacing x ≤ round x := by
  rw [round_eq_roundAt hx]
  apply le_roundAt x.den_pos
  rwa [natAbs_num_div_den hx]

/-- nor from below. -/
theorem round_le_mul_spacing {m : ℕ} (h : x ≤ m * 2 ^ spacing x) : round x ≤ m * 2 ^ spacing x := by
  rw [round_eq_roundAt hx]
  apply roundAt_le x.den_pos
  rwa [natAbs_num_div_den hx]

end Spacing

/-- A double up to 2 that is not above the argument is not above the rounded argument. -/
theorem le_round {m : ℕ} (hm : m ≤ 2 ^ 53) {x : ℚ} (hx : 0 < x) (h : (m : ℚ) / 2 ^ 52 ≤ x) :
    (m : ℚ) / 2 ^ 52 ≤ round x := by
  by_cases hu : spacing x ≤ -52
  -- The spacing divides the double.
  · obtain ⟨e, he⟩ := Int.eq_ofNat_of_zero_le (by omega : 0 ≤ -52 - spacing x)
    have hmultiple : (m : ℚ) / 2 ^ 52 = (m * 2 ^ e : ℕ) * 2 ^ spacing x := by
      have hexponent : spacing x = -(52 : ℕ) - (e : ℤ) := by omega
      rw [hexponent, zpow_sub₀ two_ne_zero, zpow_neg, zpow_natCast, zpow_natCast]
      push_cast
      field_simp
    rw [hmultiple] at h ⊢
    exact mul_spacing_le_round hx h
  -- The spacing is too large for that, but then a power of two lies between them.
  · have hreached := mul_zpow_spacing_le hx (by omega)
    have hround := mul_spacing_le_round hx (m := 2 ^ 52) (by exact_mod_cast hreached)
    refine le_trans ?_ hround
    calc (m : ℚ) / 2 ^ 52 ≤ 2 ^ 53 / 2 ^ 52 :=
          div_le_div_of_nonneg_right (by exact_mod_cast hm) (by positivity)
      _ = 2 ^ 52 * 2 ^ (-51 : ℤ) := by norm_num
      _ ≤ ((2 ^ 52 : ℕ) : ℚ) * 2 ^ spacing x := by
          push_cast
          exact mul_le_mul_of_nonneg_left (zpow_le_zpow_right₀ one_le_two (by omega))
            (by positivity)

theorem one_le_round {x : ℚ} (h : 1 ≤ x) : 1 ≤ round x := by
  have hone : ((2 ^ 52 : ℕ) : ℚ) / 2 ^ 52 = 1 := by norm_num
  rw [← hone] at h ⊢
  exact le_round (by norm_num) (lt_of_lt_of_le (by positivity) h) h

/-! ## Sums of numbers from 1 up -/

/-- From 1 on, rounding adds at most a relative error of `2 ^ (-52)`, -/
theorem round_le_mul {x : ℚ} (hx : 1 ≤ x) : round x ≤ x * (1 + 1 / 2 ^ 52) := by
  have hround := (abs_le.1 (abs_round_sub_le x)).2
  have htiny := zpow_subnormal_le
  rw [abs_of_nonneg (zero_le_one.trans hx)] at hround
  linarith

/-- Every addition makes a sum too large by one factor at most. -/
theorem sum_le_mul_pow {xs : List ℚ} (h : ∀ x ∈ xs, 1 ≤ x) :
    sum xs ≤ xs.sum * (1 + 1 / 2 ^ 52) ^ xs.length := by
  suffices hfold : ∀ s, 0 ≤ s →
      xs.foldl add s ≤ (s + xs.sum) * (1 + 1 / 2 ^ 52) ^ xs.length by
    have := hfold 0 le_rfl
    rwa [zero_add] at this
  induction xs with
  | nil =>
    intro s _
    simp
  | cons x rest ih =>
    intro s hs
    rw [List.forall_mem_cons] at h
    have hrest : 0 ≤ rest.sum := List.sum_nonneg fun y hy => zero_le_one.trans (h.2 y hy)
    have hnonneg : 0 ≤ add s x := round_nonneg (by linarith)
    have hadd : add s x ≤ (s + x) * (1 + 1 / 2 ^ 52) := round_le_mul (by linarith)
    rw [List.foldl_cons, List.length_cons, List.sum_cons, pow_succ', ← mul_assoc]
    refine (ih h.2 _ hnonneg).trans (mul_le_mul_of_nonneg_right ?_ (by positivity))
    linarith

/-- and takes off at most as much. -/
theorem mul_le_round {x : ℚ} (hx : 1 ≤ x) : x * (1 - 1 / 2 ^ 52) ≤ round x := by
  have hround := (abs_le.1 (abs_round_sub_le x)).1
  have htiny := zpow_subnormal_le
  rw [abs_of_nonneg (zero_le_one.trans hx)] at hround
  linarith

/-- Nor does it make a sum too small by more than another one. -/
theorem mul_pow_le_sum {xs : List ℚ} (h : ∀ x ∈ xs, 1 ≤ x) :
    xs.sum * (1 - 1 / 2 ^ 52) ^ xs.length ≤ sum xs := by
  suffices hfold : ∀ s, 0 ≤ s →
      (s + xs.sum) * (1 - 1 / 2 ^ 52) ^ xs.length ≤ xs.foldl add s by
    have := hfold 0 le_rfl
    rwa [zero_add] at this
  induction xs with
  | nil =>
    intro s _
    simp
  | cons x rest ih =>
    intro s hs
    rw [List.forall_mem_cons] at h
    have hrest : 0 ≤ rest.sum := List.sum_nonneg fun y hy => zero_le_one.trans (h.2 y hy)
    have hnonneg : 0 ≤ add s x := round_nonneg (by linarith)
    have hadd : (s + x) * (1 - 1 / 2 ^ 52) ≤ add s x := mul_le_round (by linarith)
    have hpower : (0 : ℚ) ≤ (1 - 1 / 2 ^ 52) ^ rest.length := pow_nonneg (by norm_num) _
    rw [List.foldl_cons, List.length_cons, List.sum_cons, pow_succ', ← mul_assoc]
    refine le_trans (mul_le_mul_of_nonneg_right ?_ hpower) (ih h.2 _ hnonneg)
    linarith

/-! ## Accumulated errors -/

/-- How far a number can drift in `m` roundings, relative to the size of what is rounded. -/
def drift (m : ℕ) : ℚ := (1 + 1 / 2 ^ 50) ^ m - 1

theorem drift_nonneg (m : ℕ) : 0 ≤ drift m :=
  sub_nonneg.2 (one_le_pow₀ (by norm_num))

theorem drift_le_drift {m k : ℕ} (h : m ≤ k) : drift m ≤ drift k :=
  sub_le_sub_right (pow_le_pow_right₀ (by norm_num) h) 1

/-- One more rounding adds a relative `2 ^ (-50)` to what has drifted so far. -/
theorem drift_succ (m : ℕ) : drift (m + 1) = drift m + (1 + drift m) / 2 ^ 50 := by
  rw [drift, drift, pow_succ]
  ring

theorem drift_one : drift 1 = 1 / 2 ^ 50 := by
  rw [drift, pow_one]
  ring

/-- The double `x` stands for `y` up to `m` roundings of numbers that have at most the given
size. -/
def Near (m : ℕ) (x : ℚ) (y size : ℝ) : Prop := |(x : ℝ) - y| ≤ drift m * size

section Near

variable {m k : ℕ} {x x' : ℚ} {y y' size size' : ℝ}

theorem near_zero (m : ℕ) (hsize : 0 ≤ size) : Near m 0 0 size := by
  have hdrift : (0 : ℝ) ≤ drift m := by exact_mod_cast drift_nonneg m
  rw [Near, Rat.cast_zero, sub_zero, abs_zero]
  positivity

theorem Near.mono (h : Near m x y size) (hsize : 0 ≤ size) (hm : m ≤ k) (hle : size ≤ size') :
    Near k x y size' := by
  have hdrift : (drift m : ℝ) ≤ drift k := by exact_mod_cast drift_le_drift hm
  have hdriftNonneg : (0 : ℝ) ≤ drift k := by exact_mod_cast drift_nonneg k
  exact h.trans (mul_le_mul hdrift hle hsize hdriftNonneg)

/-- Sums are as near as their terms, in the sum of the sizes. -/
theorem Near.add (h : Near m x y size) (h' : Near m x' y' size') :
    Near m (x + x') (y + y') (size + size') := by
  unfold Near at h h' ⊢
  push_cast
  calc |(x : ℝ) + x' - (y + y')| = |(x - y) + (x' - y')| := by ring_nf
    _ ≤ |x - y| + |x' - y'| := abs_add_le _ _
    _ ≤ drift m * (size + size') := by
        rw [mul_add]
        exact add_le_add h h'

/-- So are differences. -/
theorem Near.sub (h : Near m x y size) (h' : Near m x' y' size') :
    Near m (x - x') (y - y') (size + size') := by
  have hneg : Near m (-x') (-y') size' := by
    unfold Near at h' ⊢
    rwa [Rat.cast_neg, neg_sub_neg, abs_sub_comm]
  rw [sub_eq_add_neg, sub_eq_add_neg]
  exact h.add hneg

/-- One more rounding. -/
theorem Near.round (h : Near m x y size) (hy : |y| ≤ size) (hsize : 1 / 2 ≤ size) :
    Near (m + 1) (round x) y size := by
  unfold Near at h ⊢
  have hdrift : (0 : ℝ) ≤ drift m := by exact_mod_cast drift_nonneg m
  set d : ℝ := (drift m : ℝ) with hd
  have hround := abs_cast_round_sub_le x
  have hx : |(x : ℝ)| ≤ (1 + d) * size := by
    have := abs_sub_abs_le_abs_sub (x : ℝ) y
    linarith
  have hsucc : (drift (m + 1) : ℝ) = d + (1 + d) / 2 ^ 50 := by
    rw [drift_succ]
    push_cast
    rfl
  calc |((Binary64.round x : ℚ) : ℝ) - y| = |(Binary64.round x - x) + (x - y)| := by ring_nf
    _ ≤ |((Binary64.round x : ℚ) : ℝ) - x| + |(x : ℝ) - y| := abs_add_le _ _
    _ ≤ ((1 + d) * size + 2 * size) / 2 ^ 53 + d * size := by
        refine add_le_add (hround.trans ?_) h
        exact div_le_div_of_nonneg_right (by linarith) (by positivity)
    _ ≤ drift (m + 1) * size := by
        rw [hsucc]
        have : 0 ≤ d * size := mul_nonneg hdrift (by linarith)
        linarith

/-- A sum from left to right. Every partial sum is rounded, and its size is at most the whole. -/
theorem near_sum {xs : List ℚ} {ys : List ℝ}
    (h : List.Forall₂ (fun x y => 0 ≤ y ∧ Near m x y y) xs ys) :
    0 ≤ ys.sum ∧ Near (m + xs.length) (sum xs) ys.sum (ys.sum + 1) := by
  -- Induction on the summands for any partial sum `s` of `t`, which has drifted at least as far as
  -- they have.
  suffices hfold : ∀ (k : ℕ) (s : ℚ) (t : ℝ), m ≤ k → 0 ≤ t → Near k s t (t + 1) →
      0 ≤ ys.sum ∧ Near (k + xs.length) (xs.foldl Binary64.add s) (t + ys.sum) (t + ys.sum + 1) by
    have := hfold m 0 0 le_rfl le_rfl (near_zero m (by norm_num))
    rwa [zero_add] at this
  induction h with
  | nil =>
    intro k s t _ _ hs
    rw [List.sum_nil, add_zero]
    exact ⟨le_rfl, hs⟩
  | @cons x y xs ys hxy _ ih =>
    intro k s t hk ht hs
    have hadd : Near k (s + x) (t + y) (t + y + 1) := by
      have := hs.add (hxy.2.mono hxy.1 hk le_rfl)
      rwa [add_right_comm] at this
    have hty : 0 ≤ t + y := add_nonneg ht hxy.1
    have hnext := hadd.round (by rw [abs_of_nonneg hty]; linarith) (by linarith)
    obtain ⟨hsum, hrest⟩ := ih (k + 1) (Binary64.add s x) (t + y) (by omega) hty hnext
    rw [List.sum_cons, List.length_cons, ← add_assoc, List.foldl_cons, ← add_assoc t]
    refine ⟨add_nonneg hxy.1 hsum, ?_⟩
    rwa [add_right_comm k] at hrest

/-- What stands for a larger number does not drift further down. -/
theorem Near.sub_le {w z : ℝ} (h : Near m x y (y + w)) (hx : 0 ≤ x) (hz : 0 ≤ z) (hzy : z ≤ y)
    (hw : 0 ≤ w) : z - drift m * (z + w) ≤ x := by
  have hxReal : (0 : ℝ) ≤ x := by exact_mod_cast hx
  have hlow := (abs_le.1 h).1
  -- A drift of more than the size itself leaves nothing to show but `0 ≤ x`.
  by_cases hdrift : (drift m : ℝ) ≤ 1
  · have : 0 ≤ (1 - (drift m : ℝ)) * (y - z) := mul_nonneg (by linarith) (by linarith)
    linarith
  · have : 0 ≤ ((drift m : ℝ) - 1) * (z + w) := mul_nonneg (by linarith) (by linarith)
    linarith

end Near

end Binary64
end PadicLift
