import Mathlib.Data.Int.GCD
import Mathlib.Data.Int.ModEq
import Mathlib.RingTheory.Coprime.Lemmas
import Mathlib.Tactic.Linarith
import Mathlib.Tactic.Ring
import PadicLift.Number.Inverse

/-!
# What inverses satisfy

`bezout` ends with the greatest common divisor, and its coefficient turns the second number into
that divisor. So `inverse?` answers exactly the numbers that are coprime to the modulus, and what it
answers is the inverse below the modulus. `inverseMod` is the same for integers.
-/

namespace PadicLift

/-! ## Euclid's algorithm -/

/-- The first component of the loop is the greatest common divisor. -/
theorem bezout_fst (r₀ r₁ : ℕ) (s₀ s₁ : ℤ) : (bezout r₀ r₁ s₀ s₁).1 = Nat.gcd r₀ r₁ := by
  fun_induction bezout r₀ r₁ s₀ s₁ with
  | case1 r₀ s₀ s₁ => rw [Nat.gcd_zero_right]
  | case2 r₀ r₁ s₀ s₁ _ ih => rw [ih, Nat.gcd_comm r₀ r₁, Nat.gcd_rec r₁ r₀, Nat.gcd_comm]

/-- Coefficients that turn `a` into both remainders turn it into the last one. -/
theorem bezout_modEq {m : ℕ} {a : ℤ} {r₀ r₁ : ℕ} {s₀ s₁ : ℤ} (h₀ : s₀ * a ≡ r₀ [ZMOD m])
    (h₁ : s₁ * a ≡ r₁ [ZMOD m]) :
    (bezout r₀ r₁ s₀ s₁).2 * a ≡ (bezout r₀ r₁ s₀ s₁).1 [ZMOD m] := by
  fun_induction bezout r₀ r₁ s₀ s₁ with
  | case1 r₀ s₀ s₁ => exact h₀
  | case2 r₀ r₁ s₀ s₁ _ ih =>
    apply ih h₁
    have hstep : ((r₀ % r₁ : ℕ) : ℤ) = r₀ - (r₀ / r₁ : ℕ) * r₁ := by
      push_cast
      rw [Int.emod_def, mul_comm]
    rw [hstep, sub_mul, mul_assoc]
    exact h₀.sub (h₁.mul_left _)

/-! ## Inverses below a modulus -/

/-- Exactly the coprime numbers have an inverse. -/
theorem inverse?_isSome_iff {a m : ℕ} : (inverse? a m).isSome ↔ Nat.Coprime a m := by
  have hgcd : (bezout m (a % m) 0 1).1 = Nat.gcd a m := by
    rw [bezout_fst, Nat.gcd_comm, ← Nat.gcd_rec, Nat.gcd_comm]
  unfold inverse?
  simp only [hgcd]
  split <;> simp_all [Nat.Coprime]

theorem exists_inverse? {a m : ℕ} (h : Nat.Coprime a m) : ∃ b, inverse? a m = some b :=
  Option.isSome_iff_exists.1 (inverse?_isSome_iff.2 h)

/-- What `inverse?` answers is below the modulus. -/
theorem inverse?_lt {a m b : ℕ} (hm : 0 < m) (h : inverse? a m = some b) : b < m := by
  unfold inverse? at h
  simp only [Option.ite_none_right_eq_some, Option.some.injEq] at h
  obtain ⟨-, rfl⟩ := h
  have h₁ := Int.emod_nonneg (bezout m (a % m) 0 1).2 (b := m) (by omega)
  have h₂ := Int.emod_lt_of_pos (bezout m (a % m) 0 1).2 (b := m) (by omega)
  omega

/-- What `inverse?` answers is an inverse. -/
theorem inverse?_modEq {a m b : ℕ} (hm : 0 < m) (h : inverse? a m = some b) :
    (b : ℤ) * a ≡ 1 [ZMOD m] := by
  unfold inverse? at h
  simp only [Option.ite_none_right_eq_some, Option.some.injEq] at h
  obtain ⟨hg, rfl⟩ := h
  have h₀ : (0 : ℤ) * a ≡ m [ZMOD m] := by simp [Int.modEq_iff_dvd]
  have h₁ : (1 : ℤ) * a ≡ (a % m : ℕ) [ZMOD m] := by
    rw [one_mul, Int.natCast_mod]
    exact (Int.mod_modEq _ _).symm
  have hlast := bezout_modEq h₀ h₁
  rw [hg, Nat.cast_one] at hlast
  rw [Int.toNat_of_nonneg (Int.emod_nonneg _ (by omega))]
  exact ((Int.mod_modEq _ _).mul_right _).trans hlast

/-! ## Inverses of integers -/

/-- For a positive modulus, `inverseMod` answers with the inverse in `[0, m)`. -/
theorem inverseMod_eq_ok {a b : ℤ} {m : ℕ} (hm : 0 < m) (h : inverseMod a m = .ok b) :
    0 ≤ b ∧ b < m ∧ b * a ≡ 1 [ZMOD m] := by
  unfold inverseMod at h
  simp only [Int.natAbs_natCast] at h
  split at h
  · cases h
  next c hc =>
    rw [if_neg (by omega)] at h
    cases h
    have hlt := inverse?_lt hm hc
    have hinv := inverse?_modEq hm hc
    rw [Int.toNat_of_nonneg (Int.emod_nonneg _ (by omega))] at hinv
    refine ⟨by omega, by omega, ?_⟩
    exact ((Int.mod_modEq a m).mul_left _).symm.trans hinv

/-- No other failure is possible than a missing inverse. -/
theorem inverseMod_eq_error {a m : ℤ} {f : Fault} (h : inverseMod a m = .error f) :
    f = .argument .notInvertible := by
  unfold inverseMod at h
  dsimp only at h
  split at h <;> cases h
  rfl

theorem isCoprime_emod_iff {a m : ℤ} : IsCoprime (a % m) m ↔ IsCoprime a m := by
  rw [Int.emod_def]
  exact IsCoprime.sub_mul_left_left_iff

/-- A number with an inverse is coprime to the modulus. -/
theorem isCoprime_of_inverseMod {a b : ℤ} {m : ℕ} (hm : 0 < m) (h : inverseMod a m = .ok b) :
    IsCoprime a m := by
  obtain ⟨c, hc⟩ := Int.modEq_iff_dvd.1 (inverseMod_eq_ok hm h).2.2
  exact ⟨b, c, by linarith⟩

/-- A number that is coprime to a positive modulus has an inverse. -/
theorem exists_inverseMod {a m : ℤ} (hm : 0 < m) (h : IsCoprime a m) :
    ∃ b, inverseMod a m = .ok b ∧ b * a ≡ 1 [ZMOD m] := by
  obtain ⟨size, rfl⟩ := Int.eq_ofNat_of_zero_le hm.le
  have hcoprime : Nat.Coprime (a % size).toNat size := by
    rw [← Nat.isCoprime_iff_coprime, Int.toNat_of_nonneg (Int.emod_nonneg _ hm.ne')]
    exact isCoprime_emod_iff.2 h
  obtain ⟨c, hc⟩ := exists_inverse? hcoprime
  have hresult : inverseMod a size = .ok c := by
    unfold inverseMod
    simp only [Int.natAbs_natCast, hc]
    rw [if_neg (by omega)]
  exact ⟨c, hresult, (inverseMod_eq_ok (by omega) hresult).2.2⟩

end PadicLift
