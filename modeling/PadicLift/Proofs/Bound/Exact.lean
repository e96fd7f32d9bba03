import PadicLift.Proofs.Bound

/-!
# Bounds without rounding

The bounds come from Hadamard's inequality. The denominator of a solution divides the determinant,
which is at most the product of the lengths of the rows, and at most that of the columns. A
numerator divides a determinant that has the right side in place of one column, so for numerators
only the columns count, and the shortest of them may be left out. Taken in exact logarithms, these
bounds admit the solution of every nonsingular system; the computed logarithms are near the exact
ones.
-/

namespace PadicLift

open Binary64 Hadamard

namespace SolutionBound

variable {n : ℕ}

/-- The power of two that an exact logarithm is rounded up to. -/
noncomputable def exactPowerAbove (log : ℝ) : ℕ := 2 ^ ⌈log⌉.toNat

/-- The power of two above a real number that is at least the logarithm of a size bounds the size.
-/
theorem le_exactPowerAbove {size : ℕ} {log : ℝ} (h : Real.logb 2 size ≤ log) :
    size ≤ exactPowerAbove log := by
  by_cases hsize : size = 0
  · omega
  have hceil : log ≤ (⌈log⌉.toNat : ℕ) := by
    have hint : ⌈log⌉ ≤ (⌈log⌉.toNat : ℕ) := Int.self_le_toNat _
    exact (Int.le_ceil log).trans (by exact_mod_cast hint)
  have hpos : (0 : ℝ) < size := by
    exact_mod_cast Nat.pos_of_ne_zero hsize
  have hle : (size : ℝ) ≤ 2 ^ ((⌈log⌉.toNat : ℕ) : ℝ) :=
    (Real.logb_le_iff_le_rpow one_lt_two hpos).1 (h.trans hceil)
  rw [Real.rpow_natCast] at hle
  unfold exactPowerAbove
  exact_mod_cast hle

/-- Hadamard's inequality for rows and for columns. -/
theorem sq_det_le_min (A : Mat n n) : A.toMatrix.det ^ 2
    ≤ (min (∏ i, lengthSquare (A.toMatrix.row i)) (∏ j, lengthSquare (A.toMatrix.col j)) : ℕ) := by
  have hle := le_min (sq_det_le_prod_rows A.toMatrix) (sq_det_le_prod_columns A.toMatrix)
  rw [← Int.natAbs_sq]
  exact_mod_cast hle

/-- Hadamard's inequality with the right side in place of a column. The column that is left out is
at least as long as the shortest one. -/
theorem sq_det_updateCol_mul_le (A : Mat n n) (b : Fin n → ℤ) (i : Fin n) :
    (A.toMatrix.updateCol i b).det ^ 2 * (⨅ j, lengthSquare (A.toMatrix.col j) : ℕ)
      ≤ (∏ j, lengthSquare (A.toMatrix.col j) : ℕ) * (lengthSquare b : ℕ) := by
  have hshortest : ⨅ j, lengthSquare (A.toMatrix.col j) ≤ lengthSquare (A.toMatrix.col i) :=
    ciInf_le (OrderBot.bddBelow _) i
  have hle : (A.toMatrix.cramer b i).natAbs ^ 2 * ⨅ j, lengthSquare (A.toMatrix.col j)
      ≤ (∏ j, lengthSquare (A.toMatrix.col j)) * lengthSquare b := by
    calc (A.toMatrix.cramer b i).natAbs ^ 2 * ⨅ j, lengthSquare (A.toMatrix.col j)
        ≤ (lengthSquare b * ∏ k ∈ Finset.univ.erase i, lengthSquare (A.toMatrix.col k))
            * lengthSquare (A.toMatrix.col i) :=
          Nat.mul_le_mul (sq_cramer_le A.toMatrix b i) hshortest
      _ = (∏ j, lengthSquare (A.toMatrix.col j)) * lengthSquare b := by
          rw [mul_assoc, Finset.prod_erase_mul _ _ (Finset.mem_univ i), mul_comm]
  rw [← Matrix.cramer_apply, ← Int.natAbs_sq]
  exact_mod_cast hle

/-- The squared determinants of Cramer's rule are at most products of squared lengths. The bounds of
a nonsingular system are computed from the logarithms of these products, and without rounding they
admit its solution. -/
theorem exact_bounds_dominate (A : Mat n n) (b : Vector ℤ n) :
    A.toMatrix.det ^ 2 ≤ (min (∏ i, lengthSquare (A.toMatrix.row i))
      (∏ j, lengthSquare (A.toMatrix.col j)) : ℕ) ∧
    (∀ i, (A.toMatrix.updateCol i b.get).det ^ 2 * (⨅ j, lengthSquare (A.toMatrix.col j) : ℕ)
      ≤ (∏ j, lengthSquare (A.toMatrix.col j) : ℕ) * (lengthSquare b.get : ℕ)) ∧
    (A.toMatrix.det ≠ 0 →
      (∃ bound, ofSystem A b.toList = .ok bound ∧
        Near (n + 1) bound.denLog (exactDenLog A) (exactDenLog A + 1) ∧
        Near (n + 3) bound.numLog (exactNumLog A b.get) (numSize A b.get)) ∧
      ∀ x : Fin n → ℚ, (∀ i, ∑ j, (A.entry i j : ℚ) * x j = b.get i) →
        commonDenominator x ≤ exactPowerAbove (exactDenLog A) ∧
        ∀ i, (x i).num.natAbs ≤ exactPowerAbove (exactNumLog A b.get)) := by
  refine ⟨sq_det_le_min A, sq_det_updateCol_mul_le A b.get, fun hdet => ⟨ofSystem_eq_ok hdet b, ?_⟩⟩
  intro x hx
  exact ⟨le_exactPowerAbove (logb_denominator_le hdet hx),
    fun i => le_exactPowerAbove (logb_numerator_le hdet hx i)⟩

/-- The solution `4 / 5`, `7 / 5` of `2 x + y = 3`, `x + 3 y = 5` is within the bounds before any
rounding. -/
theorem exact_bounds_dominate_two_unknowns :
    (⟨#v[#v[2, 1], #v[1, 3]]⟩ : Mat 2 2).toMatrix.det ≠ 0 ∧
      5 ≤ exactPowerAbove (exactDenLog (⟨#v[#v[2, 1], #v[1, 3]]⟩ : Mat 2 2)) ∧
      7 ≤ exactPowerAbove
        (exactNumLog (⟨#v[#v[2, 1], #v[1, 3]]⟩ : Mat 2 2) (#v[3, 5] : Vector ℤ 2).get) := by
  let A : Mat 2 2 := ⟨#v[#v[2, 1], #v[1, 3]]⟩
  have hdet : A.toMatrix.det ≠ 0 := by
    rw [Matrix.det_fin_two]
    decide
  have hsolves : ∀ i, ∑ j, (A.entry i j : ℚ) * ![4 / 5, 7 / 5] j
      = (#v[3, 5] : Vector ℤ 2).get i := by
    intro i
    fin_cases i <;> simp [A, Fin.sum_univ_two, Mat.entry, Vector.get] <;> norm_num
  have hden : commonDenominator ![4 / 5, 7 / 5] = 5 := by decide +kernel
  have hnum : (![(4 : ℚ) / 5, 7 / 5] 1).num.natAbs = 7 := by decide +kernel
  obtain ⟨-, hadmits⟩ := (exact_bounds_dominate A #v[3, 5]).2.2 hdet
  obtain ⟨hdenLe, hnumLe⟩ := hadmits _ hsolves
  have hsecond := hnumLe 1
  rw [hnum] at hsecond
  rw [hden] at hdenLe
  exact ⟨hdet, hdenLe, hsecond⟩

end SolutionBound
end PadicLift
