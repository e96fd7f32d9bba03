import Mathlib.Analysis.InnerProductSpace.Orientation
import Mathlib.Analysis.InnerProductSpace.PiL2
import Mathlib.Analysis.SpecialFunctions.Log.Base
import Mathlib.LinearAlgebra.Matrix.Adjugate

/-!
# Hadamard's inequality for integers

The volume of a parallelepiped is at most the product of the lengths of its edges. For a matrix of
integers that bounds the determinant by its rows and by its columns, and by Cramer's rule the
numerators of a solution.
-/

namespace PadicLift
namespace Hadamard

variable {n : ℕ}

/-- The square of the length of a vector. -/
def lengthSquare (v : Fin n → ℤ) : ℕ := ∑ i, (v i).natAbs ^ 2

theorem cast_lengthSquare (v : Fin n → ℤ) :
    (lengthSquare v : ℝ) = ‖WithLp.toLp 2 fun i => (v i : ℝ)‖ ^ 2 := by
  rw [EuclideanSpace.norm_sq_eq, lengthSquare, Nat.cast_sum]
  refine Finset.sum_congr rfl fun i _ => ?_
  rw [Real.norm_eq_abs, Nat.cast_pow, Nat.cast_natAbs, Int.cast_abs]

/-- Hadamard's inequality for the rows, in squares of integers. -/
theorem sq_det_le_prod_rows (A : Matrix (Fin n) (Fin n) ℤ) :
    A.det.natAbs ^ 2 ≤ ∏ i, lengthSquare (A.row i) := by
  let basis := EuclideanSpace.basisFun (Fin n) ℝ
  let rows : Fin n → EuclideanSpace ℝ (Fin n) := fun i => WithLp.toLp 2 fun j => (A i j : ℝ)
  have : Fact (Module.finrank ℝ (EuclideanSpace ℝ (Fin n)) = n) := ⟨finrank_euclideanSpace_fin⟩
  -- The determinant is the oriented volume of the rows in an orthonormal basis.
  have hvolume := basis.toBasis.orientation.abs_volumeForm_apply_le rows
  rw [basis.toBasis.orientation.volumeForm_robust' basis rows, Module.Basis.det_apply] at hvolume
  have hmatrix : basis.toBasis.toMatrix rows = ((Int.castRingHom ℝ).mapMatrix A).transpose := by
    ext i j
    rw [Module.Basis.toMatrix_apply, OrthonormalBasis.coe_toBasis_repr_apply,
      EuclideanSpace.basisFun_repr]
    rfl
  rw [hmatrix, Matrix.det_transpose, ← RingHom.map_det, Int.coe_castRingHom] at hvolume
  have hcast : (A.det.natAbs ^ 2 : ℝ) ≤ ∏ i, (lengthSquare (A i) : ℝ) := by
    calc (A.det.natAbs ^ 2 : ℝ) = |(A.det : ℝ)| ^ 2 := by rw [Nat.cast_natAbs, Int.cast_abs]
      _ ≤ (∏ i, ‖rows i‖) ^ 2 := pow_le_pow_left₀ (abs_nonneg _) hvolume 2
      _ = ∏ i, (lengthSquare (A i) : ℝ) := by
        rw [← Finset.prod_pow]
        exact Finset.prod_congr rfl fun i _ => (cast_lengthSquare (A i)).symm
  exact_mod_cast hcast

/-- Hadamard's inequality for the columns. -/
theorem sq_det_le_prod_columns (A : Matrix (Fin n) (Fin n) ℤ) :
    A.det.natAbs ^ 2 ≤ ∏ j, lengthSquare (A.col j) := by
  rw [← Matrix.det_transpose]
  exact sq_det_le_prod_rows A.transpose

/-- The numerators of Cramer's rule have `b` in place of one column. -/
theorem sq_cramer_le (A : Matrix (Fin n) (Fin n) ℤ) (b : Fin n → ℤ) (j : Fin n) :
    (A.cramer b j).natAbs ^ 2
      ≤ lengthSquare b * ∏ k ∈ Finset.univ.erase j, lengthSquare (A.col k) := by
  rw [Matrix.cramer_apply]
  refine (sq_det_le_prod_columns _).trans (le_of_eq ?_)
  rw [← Finset.mul_prod_erase _ _ (Finset.mem_univ j)]
  congr 1
  · congr 1
    funext i
    exact Matrix.updateCol_self
  · refine Finset.prod_congr rfl fun k hk => ?_
    congr 1
    funext i
    exact Matrix.updateCol_ne (Finset.ne_of_mem_erase hk)

/-! ## Logarithms -/

/-- The base-2 logarithm of the length of a vector. -/
noncomputable def logLength (v : Fin n → ℤ) : ℝ := Real.logb 2 (lengthSquare v) / 2

theorem logb_natCast_nonneg (x : ℕ) : 0 ≤ Real.logb 2 x :=
  (Nat.cast_nonneg _).trans (Real.log2_le_logb x)

theorem logb_natCast_le_logb {x y : ℕ} (h : x ≤ y) : Real.logb 2 x ≤ Real.logb 2 y := by
  by_cases hx : x = 0
  · rw [hx, Nat.cast_zero, Real.logb_zero]
    exact logb_natCast_nonneg y
  · have hpos : (0 : ℝ) < x := by exact_mod_cast Nat.pos_of_ne_zero hx
    exact Real.logb_le_logb_of_le one_lt_two hpos (by exact_mod_cast h)

theorem logLength_nonneg (v : Fin n → ℤ) : 0 ≤ logLength v :=
  div_nonneg (logb_natCast_nonneg _) zero_le_two

/-- Logarithms turn a bound on the square into a sum of halves. -/
theorem logb_natAbs_le {ι : Type*} {d : ℤ} (hd : d ≠ 0) {a : ℕ} {s : Finset ι} {f : ι → ℕ}
    (h : d.natAbs ^ 2 ≤ a * ∏ k ∈ s, f k) :
    Real.logb 2 d.natAbs ≤ Real.logb 2 a / 2 + ∑ k ∈ s, Real.logb 2 (f k) / 2 := by
  have hdPos : 0 < d.natAbs := Int.natAbs_pos.2 hd
  have hproduct : 0 < a * ∏ k ∈ s, f k := (pow_pos hdPos 2).trans_le h
  have ha : (a : ℝ) ≠ 0 := by exact_mod_cast (Nat.pos_of_mul_pos_right hproduct).ne'
  have hf : ∀ k ∈ s, (f k : ℝ) ≠ 0 := by
    intro k hk
    have := Finset.prod_ne_zero_iff.1 (Nat.pos_of_mul_pos_left hproduct).ne' k hk
    exact_mod_cast this
  have hcast : (d.natAbs : ℝ) ^ 2 ≤ a * ∏ k ∈ s, (f k : ℝ) := by exact_mod_cast h
  have hlog := Real.logb_le_logb_of_le one_lt_two (by positivity) hcast
  rw [Real.logb_pow, Real.logb_mul ha (Finset.prod_ne_zero_iff.2 hf), Real.logb_prod _ _ hf] at hlog
  rw [← Finset.sum_div]
  push_cast at hlog
  linarith

/-- Hadamard's inequality for the rows, in logarithms. -/
theorem logb_det_le_sum_rows {A : Matrix (Fin n) (Fin n) ℤ} (hdet : A.det ≠ 0) :
    Real.logb 2 A.det.natAbs ≤ ∑ i, logLength (A.row i) := by
  have := logb_natAbs_le (a := 1) hdet (by rw [one_mul]; exact sq_det_le_prod_rows A)
  rwa [Nat.cast_one, Real.logb_one, zero_div, zero_add] at this

/-- The same for the columns. -/
theorem logb_det_le_sum_columns {A : Matrix (Fin n) (Fin n) ℤ} (hdet : A.det ≠ 0) :
    Real.logb 2 A.det.natAbs ≤ ∑ j, logLength (A.col j) := by
  rw [← Matrix.det_transpose] at hdet ⊢
  exact logb_det_le_sum_rows hdet

/-- The determinant with a column replaced by the right side is bounded by the lengths of its
columns. -/
theorem logb_cramer_le {A : Matrix (Fin n) (Fin n) ℤ} {b : Fin n → ℤ} {j : Fin n}
    (h : A.cramer b j ≠ 0) :
    Real.logb 2 (A.cramer b j).natAbs
      ≤ logLength b + (∑ k, logLength (A.col k) - logLength (A.col j)) := by
  rw [← Finset.sum_erase_eq_sub (Finset.mem_univ j)]
  exact logb_natAbs_le h (sq_cramer_le A b j)

end Hadamard
end PadicLift
