import Mathlib.Data.Rat.Lemmas
import Mathlib.Data.ZMod.Units
import Mathlib.LinearAlgebra.Matrix.Adjugate
import Mathlib.RingTheory.Coprime.Lemmas
import PadicLift.Proofs.Modular.Product

/-!
# Cramer's rule for solutions over several rings

The determinant times a solution is given by determinants that do not know the ring of the solution.
So a rational solution and a solution modulo `m` belong together as soon as the determinant has an
inverse modulo `m`.
-/

namespace PadicLift
namespace Cramer

variable {n : ℕ} {A : Matrix (Fin n) (Fin n) ℤ} {b : Fin n → ℤ}

/-- Cramer's rule without a division, over any commutative ring. -/
theorem det_mul_eq {R : Type*} [CommRing R] {y : Fin n → R}
    (h : ∀ i, ∑ j, (A i j : R) * y j = b i) (i : Fin n) :
    (A.det : R) * y i = (A.cramer b i : R) := by
  have hadjugate : ∀ j, ((∑ k, A.adjugate i k * A k j : ℤ) : R)
      = (A.det : R) * (1 : Matrix (Fin n) (Fin n) R) i j := by
    intro j
    rw [← Matrix.mul_apply, Matrix.adjugate_mul, Matrix.smul_apply, smul_eq_mul, Matrix.one_apply,
      Matrix.one_apply]
    push_cast
    rfl
  calc (A.det : R) * y i = (A.det : R) * ∑ j, (1 : Matrix (Fin n) (Fin n) R) i j * y j := by
        congr 1
        exact (congrFun (Matrix.one_mulVec y) i).symm
    _ = ∑ j, ((∑ k, A.adjugate i k * A k j : ℤ) : R) * y j := by
        rw [Finset.mul_sum]
        exact Finset.sum_congr rfl fun j _ => by rw [hadjugate, mul_assoc]
    _ = ∑ k, (A.adjugate i k : R) * ∑ j, (A k j : R) * y j := by
        push_cast
        simp only [Finset.sum_mul, Finset.mul_sum]
        rw [Finset.sum_comm]
        exact Finset.sum_congr rfl fun k _ => Finset.sum_congr rfl fun j _ => mul_assoc _ _ _
    _ = (A.cramer b i : R) := by
        rw [Matrix.cramer_eq_adjugate_mulVec]
        simp only [h]
        push_cast [Matrix.mulVec, dotProduct]
        rfl

/-- Modulo `m`, the determinant times a solution is given by determinants as well. -/
theorem det_mul_modEq {m : ℕ} {y : Fin n → ℤ} (hy : ∀ i, ∑ j, A i j * y j ≡ b i [ZMOD m])
    (i : Fin n) : A.det * y i ≡ A.cramer b i [ZMOD m] := by
  have hyMod : ∀ i, ∑ j, (A i j : ZMod m) * (y j : ZMod m) = b i := by
    intro i
    rw [← (ZMod.intCast_eq_intCast_iff _ _ m).2 (hy i)]
    push_cast
    rfl
  rw [← ZMod.intCast_eq_intCast_iff, Int.cast_mul]
  exact det_mul_eq hyMod i

/-- Solutions modulo `m` are congruent if the determinant is coprime to `m`. -/
theorem modEq_of_solves {m : ℕ} (hdet : IsCoprime A.det m) {y z : Fin n → ℤ}
    (hy : ∀ i, ∑ j, A i j * y j ≡ b i [ZMOD m]) (hz : ∀ i, ∑ j, A i j * z j ≡ b i [ZMOD m])
    (i : Fin n) : y i ≡ z i [ZMOD m] := by
  have hmul : A.det * y i ≡ A.det * z i [ZMOD m] :=
    (det_mul_modEq hy i).trans (det_mul_modEq hz i).symm
  have hdvd := Int.modEq_iff_dvd.1 hmul
  rw [← mul_sub] at hdvd
  exact Int.modEq_iff_dvd.2 (hdet.symm.dvd_of_dvd_mul_left hdvd)

section Rational

variable {x : Fin n → ℚ} (hx : ∀ i, ∑ j, (A i j : ℚ) * x j = b i)
include hx

/-- Cramer's rule for the numerator and denominator of a fraction. -/
theorem det_mul_num_eq (i : Fin n) : A.det * (x i).num = A.cramer b i * (x i).den := by
  have hmul := det_mul_eq hx i
  have hself : x i * (x i).den = (x i).num := Rat.mul_den_eq_num (x i)
  have hcast : (A.det : ℚ) * (x i).num = A.cramer b i * (x i).den := by
    rw [← hself, ← hmul, mul_assoc]
  exact_mod_cast hcast

/-- The denominators of a solution divide the determinant, -/
theorem den_dvd_det (i : Fin n) : ((x i).den : ℤ) ∣ A.det := by
  refine (x i).isCoprime_num_den.symm.dvd_of_dvd_mul_right ⟨A.cramer b i, ?_⟩
  rw [det_mul_num_eq hx, mul_comm]

/-- and its numerators the determinants with one column replaced. -/
theorem num_dvd_cramer (i : Fin n) : (x i).num ∣ A.cramer b i := by
  refine (x i).isCoprime_num_den.dvd_of_dvd_mul_right ⟨A.det, ?_⟩
  rw [← det_mul_num_eq hx, mul_comm]

/-- A solution modulo `m` holds the residues of the rational one. -/
theorem den_mul_modEq_num {m : ℕ} (hdet : IsCoprime A.det m) {y : Fin n → ℤ}
    (hy : ∀ i, ∑ j, A i j * y j ≡ b i [ZMOD m]) (i : Fin n) :
    (x i).den * y i ≡ (x i).num [ZMOD m] := by
  have hmod := det_mul_modEq hy i
  have hdvd : (m : ℤ) ∣ A.det * ((x i).num - (x i).den * y i) := by
    have hsplit : A.det * ((x i).num - (x i).den * y i)
        = (x i).den * (A.cramer b i - A.det * y i) := by
      rw [mul_sub, det_mul_num_eq hx]
      ring
    rw [hsplit]
    exact (Int.modEq_iff_dvd.1 hmod).mul_left _
  exact Int.modEq_iff_dvd.2 (hdet.symm.dvd_of_dvd_mul_left hdvd)

end Rational

end Cramer

/-- A matrix with an inverse modulo `p` has a determinant that is coprime to `p`. -/
theorem Mat.IsInverse.isCoprime_det {n p : ℕ} {A B : Mat n n} (h : A.IsInverse p B) :
    IsCoprime A.toMatrix.det (p : ℤ) := by
  have hdet : (B.modulo p).det * (A.toMatrix.det : ZMod p) = 1 := by
    have hcast : (A.toMatrix.det : ZMod p) = (A.modulo p).det :=
      (Int.castRingHom (ZMod p)).map_det A.toMatrix
    rw [hcast, ← Matrix.det_mul, h.mul_eq_one, Matrix.det_one]
  exact ((ZMod.coe_int_isUnit_iff_isCoprime _ p).1 (IsUnit.of_mul_eq_one_right _ hdet)).symm

end PadicLift
