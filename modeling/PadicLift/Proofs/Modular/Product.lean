import Mathlib.Data.ZMod.Basic
import Mathlib.LinearAlgebra.Matrix.NonsingularInverse
import PadicLift.Modular.Product
import PadicLift.Proofs.Matrix.Basic
import PadicLift.Proofs.Number.Machine

/-!
# Products and inverses modulo an integer

`Mat.modulo p` is the matrix over `ZMod p` that a matrix of integers stands for. For residues in
`[0, p)` the blocked products in words are the products over `ZMod p`, again as residues in
`[0, p)`. A matrix of such residues is known by the matrix over `ZMod p`, so an inverse modulo `p`
is unique.
-/

namespace PadicLift

open Machine

/-! ## Inner products of words -/

section Words

variable {p : ℕ}

/-- Words keep a total at 0 or above, whatever the terms and their order. -/
theorem dotBy_word_nonneg (hp : 0 < p) (order : List (ℤ × ℤ) → Summation ℤ) (length : ℕ)
    (terms : List (ℤ × ℤ)) {total : ℤ} (htotal : 0 ≤ total) :
    0 ≤ word.dotBy order length p terms total := by
  fun_induction word.dotBy order length p terms total with
  | case1 total => exact htotal
  | case2 total t rest part ih =>
    apply ih
    rw [word_rem_eq _ (by omega)]
    exact Int.emod_nonneg _ (by omega)

/-- Blocks of residues fit a word, and so does the sum of two residues. -/
theorem wordBlock_mul_le (hp : 0 < p) (hmax : p ≤ maxModulus) :
    (wordBlock p : ℤ) * (((p : ℤ) - 1) * (p - 1)) ≤ (wordCapacity : ℕ) ∧
      2 * (p : ℤ) ≤ (wordCapacity : ℕ) := by
  have hcapacity : ((wordCapacity : ℕ) : ℤ) = 9223372036854775807 := by decide
  rw [maxModulus] at hmax
  have hsquare : ((p : ℤ) - 1) * (p - 1) ≤ 94906264 * 94906264 :=
    mul_le_mul (by omega) (by omega) (by omega) (by omega)
  exact ⟨blockLength_mul_le (by omega) le_rfl (by omega), by omega⟩

/-- A machine that is exact on words finds the inner product of residues, whatever the order in
which the products of a block are added. -/
theorem dotBy_wordBlock_exact {α : Type} {M : Machine α} {R : Reading α}
    (hM : M.IsExact R wordCapacity) {order : List (α × α) → Summation α}
    (horder : ∀ terms, (order terms).terms.Perm terms) (hp : 0 < p) (hmax : p ≤ maxModulus) {q : α}
    (hq : R.Fits q) (hvalue : R.value q = p) {terms : List (α × α)}
    (hterms : R.AreResidues p terms) :
    R.IsResidue p (M.dotBy order (wordBlock p) q terms M.zero) ∧
      R.value (M.dotBy order (wordBlock p) q terms M.zero) ≡ R.dot terms [ZMOD p] := by
  obtain ⟨hblock, hsum⟩ := wordBlock_mul_le hp hmax
  have hzero : R.IsResidue p M.zero := by
    refine ⟨hM.zero.1, ?_⟩
    rw [hM.zero.2, abs_zero]
    omega
  rw [← hvalue] at hblock hsum hterms hzero ⊢
  have hexact := dotBy_exact hM horder (blockLength_pos _ _) hq (by omega) hsum hblock hterms hzero
  rw [hM.zero.2, zero_add] at hexact
  exact hexact

/-- The inner product of residues is the residue of the inner product. -/
theorem dotBy_word_eq {order : List (ℤ × ℤ) → Summation ℤ}
    (horder : ∀ terms, (order terms).terms.Perm terms) (hp : 0 < p) (hmax : p ≤ maxModulus)
    {terms : List (ℤ × ℤ)} (hterms : Reading.plain.AreResidues p terms) :
    word.dotBy order (wordBlock p) p terms 0 = Reading.plain.dot terms % p := by
  obtain ⟨⟨-, hlt⟩, hmod⟩ := dotBy_wordBlock_exact word_isExact horder hp hmax (q := (p : ℤ))
    trivial rfl hterms
  have hnonneg := dotBy_word_nonneg hp order (wordBlock p) terms (le_refl 0)
  have hvalue : word.dotBy order (wordBlock p) p terms 0 ≡ Reading.plain.dot terms [ZMOD p] := hmod
  rw [← hvalue.eq]
  exact (Int.emod_eq_of_lt hnonneg (abs_lt.1 hlt).2).symm

/-- In blocks, words calculate the exact dot product, reduced. -/
theorem blockedDot_word_eq (hp : 0 < p) (hmax : p ≤ maxModulus) {terms : List (ℤ × ℤ)}
    (hterms : Reading.plain.AreResidues p terms) :
    word.blockedDot (wordBlock p) p terms 0 = Reading.plain.dot terms % p := by
  rw [← dotBy_leftToRight]
  exact dotBy_word_eq (fun terms => by rw [Summation.terms_leftToRight]) hp hmax hterms

end Words

namespace Mat

variable {m n k : ℕ} {p : ℕ}

/-! ## Residues of matrices -/

/-- The matrix over `ZMod p`. -/
def modulo (p : ℕ) (A : Mat m n) : Matrix (Fin m) (Fin n) (ZMod p) := A.toMatrix.map Int.cast

@[simp] theorem modulo_apply (A : Mat m n) (i : Fin m) (j : Fin n) :
    A.modulo p i j = (A.entry i j : ZMod p) := rfl

theorem modulo_identity : (identity n).modulo p = 1 := by
  rw [modulo, toMatrix_identity, Matrix.map_one Int.cast Int.cast_zero Int.cast_one]

theorem entry_reduce (A : Mat m n) (i : Fin m) (j : Fin n) :
    (A.reduce p).entry i j = A.entry i j % p := by
  rw [reduce, entry_map, Int.fmod_eq_emod_of_nonneg _ (by omega)]

theorem modulo_reduce (A : Mat m n) : (A.reduce p).modulo p = A.modulo p := by
  ext i j
  rw [modulo_apply, modulo_apply, entry_reduce]
  exact ZMod.intCast_mod _ p

/-- All entries lie in `[0, p)`. -/
def IsReduced (p : ℕ) (A : Mat m n) : Prop := ∀ i j, 0 ≤ A.entry i j ∧ A.entry i j < p

theorem isReduced_reduce (hp : 0 < p) (A : Mat m n) : (A.reduce p).IsReduced p := by
  intro i j
  rw [entry_reduce]
  exact ⟨Int.emod_nonneg _ (by omega), Int.emod_lt_of_pos _ (by omega)⟩

theorem IsReduced.abs_lt {A : Mat m n} (hA : A.IsReduced p) (i : Fin m) (j : Fin n) :
    |A.entry i j| < p := by
  have := hA i j
  rw [abs_of_nonneg this.1]
  exact this.2

/-- Reduced matrices are equal if they are equal over `ZMod p`. -/
theorem IsReduced.eq_of_modulo_eq {A B : Mat m n} (hA : A.IsReduced p) (hB : B.IsReduced p)
    (h : A.modulo p = B.modulo p) : A = B := by
  refine ext_entry fun i j => ?_
  have hij : (A.entry i j : ZMod p) = B.entry i j := congrFun (congrFun h i) j
  have hmod : A.entry i j % p = B.entry i j % p := (ZMod.intCast_eq_intCast_iff' _ _ _).1 hij
  rwa [Int.emod_eq_of_lt (hA i j).1 (hA i j).2, Int.emod_eq_of_lt (hB i j).1 (hB i j).2] at hmod

/-! ## Products -/

/-- Entries of a product with a vector are exact sums, reduced. -/
theorem get_mulVecMod (hp : 0 < p) (hmax : p ≤ maxModulus) {A : Mat m n} (hA : A.IsReduced p)
    {v : Vector ℤ n} (hv : ∀ t, |v.get t| < p) (i : Fin m) :
    (A.mulVecMod p v).get i = (∑ t, A.entry i t * v.get t) % p := by
  have hterms : Reading.plain.AreResidues p
      (List.ofFn fun t : Fin n => (A.entry i t, v.get t)) := by
    intro u hu
    obtain ⟨t, rfl⟩ := List.mem_ofFn.1 hu
    exact ⟨⟨trivial, hA.abs_lt i t⟩, ⟨trivial, hv t⟩⟩
  rw [mulVecMod, get_ofFn]
  refine (blockedDot_word_eq hp hmax hterms).trans ?_
  rw [Reading.dot, List.map_ofFn, List.sum_ofFn]
  rfl

/-- Entries of a product are exact sums, reduced. -/
theorem entry_mulMod (hp : 0 < p) (hmax : p ≤ maxModulus) {A : Mat m k} {B : Mat k n}
    (hA : A.IsReduced p) (hB : B.IsReduced p) (i : Fin m) (j : Fin n) :
    (A.mulMod p B).entry i j = (∑ t, A.entry i t * B.entry t j) % p := by
  have hterms : Reading.plain.AreResidues p
      (List.ofFn fun t : Fin k => (A.entry i t, B.entry t j)) := by
    intro u hu
    obtain ⟨t, rfl⟩ := List.mem_ofFn.1 hu
    exact ⟨⟨trivial, hA.abs_lt i t⟩, ⟨trivial, hB.abs_lt t j⟩⟩
  rw [mulMod, entry_ofFn]
  refine (blockedDot_word_eq hp hmax hterms).trans ?_
  rw [Reading.dot, List.map_ofFn, List.sum_ofFn]
  rfl

/-- Over the ring of residues, the product is that of the matrices. -/
theorem modulo_mulMod (hp : 0 < p) (hmax : p ≤ maxModulus) {A : Mat m k} {B : Mat k n}
    (hA : A.IsReduced p) (hB : B.IsReduced p) :
    (A.mulMod p B).modulo p = A.modulo p * B.modulo p := by
  ext i j
  rw [modulo_apply, entry_mulMod hp hmax hA hB, ZMod.intCast_mod, Matrix.mul_apply]
  push_cast
  rfl

/-! ## Inverses -/

/-- `B` holds the residues of the inverse of `A` modulo `p`. -/
structure IsInverse (p : ℕ) (A B : Mat n n) : Prop where
  reduced : B.IsReduced p
  mul_eq_one : B.modulo p * A.modulo p = 1

/-- There is at most one reduced inverse. -/
theorem IsInverse.unique {A B C : Mat n n} (hB : IsInverse p A B) (hC : IsInverse p A C) :
    B = C := by
  apply hB.reduced.eq_of_modulo_eq hC.reduced
  have hCA : A.modulo p * C.modulo p = 1 := mul_eq_one_comm.1 hC.mul_eq_one
  calc B.modulo p = B.modulo p * (A.modulo p * C.modulo p) := by rw [hCA, mul_one]
    _ = C.modulo p := by rw [← mul_assoc, hB.mul_eq_one, one_mul]

/-- A reduced matrix passes the test for inverses only if it is the inverse. -/
theorem isInverse_of_isInverseMod (hp : 0 < p) (hmax : p ≤ maxModulus) {A B : Mat n n}
    (hB : B.IsReduced p) (h : (A.reduce p).isInverseMod p B = true) : IsInverse p A B := by
  refine ⟨hB, mul_eq_one_comm.1 ?_⟩
  have hmul : (A.reduce p).mulMod p B = identity n := eq_of_beq h
  rw [← modulo_reduce A, ← modulo_mulMod hp hmax (isReduced_reduce hp A) hB, hmul,
    modulo_identity]

end Mat
end PadicLift
