import Mathlib.Algebra.BigOperators.Fin
import Mathlib.Data.Matrix.Mul
import PadicLift.Matrix.Basic

/-!
# Dense matrices as mathematical ones

`Mat.toMatrix` is the matrix over `ℤ` that a dense matrix stores, and `Vector.get` is the vector. In
these terms products of dense matrices and vectors are the usual ones, whatever loop computes them.
-/

namespace PadicLift

/-! ## Vectors -/

section Vectors

variable {α β : Type} {n : ℕ}

theorem ext_get {u v : Vector α n} (h : ∀ i, u.get i = v.get i) : u = v := by
  ext i hi
  exact h ⟨i, hi⟩

theorem get_map (f : α → β) (v : Vector α n) (i : Fin n) : (v.map f).get i = f (v.get i) := by
  show (v.map f)[i.val] = f v[i.val]
  simp

theorem get_replicate (x : α) (i : Fin n) : (Vector.replicate n x).get i = x := by
  show (Vector.replicate n x)[i.val] = x
  simp

theorem toList_eq_ofFn (v : Vector α n) : v.toList = List.ofFn v.get := by
  have hv : v = Vector.ofFn v.get := ext_get fun i => (get_ofFn v.get i).symm
  conv_lhs => rw [hv]
  exact Vector.toList_ofFn

theorem mem_toList_iff {v : Vector α n} {x : α} : x ∈ v.toList ↔ ∃ i, v.get i = x := by
  rw [toList_eq_ofFn, List.mem_ofFn]

theorem toList_eq_map {cs : List α} {f : α → β} {v : Vector β cs.length}
    (h : ∀ j, v.get j = f (cs.get j)) : v.toList = cs.map f := by
  rw [toList_eq_ofFn]
  apply List.ext_getElem
  · rw [List.length_ofFn, List.length_map]
  · intro j _ _
    rw [List.getElem_ofFn, List.getElem_map, h]
    rfl

/-- A loop that adds up terms gives their sum. -/
theorem foldl_add_eq_sum {n : ℕ} (f : Fin n → ℤ) :
    Fin.foldl n (fun s i => s + f i) 0 = ∑ i, f i := by
  induction n with
  | zero => rfl
  | succ n ih => rw [Fin.foldl_succ_last, Fin.sum_univ_castSucc, ih]

end Vectors

/-! ## Largest values -/

section Largest

variable {α : Type}

theorem le_foldl_max (f : α → ℕ) (values : List α) (s : ℕ) :
    s ≤ values.foldl (fun s v => max s (f v)) s ∧
      ∀ v ∈ values, f v ≤ values.foldl (fun s v => max s (f v)) s := by
  induction values generalizing s with
  | nil => simp
  | cons v rest ih =>
    have hrest := ih (max s (f v))
    rw [List.foldl_cons, List.forall_mem_cons]
    exact ⟨by omega, by omega, hrest.2⟩

theorem foldl_max_le {f : α → ℕ} {values : List α} {s bound : ℕ} (hs : s ≤ bound)
    (h : ∀ v ∈ values, f v ≤ bound) : values.foldl (fun s v => max s (f v)) s ≤ bound := by
  induction values generalizing s with
  | nil => exact hs
  | cons v rest ih =>
    rw [List.forall_mem_cons] at h
    exact ih (max_le hs h.1) h.2

end Largest

/-! ## Matrices -/

namespace Mat

variable {m n k : ℕ}

/-- The matrix of the entries. -/
def toMatrix (A : Mat m n) : Matrix (Fin m) (Fin n) ℤ := Matrix.of A.entry

@[simp] theorem toMatrix_apply (A : Mat m n) (i : Fin m) (j : Fin n) :
    A.toMatrix i j = A.entry i j := rfl

theorem toMatrix_identity : (identity n).toMatrix = 1 := by
  ext i j
  rw [toMatrix_apply, identity, entry_ofFn, Matrix.one_apply]

@[simp] theorem entry_ofColumns (columns : Vector (Vector ℤ m) n) (i : Fin m) (j : Fin n) :
    (ofColumns columns).entry i j = (columns.get j).get i := by
  simp [ofColumns]

@[simp] theorem get_column (A : Mat m n) (j : Fin n) (i : Fin m) :
    (A.column j).get i = A.entry i j := by
  rw [column, get_ofFn]

theorem dot_eq_sum (u v : Vector ℤ n) : dot u v = ∑ i, u.get i * v.get i := by
  rw [dot, foldl_add_eq_sum fun i => u.get i * v.get i]

/-- Entries of a product with a vector are sums over the columns. -/
theorem get_mulVec (A : Mat m n) (v : Vector ℤ n) (i : Fin m) :
    (A.mulVec v).get i = ∑ j, A.entry i j * v.get j := by
  rw [mulVec, get_ofFn, dot_eq_sum]
  rfl

/-! ## The largest entry -/

theorem natAbs_entry_le_maxAbs (A : Mat m n) (i : Fin m) (j : Fin n) :
    (A.entry i j).natAbs ≤ A.maxAbs := by
  apply (le_foldl_max Int.natAbs A.toList 0).2
  rw [toList, List.mem_flatMap]
  exact ⟨A.rows.get i, mem_toList_iff.2 ⟨i, rfl⟩, mem_toList_iff.2 ⟨j, rfl⟩⟩

/-- Only a matrix with rows has an entry that is not 0. -/
theorem pos_of_maxAbs_ne_zero {A : Mat m n} (h : A.maxAbs ≠ 0) : 0 < m := by
  rcases Nat.eq_zero_or_pos m with rfl | hm
  · have hrows : A.rows.toList = [] := List.eq_nil_of_length_eq_zero A.rows.length_toList
    rw [maxAbs, toList, hrows] at h
    exact absurd rfl h
  · exact hm

end Mat
end PadicLift
