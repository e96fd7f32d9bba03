import Mathlib.LinearAlgebra.Matrix.Rank
import PadicLift.Proofs.Modular.RowOperations
import PadicLift.Proofs.Number.Inverse
import PadicLift.Proofs.Outcome

/-!
# What elimination finds

The invariant of the elimination is that the table keeps its kernel over `ZMod p`, that the columns
with a pivot are unit columns, and that the rows without one are 0 in all columns so far (`Swept`).
At the start the kernel consists of the pairs `(u, -A u)`. If all columns have a pivot in the end,
the kernel says that the right half is the inverse. For a prime modulus every pivot is invertible,
so the elimination reaches its end, and then the number of pivots is the rank of the matrix; so
every inverse is found.
-/

namespace PadicLift
namespace Elimination

variable {n m : ℕ} {p : ℕ} {T : Mat n m} {r : Fin n} {c : Fin m} {scale : ℤ}

/-! ## Kernels -/

/-- The vectors over `ZMod p` that a table sends to 0. -/
def kernel (p : ℕ) (T : Mat n m) : Set (Fin m → ZMod p) := {w | (T.modulo p).mulVec w = 0}

theorem mem_kernel_iff {w : Fin m → ZMod p} :
    w ∈ kernel p T ↔ ∀ i, ∑ j, T.modulo p i j * w j = 0 := funext_iff

/-- Swapping rows keeps the kernel. -/
theorem kernel_swapRows (r s : Fin n) : kernel p (swapRows T r s) = kernel p T := by
  ext w
  rw [mem_kernel_iff, mem_kernel_iff]
  have hrow : ∀ i, ∑ j, (swapRows T r s).modulo p i j * w j
      = ∑ j, T.modulo p (Equiv.swap r s i) j * w j := by
    intro i
    exact Finset.sum_congr rfl fun j _ => by rw [Mat.modulo_apply, entry_swapRows]; rfl
  constructor
  · intro h i
    have hi := h (Equiv.swap r s i)
    rwa [hrow, Equiv.swap_apply_self] at hi
  · intro h i
    rw [hrow]
    exact h _

/-- Clearing a column with the inverse of its pivot keeps the kernel. -/
theorem kernel_clearColumn (hp : 0 < p) (hmax : p ≤ maxModulus) (hT : T.IsReduced p)
    (hscale : |scale| < p) (hinv : T.modulo p r c * scale = 1) :
    kernel p (clearColumn p T r c scale) = kernel p T := by
  ext w
  rw [mem_kernel_iff, mem_kernel_iff]
  have hrow : ∀ i, ∑ j, (clearColumn p T r c scale).modulo p i j * w j
      = if i = r then (∑ j, T.modulo p r j * w j) * scale
        else ∑ j, T.modulo p i j * w j
          - T.modulo p i c * ((∑ j, T.modulo p r j * w j) * scale) := by
    intro i
    simp only [modulo_clearColumn hp hmax hT hscale]
    split
    · rw [Finset.sum_mul]
      exact Finset.sum_congr rfl fun j _ => by ring
    · rw [Finset.sum_mul, Finset.mul_sum, ← Finset.sum_sub_distrib]
      exact Finset.sum_congr rfl fun j _ => by ring
  constructor
  · intro h
    -- The cleared row is the pivot row scaled by a unit, so the pivot row vanishes on `w` too.
    have hpivot : ∑ j, T.modulo p r j * w j = 0 := by
      have hr := h r
      rw [hrow, if_pos rfl] at hr
      calc ∑ j, T.modulo p r j * w j
          = (∑ j, T.modulo p r j * w j) * scale * T.modulo p r c := by
            rw [mul_assoc, mul_comm (scale : ZMod p), hinv, mul_one]
        _ = 0 := by rw [hr, zero_mul]
    intro i
    by_cases hi : i = r
    · rw [hi]
      exact hpivot
    · have hother := h i
      rw [hrow, if_neg hi, hpivot, zero_mul, mul_zero, sub_zero] at hother
      exact hother
  · intro h i
    rw [hrow, h r, h i]
    simp

/-- The two halves of a table act on the two halves of a vector. -/
theorem append_mem_kernel_iff {T : Mat n (n + n)} {u v : Fin n → ZMod p} :
    Fin.append u v ∈ kernel p T ↔ ∀ i, ∑ j, T.modulo p i (Fin.castAdd n j) * u j
      + ∑ j, T.modulo p i (Fin.natAdd n j) * v j = 0 := by
  rw [mem_kernel_iff]
  refine forall_congr' fun i => ?_
  rw [Fin.sum_univ_add]
  simp only [Fin.append_left, Fin.append_right]

/-- In the kernel of the first table are the pairs with `A u + v = 0`. -/
theorem append_mem_kernel_start_iff {A : Mat n n} {u v : Fin n → ZMod p} :
    Fin.append u v ∈ kernel p (start A).table ↔ (A.modulo p).mulVec u + v = 0 := by
  have hleft : ∀ i j, (start A).table.modulo p i (Fin.castAdd n j) = A.modulo p i j := by
    intro i j
    rw [Mat.modulo_apply, start, Mat.entry_ofFn, Fin.addCases_left]
    rfl
  have hright : ∀ i j, (start A).table.modulo p i (Fin.natAdd n j)
      = (1 : Matrix (Fin n) (Fin n) (ZMod p)) i j := by
    intro i j
    rw [Mat.modulo_apply, start, Mat.entry_ofFn, Fin.addCases_right, ← Mat.modulo_identity]
    rfl
  rw [append_mem_kernel_iff, funext_iff]
  refine forall_congr' fun i => ?_
  simp only [hleft, hright]
  have hone : ∑ j, (1 : Matrix (Fin n) (Fin n) (ZMod p)) i j * v j = v i :=
    congrFun (Matrix.one_mulVec v) i
  rw [hone]
  rfl

/-! ## One column -/

/-- The pivot is in a row that is still free, and is not 0. -/
theorem findPivot_eq_some {first : ℕ} {i : Fin n} (h : findPivot T first c = some i) :
    first ≤ i ∧ T.entry i c ≠ 0 := by
  have hfound := List.find?_some h
  rw [Bool.and_eq_true, decide_eq_true_eq, bne_iff_ne] at hfound
  exact hfound

/-- Without a pivot the free rows have 0 in the column. -/
theorem findPivot_eq_none {first : ℕ} (h : findPivot T first c = none) {i : Fin n}
    (hi : first ≤ i) : T.entry i c = 0 := by
  have hmissed := List.find?_eq_none.1 h i (List.mem_finRange i)
  by_contra hne
  exact hmissed (by rw [Bool.and_eq_true, decide_eq_true_eq, bne_iff_ne]; exact ⟨hi, hne⟩)

/-- Row `i` holds the pivot of column `c`, which has the inverse `scale`, and is exchanged with
row `r`. -/
structure HasPivot (p : ℕ) (s : State n) (c r i : Fin n) (scale : ℕ) : Prop where
  row_eq : r.val = s.pivots
  found : findPivot s.table s.pivots (c.castAdd n) = some i
  inverse : inverse? (s.table.entry i (c.castAdd n)).toNat p = some scale

/-- With a pivot one exchange of rows and one cleared column are left. -/
theorem HasPivot.step_eq_ok {s : State n} {c r i : Fin n} {scale : ℕ}
    (h : HasPivot p s c r i scale) : step p s c
      = .ok ⟨s.pivots + 1, clearColumn p (swapRows s.table r i) r (c.castAdd n) scale⟩ := by
  have hr : s.pivots < n := h.row_eq ▸ r.isLt
  have hrow : (⟨s.pivots, hr⟩ : Fin n) = r := Fin.ext h.row_eq.symm
  simp only [step, h.found, dif_pos hr, hrow, entry_swapRows, Equiv.swap_apply_left, h.inverse]

/-- What elimination in one column does: nothing without a pivot, otherwise one exchange of rows and
one cleared column. -/
theorem step_cases {s s' : State n} {c : Fin n} (h : step p s c = .ok s') (hs : s.pivots ≤ c) :
    (s' = s ∧ ∀ i : Fin n, s.pivots ≤ i → s.table.entry i (c.castAdd n) = 0) ∨
    ∃ (r i : Fin n) (scale : ℕ), HasPivot p s c r i scale ∧
      s' = ⟨s.pivots + 1, clearColumn p (swapRows s.table r i) r (c.castAdd n) scale⟩ := by
  unfold step at h
  dsimp only at h
  split at h
  next hnone =>
    cases h
    exact .inl ⟨rfl, fun i hi => findPivot_eq_none hnone hi⟩
  next i hsome =>
    have hr : s.pivots < n := hs.trans_lt c.isLt
    rw [dif_pos hr] at h
    rw [entry_swapRows, Equiv.swap_apply_left] at h
    split at h
    · cases h
    next scale hscale =>
      cases h
      exact .inr ⟨⟨s.pivots, hr⟩, i, scale, ⟨rfl, hsome, hscale⟩, rfl⟩

/-- Elimination in a column fails only at a pivot without an inverse. -/
theorem step_eq_error {s : State n} {c : Fin n} {f : Fault} (h : step p s c = .error f) :
    f = .argument .notInvertible := by
  unfold step at h
  dsimp only at h
  split at h
  · cases h
  · split at h
    · split at h <;> cases h
      rfl
    · cases h

/-- The state after `c` columns: the table is reduced and keeps its kernel, every row with a pivot
has a unit column, and the other rows are 0 so far. As long as every column has a pivot, the unit
columns stand in order. -/
structure Swept (p : ℕ) (A : Mat n n) (c : ℕ) (s : State n) : Prop where
  reduced : s.table.IsReduced p
  kernel_eq : kernel p s.table = kernel p (start A).table
  pivots_le : s.pivots ≤ c
  pivot : ∀ r : Fin n, r.val < s.pivots → ∃ j : Fin n, j.val < c ∧
    ∀ i, s.table.entry i (j.castAdd n) = if i = r then 1 else 0
  below : ∀ i j : Fin n, s.pivots ≤ i.val → j.val < c → s.table.entry i (j.castAdd n) = 0
  unit : s.pivots = c → ∀ i j : Fin n, j.val < c →
    s.table.entry i (j.castAdd n) = if i = j then 1 else 0

section Columns

variable {A : Mat n n} {s s' : State n}

theorem swept_start (hp : 2 ≤ p) (hA : A.IsReduced p) : Swept p A 0 (start A) := by
  refine ⟨?_, rfl, le_rfl, fun _ hr => absurd hr (Nat.not_lt_zero _),
    fun _ _ _ hj => absurd hj (Nat.not_lt_zero _), fun _ _ _ hj => absurd hj (Nat.not_lt_zero _)⟩
  intro i j
  rw [start, Mat.entry_ofFn]
  refine Fin.addCases (fun j => ?_) (fun j => ?_) j
  · rw [Fin.addCases_left]
    exact hA i j
  · rw [Fin.addCases_right, Mat.identity, Mat.entry_ofFn]
    split <;> omega

/-- A column without a pivot is passed over. -/
theorem Swept.pass {c : Fin n} (hs : Swept p A c s)
    (hzero : ∀ i : Fin n, s.pivots ≤ i → s.table.entry i (c.castAdd n) = 0) :
    Swept p A (c + 1) s := by
  have hle := hs.pivots_le
  refine ⟨hs.reduced, hs.kernel_eq, by omega, ?_, ?_, fun hpivots => by omega⟩
  · intro r hr
    obtain ⟨j, hj, hunit⟩ := hs.pivot r hr
    exact ⟨j, by omega, hunit⟩
  · intro i j hi hj
    by_cases hjc : j = c
    · rw [hjc]
      exact hzero i hi
    · exact hs.below i j hi (by omega)

/-- The inverse of a pivot is a residue. -/
theorem HasPivot.abs_scale_lt (hp : 0 < p) {c r i : Fin n} {scale : ℕ}
    (h : HasPivot p s c r i scale) : |((scale : ℕ) : ℤ)| < p := by
  have := inverse?_lt hp h.inverse
  rw [abs_of_nonneg (by omega)]
  omega

/-- Elimination with a pivot in a column leaves a unit column and touches no column before. -/
theorem Swept.clear (hp : 2 ≤ p) (hmax : p ≤ maxModulus) {c : Fin n} (hs : Swept p A c s)
    {r i : Fin n} {scale : ℕ} (hpivot : HasPivot p s c r i scale) :
    Swept p A (c + 1)
      ⟨s.pivots + 1, clearColumn p (swapRows s.table r i) r (c.castAdd n) scale⟩ := by
  have hpos : 0 < p := by omega
  have hle := hs.pivots_le
  have hr := hpivot.row_eq
  have hi := (findPivot_eq_some hpivot.found).1
  have hreduced := isReduced_swapRows hs.reduced r i
  have hlt := hpivot.abs_scale_lt hpos
  have hinv : (swapRows s.table r i).entry r (c.castAdd n) * scale ≡ 1 [ZMOD p] := by
    have hmod := inverse?_modEq hpos hpivot.inverse
    rw [Int.toNat_of_nonneg (hs.reduced i _).1, mul_comm] at hmod
    rwa [entry_swapRows, Equiv.swap_apply_left]
  have hnew := entry_clearColumn_pivot hp hmax hreduced hlt hinv
  -- Both rows of the exchange are 0 in all columns before.
  have hold : ∀ (k : Fin n) {j : Fin n}, j.val < c →
      (clearColumn p (swapRows s.table r i) r (c.castAdd n) scale).entry k (j.castAdd n)
        = s.table.entry k (j.castAdd n) := by
    intro k j hj
    exact entry_clearColumn_of_eq_zero hpos hmax hs.reduced hlt (hs.below r j (by omega) hj)
      (hs.below i j hi hj) k
  refine ⟨isReduced_clearColumn hpos hmax hreduced hlt, ?_, by simpa using hle, ?_, ?_, ?_⟩
  · have hunit : (swapRows s.table r i).modulo p r (c.castAdd n) * ((scale : ℕ) : ℤ) = 1 := by
      rw [Mat.modulo_apply, ← Int.cast_mul, ← Int.cast_one]
      exact (ZMod.intCast_eq_intCast_iff _ _ p).2 hinv
    rw [kernel_clearColumn hpos hmax hreduced hlt hunit, kernel_swapRows, hs.kernel_eq]
  · intro k hk
    dsimp only at hk
    by_cases hkr : k = r
    · exact ⟨c, by omega, by rw [hkr]; exact hnew⟩
    · obtain ⟨j, hj, hunit⟩ := hs.pivot k (by omega)
      exact ⟨j, by omega, fun k' => (hold k' hj).trans (hunit k')⟩
  · intro k j hk hj
    dsimp only at hk ⊢
    by_cases hjc : j = c
    · rw [hjc, hnew, if_neg (by omega)]
    · rw [hold k (by omega)]
      exact hs.below k j (by omega) (by omega)
  · intro hpivots k j hj
    dsimp only at hpivots ⊢
    by_cases hjc : j = c
    · have hrc : r = c := by omega
      rw [hjc, hnew, hrc]
    · rw [hold k (by omega)]
      exact hs.unit (by omega) k j (by omega)

/-- A step sweeps one more column. -/
theorem Swept.of_step (hp : 2 ≤ p) (hmax : p ≤ maxModulus) {c : Fin n} (hs : Swept p A c s)
    (h : step p s c = .ok s') : Swept p A (c + 1) s' := by
  obtain ⟨rfl, hzero⟩ | ⟨r, i, scale, hpivot, rfl⟩ := step_cases h hs.pivots_le
  · exact hs.pass hzero
  · exact hs.clear hp hmax hpivot

/-- Elimination in the first `c` columns. -/
def after (p : ℕ) (A : Mat n n) (c : ℕ) : Except Fault (State n) :=
  ((List.finRange n).take c).foldlM (step p) (start A)

theorem after_eq_run (p : ℕ) (A : Mat n n) : after p A n = run p A := by
  rw [after, List.take_of_length_le (List.length_finRange).le, run]

theorem swept_after (hp : 2 ≤ p) (hmax : p ≤ maxModulus) (hA : A.IsReduced p) {c : ℕ} (hc : c ≤ n)
    (h : after p A c = .ok s) : Swept p A c s :=
  Outcome.foldlM_take_finRange_invariant (Swept p A)
    (fun _ _ _ hs hstep => hs.of_step hp hmax hstep) (swept_start hp hA) hc h

/-- Every column is swept in the end. -/
theorem swept_run (hp : 2 ≤ p) (hmax : p ≤ maxModulus) (hA : A.IsReduced p)
    (h : run p A = .ok s) : Swept p A n s :=
  swept_after hp hmax hA le_rfl ((after_eq_run p A).trans h)

/-! ## All columns -/

/-- With a pivot in every column the right half is the inverse. -/
theorem Swept.isInverse (hs : Swept p A n s) (hpivots : s.pivots = n) : A.IsInverse p s.right := by
  refine ⟨?_, ?_⟩
  · intro i j
    rw [State.right, Mat.entry_ofFn]
    exact hs.reduced i _
  · ext i j
    -- Column `j` of the identity and of `-A` make a vector of the kernel.
    have hmem : Fin.append (Pi.single j 1) (-(A.modulo p).mulVec (Pi.single j 1))
        ∈ kernel p s.table := by
      rw [hs.kernel_eq, append_mem_kernel_start_iff]
      exact add_neg_cancel _
    have hrow := append_mem_kernel_iff.1 hmem i
    have hleft : ∑ k, s.table.modulo p i (Fin.castAdd n k) * (Pi.single j 1 : Fin n → ZMod p) k
        = (1 : Matrix (Fin n) (Fin n) (ZMod p)) i j := by
      rw [Finset.sum_eq_single j]
      · rw [Pi.single_eq_same, mul_one, Mat.modulo_apply, hs.unit hpivots i j j.isLt,
          Matrix.one_apply]
        push_cast
        rfl
      · intro k _ hk
        rw [Pi.single_eq_of_ne hk, mul_zero]
      · intro hj
        exact absurd (Finset.mem_univ j) hj
    have hright : ∑ k, s.table.modulo p i (Fin.natAdd n k)
        * (-(A.modulo p).mulVec (Pi.single j 1)) k = -(s.right.modulo p * A.modulo p) i j := by
      rw [Matrix.mul_apply, ← Finset.sum_neg_distrib]
      refine Finset.sum_congr rfl fun k _ => ?_
      rw [Pi.neg_apply, mul_neg, Matrix.mulVec_single_one, Mat.modulo_apply, Mat.modulo_apply,
        State.right, Mat.entry_ofFn]
      rfl
    rw [hleft, hright, ← sub_eq_add_neg] at hrow
    exact (sub_eq_zero.1 hrow).symm

/-- The left half of the table. -/
def State.left (s : State n) : Mat n n := Mat.ofFn fun i j => s.table.entry i (Fin.castAdd n j)

/-- The left half sends the same vectors to 0 as the matrix. -/
theorem Swept.left_mulVec_eq_zero_iff {c : ℕ} (hs : Swept p A c s) (u : Fin n → ZMod p) :
    (s.left.modulo p).mulVec u = 0 ↔ (A.modulo p).mulVec u = 0 := by
  have hleft : (s.left.modulo p).mulVec u = 0 ↔ Fin.append u 0 ∈ kernel p s.table := by
    rw [append_mem_kernel_iff, funext_iff]
    refine forall_congr' fun i => ?_
    simp only [Pi.zero_apply, mul_zero, Finset.sum_const_zero, add_zero]
    have hrow : ∀ j, s.left.modulo p i j = s.table.modulo p i (Fin.castAdd n j) := by
      intro j
      rw [Mat.modulo_apply, State.left, Mat.entry_ofFn, Mat.modulo_apply]
    simp only [Matrix.mulVec, dotProduct, hrow]
  rw [hleft, hs.kernel_eq, append_mem_kernel_start_iff, add_zero]

/-- Matrices that send the same vectors to 0 have the same rank. -/
theorem rank_eq_of_mulVec_eq_zero_iff {R : Type} [CommRing R] {M N : Matrix (Fin n) (Fin n) R}
    (h : ∀ u, M.mulVec u = 0 ↔ N.mulVec u = 0) : M.rank = N.rank := by
  have hker : LinearMap.ker M.mulVecLin = LinearMap.ker N.mulVecLin := by
    ext u
    rw [LinearMap.mem_ker, LinearMap.mem_ker, Matrix.mulVecLin_apply, Matrix.mulVecLin_apply, h]
  calc M.rank = Module.finrank R ((Fin n → R) ⧸ LinearMap.ker M.mulVecLin) :=
        M.mulVecLin.quotKerEquivRange.finrank_eq.symm
    _ = Module.finrank R ((Fin n → R) ⧸ LinearMap.ker N.mulVecLin) := by rw [hker]
    _ = N.rank := N.mulVecLin.quotKerEquivRange.finrank_eq

/-- After all columns the number of pivots is the rank of the matrix: the rows with a pivot contain
an identity matrix, and the other rows are 0. -/
theorem Swept.pivots_eq_rank (hp : 2 ≤ p) (hs : Swept p A n s) :
    s.pivots = (A.modulo p).rank := by
  have : Fact (1 < p) := ⟨hp⟩
  have hentry : ∀ i j, s.left.modulo p i j = (s.table.entry i (Fin.castAdd n j) : ZMod p) := by
    intro i j
    rw [Mat.modulo_apply, State.left, Mat.entry_ofFn]
  have hrank : (s.left.modulo p).rank = (A.modulo p).rank :=
    rank_eq_of_mulVec_eq_zero_iff hs.left_mulVec_eq_zero_iff
  rw [← hrank]
  apply le_antisymm
  · -- The rows with a pivot have an identity matrix in the columns of the pivots.
    choose column hcolumn hunit using fun r : Fin s.pivots =>
      hs.pivot (r.castLE hs.pivots_le) r.isLt
    have hidentity : (s.left.modulo p).submatrix (Fin.castLE hs.pivots_le) column = 1 := by
      ext r t
      rw [Matrix.submatrix_apply, hentry, hunit, Matrix.one_apply]
      simp only [Fin.castLE_inj]
      split <;> simp
    calc s.pivots = ((s.left.modulo p).submatrix (Fin.castLE hs.pivots_le) column).rank := by
          rw [hidentity, Matrix.rank_one, Fintype.card_fin]
      _ ≤ (s.left.modulo p).rank := Matrix.rank_submatrix_le _ _ _
  · -- All rows behind them are 0.
    have hsupport : Function.support (s.left.modulo p).row
        ⊆ (Finset.univ.filter fun i : Fin n => i.val < s.pivots : Finset (Fin n)) := by
      intro i hi
      by_contra hlarge
      apply hi
      ext j
      have hzero := hs.below i j (by simpa using hlarge) j.isLt
      show s.left.modulo p i j = 0
      rw [hentry, hzero, Int.cast_zero]
    refine (Matrix.rank_le_card_of_support_subset _ _ hsupport).trans ?_
    rw [Fin.card_filter_val_lt]
    exact min_le_right _ _

/-- For a prime modulus every pivot is invertible, so no column fails. -/
theorem Swept.exists_step (hp : p.Prime) (hmax : p ≤ maxModulus) {c : Fin n} (hs : Swept p A c s) :
    ∃ s', step p s c = .ok s' ∧ Swept p A (c + 1) s' := by
  cases hfound : findPivot s.table s.pivots (c.castAdd n) with
  | none =>
    refine ⟨s, ?_, hs.pass fun i hi => findPivot_eq_none hfound hi⟩
    simp only [step, hfound]
  | some i =>
    have hr : s.pivots < n := hs.pivots_le.trans_lt c.isLt
    have hne := (findPivot_eq_some hfound).2
    obtain ⟨hnonneg, hlt⟩ := hs.reduced i (c.castAdd n)
    have hcoprime : Nat.Coprime (s.table.entry i (c.castAdd n)).toNat p := by
      rw [Nat.coprime_comm, hp.coprime_iff_not_dvd]
      intro hdvd
      have := Nat.le_of_dvd (by omega) hdvd
      omega
    obtain ⟨scale, hscale⟩ := exists_inverse? hcoprime
    have hpivot : HasPivot p s c ⟨s.pivots, hr⟩ i scale := ⟨rfl, hfound, hscale⟩
    exact ⟨_, hpivot.step_eq_ok, hs.clear hp.two_le hmax hpivot⟩

/-- For a prime modulus elimination reaches its end. -/
theorem exists_run (hp : p.Prime) (hmax : p ≤ maxModulus) (hA : A.IsReduced p) :
    ∃ s, run p A = .ok s ∧ Swept p A n s :=
  Outcome.exists_foldlM_finRange (Swept p A) (fun _ _ hs => hs.exists_step hp hmax)
    (swept_start hp.two_le hA)

end Columns

end Elimination

/-! ## Inversion -/

namespace Mat

variable {n : ℕ} {p : ℕ} {A B : Mat n n}

/-- What elimination answers as the inverse is the inverse. -/
theorem isInverse_of_inverseMod (hp : 2 ≤ p) (hmax : p ≤ maxModulus)
    (h : (A.reduce p).inverseMod p = .ok (.inverse B)) : A.IsInverse p B := by
  obtain ⟨s, hs, h⟩ := Outcome.bind_eq_ok.1 h
  have hswept := Elimination.swept_run hp hmax (isReduced_reduce (by omega) A) hs
  split at h
  · cases h
  next hpivots =>
    cases h
    have hle := hswept.pivots_le
    have hinv := hswept.isInverse (by omega)
    refine ⟨hinv.reduced, ?_⟩
    rw [← modulo_reduce A]
    exact hinv.mul_eq_one

/-- A kernel is reported only if there is one. -/
theorem pos_of_inverseMod {k : ℕ} (h : A.inverseMod p = .ok (.singular k)) : 0 < k := by
  obtain ⟨s, -, h⟩ := Outcome.bind_eq_ok.1 h
  split at h <;> cases h
  omega

/-- The elimination can only fail because there is no inverse. -/
theorem inverseMod_eq_error {f : Fault} (h : A.inverseMod p = .error f) :
    f = .argument .notInvertible := by
  rcases Outcome.bind_eq_error.1 h with hrun | ⟨s, -, h⟩
  · obtain ⟨c, -, s, hstep⟩ := Outcome.exists_mem_of_foldlM_eq_error hrun
    exact Elimination.step_eq_error hstep
  · split at h <;> cases h

/-- For a prime modulus elimination finds every inverse. -/
theorem IsInverse.inverseMod_eq_ok (hp : p.Prime) (hmax : p ≤ maxModulus) (hB : A.IsInverse p B) :
    (A.reduce p).inverseMod p = .ok (.inverse B) := by
  have : Fact (1 < p) := ⟨hp.one_lt⟩
  have hB' : (A.reduce p).IsInverse p B := ⟨hB.reduced, by
    rw [modulo_reduce]
    exact hB.mul_eq_one⟩
  obtain ⟨s, hs, hswept⟩ := Elimination.exists_run hp hmax (isReduced_reduce hp.pos A)
  have hunit : IsUnit ((A.reduce p).modulo p) := IsUnit.of_mul_eq_one_right _ hB'.mul_eq_one
  have hpivots : s.pivots = n := by
    rw [hswept.pivots_eq_rank hp.two_le, Matrix.rank_of_isUnit _ hunit, Fintype.card_fin]
  have hright : s.right = B := (hswept.isInverse hpivots).unique hB'
  refine Outcome.bind_eq_ok.2 ⟨s, hs, ?_⟩
  rw [if_neg (by omega), hright]
  rfl

end Mat
end PadicLift
