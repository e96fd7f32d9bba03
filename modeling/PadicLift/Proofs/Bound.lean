import PadicLift.Bound
import PadicLift.Proofs.Matrix.Cramer
import PadicLift.Proofs.Matrix.Hadamard
import PadicLift.Proofs.Number.Logarithm
import PadicLift.Proofs.Outcome

/-!
# When the bounds admit the solution

Without rounding the logarithms of the bounds would be those of Hadamard's inequality and of
Cramer's rule, and every solution would be within the bounds. A computed logarithm is near the exact
one, but it may have been rounded down to a whole number that the exact one exceeds. That is the
only way in which a bound fails, and it does happen.
-/

namespace PadicLift

open Binary64 Hadamard

variable {n : ℕ}

/-! ## Lengths -/

theorem foldl_square_eq (v : Vector ℤ n) :
    v.toList.foldl (fun s x => s + x.natAbs * x.natAbs) 0 = lengthSquare v.get := by
  have hmap : (v.toList.map fun x => x.natAbs * x.natAbs).foldl (· + ·) 0
      = v.toList.foldl (fun s x => s + x.natAbs * x.natAbs) 0 := List.foldl_map
  rw [← hmap, ← List.sum_eq_foldl, toList_eq_ofFn, List.map_ofFn, List.sum_ofFn, lengthSquare]
  exact Finset.sum_congr rfl fun i _ => (pow_two _).symm

/-- The computed logarithm of a length is half that of its square, and there is none for a vector of
zeros. -/
theorem lengthLog_eq (v : Vector ℤ n) : lengthLog v.toList
    = if lengthSquare v.get = 0 then none else some (div (log2Nat (lengthSquare v.get)) 2) := by
  rw [← foldl_square_eq]
  rfl

/-- The computed logarithm of a length. -/
theorem near_lengthLog {v : Vector ℤ n} (hv : lengthSquare v.get ≠ 0) :
    ∃ l, lengthLog v.toList = some l ∧ 0 ≤ l ∧ Near 1 l (logLength v.get) (logLength v.get) := by
  set s := lengthSquare v.get with hs
  have hlog := abs_log2Nat_sub_le (Nat.pos_of_ne_zero hv)
  set L := logLength v.get with hL
  have hL2 : Real.logb 2 s = 2 * L := by
    rw [hL, logLength]
    ring
  have hLNonneg : 0 ≤ L := logLength_nonneg _
  rw [hL2, abs_le] at hlog
  have hnonneg : 0 ≤ log2Nat s := by
    have : (0 : ℝ) ≤ log2Nat s := by linarith
    exact_mod_cast this
  refine ⟨div (log2Nat s) 2, ?_, round_nonneg (div_nonneg hnonneg zero_le_two), ?_⟩
  · rw [lengthLog_eq, if_neg hv]
  unfold Near
  rw [drift_one]
  have hround := abs_cast_round_sub_le (log2Nat s / 2)
  have hcast : ((log2Nat s / 2 : ℚ) : ℝ) = (log2Nat s : ℝ) / 2 := by push_cast; rfl
  have hhalfNonneg : (0 : ℝ) ≤ (log2Nat s : ℝ) / 2 := by
    rw [← hcast]
    exact_mod_cast div_nonneg hnonneg zero_le_two
  -- The logarithm of 1 is exactly 0; every other one is large enough for a relative error.
  by_cases hone : s = 1
  · have hzero : L = 0 := by
      rw [hL, logLength, ← hs, hone, Nat.cast_one, Real.logb_one, zero_div]
    rw [hzero] at hlog ⊢
    have hexact : log2Nat s = 0 := by
      have : (log2Nat s : ℝ) ≤ 0 := by linarith
      exact le_antisymm (by exact_mod_cast this) hnonneg
    rw [div, hexact, zero_div, round_zero, Rat.cast_zero, sub_self, abs_zero, mul_zero]
  · have hlarge : 1 ≤ 2 * L := by
      rw [← hL2]
      exact_mod_cast le_logb_of_pow_le (t := 1) (x := s) (by omega)
    rw [hcast, abs_of_nonneg hhalfNonneg, abs_le] at hround
    have hdiv : ((div (log2Nat s) 2 : ℚ) : ℝ) = Binary64.round (log2Nat s / 2) := rfl
    rw [hdiv, abs_le]
    push_cast
    constructor
    · linarith
    · linarith

/-! ## Exact bounds -/

namespace SolutionBound

/-- The logarithm of the bound on the denominator, before anything is rounded. -/
noncomputable def exactDenLog (A : Mat n n) : ℝ :=
  min (∑ i, logLength (A.toMatrix.row i)) (∑ j, logLength (A.toMatrix.col j))

/-- The logarithm of the bound on the numerators, before anything is rounded. The logarithm of 0
counts as 0. -/
noncomputable def exactNumLog (A : Mat n n) (b : Fin n → ℤ) : ℝ :=
  ∑ j, logLength (A.toMatrix.col j) - (⨅ j, logLength (A.toMatrix.col j)) + logLength b

/-- What is added up on the way to that logarithm. -/
noncomputable def numSize (A : Mat n n) (b : Fin n → ℤ) : ℝ :=
  ∑ j, logLength (A.toMatrix.col j) + 1 + (⨅ j, logLength (A.toMatrix.col j)) + logLength b

end SolutionBound

open SolutionBound

namespace HadamardBound

theorem least_mem (x : ℚ) (rest : List ℚ) :
    least (x :: rest) ∈ x :: rest ∧ ∀ y ∈ x :: rest, least (x :: rest) ≤ y := by
  induction rest generalizing x with
  | nil => simp [least]
  | cons y rest ih =>
    have hstep : least (x :: y :: rest) = least ((if y < x then y else x) :: rest) := rfl
    rw [hstep]
    by_cases h : y < x
    · rw [if_pos h]
      obtain ⟨hmem, hle⟩ := ih y
      refine ⟨List.mem_cons_of_mem x hmem, ?_⟩
      rw [List.forall_mem_cons]
      exact ⟨(hle y List.mem_cons_self).trans h.le, hle⟩
    · rw [if_neg h]
      obtain ⟨hmem, hle⟩ := ih x
      rw [List.forall_mem_cons] at hle
      refine ⟨?_, ?_⟩
      · rcases List.mem_cons.1 hmem with heq | hmem
        · rw [heq]
          exact List.mem_cons_self
        · exact List.mem_cons_of_mem x (List.mem_cons_of_mem y hmem)
      · rw [List.forall_mem_cons, List.forall_mem_cons]
        exact ⟨hle.1, hle.1.trans (not_lt.1 h), hle.2⟩

/-- The least of some doubles stands for the least of the numbers that they stand for. -/
theorem near_least {ι : Type} {l : List ι} {f : ι → ℚ} {y : ι → ℝ} {m : ℕ} {w : ℝ} {i : ι}
    (hi : i ∈ l) (hle : ∀ j ∈ l, y i ≤ y j) (hf : ∀ j ∈ l, 0 ≤ f j ∧ Near m (f j) (y j) (y j + w))
    (hy : 0 ≤ y i) (hw : 0 ≤ w) :
    Near m (least (l.map f)) (y i) (y i + w) := by
  obtain ⟨hmem, hleast⟩ : least (l.map f) ∈ l.map f ∧ ∀ x ∈ l.map f, least (l.map f) ≤ x := by
    cases l with
    | nil => cases hi
    | cons j₀ rest => exact least_mem (f j₀) (rest.map f)
  obtain ⟨j, hj, heq⟩ := List.mem_map.1 hmem
  -- Below, `j` stands for a larger number than `i`; above, the least is at most `f i`.
  have hlow := (hf j hj).2.sub_le (hf j hj).1 hy (hle j hj) hw
  have hhigh : ((least (l.map f) : ℚ) : ℝ) ≤ f i := by
    exact_mod_cast hleast _ (List.mem_map_of_mem hi)
  have hnear := (abs_le.1 (hf i hi).2).2
  rw [heq] at hlow
  unfold Near
  rw [abs_le]
  exact ⟨by linarith, by linarith⟩

/-- The smaller of two computed sums is near the smaller of the exact ones. -/
theorem near_least_pair {m : ℕ} {x x' : ℚ} {y y' w : ℝ} (h : 0 ≤ x ∧ Near m x y (y + w))
    (h' : 0 ≤ x' ∧ Near m x' y' (y' + w)) (hy : 0 ≤ y) (hy' : 0 ≤ y') (hw : 0 ≤ w) :
    Near m (least [x, x']) (min y y') (min y y' + w) := by
  let f : Bool → ℚ := fun c => cond c x x'
  let v : Bool → ℝ := fun c => cond c y y'
  have hboth : ∀ c ∈ [true, false], 0 ≤ f c ∧ Near m (f c) (v c) (v c + w) := by
    intro c _
    cases c
    · exact h'
    · exact h
  show Near m (least ([true, false].map f)) _ _
  rcases le_total y y' with hle | hle
  · rw [min_eq_left hle]
    have hleast : ∀ c ∈ [true, false], v true ≤ v c := by
      intro c _
      cases c
      · exact hle
      · exact le_rfl
    exact near_least (by simp) hleast hboth hy hw
  · rw [min_eq_right hle]
    have hleast : ∀ c ∈ [true, false], v false ≤ v c := by
      intro c _
      cases c
      · exact le_rfl
      · exact hle
    exact near_least (by simp) hleast hboth hy' hw

/-- Summing `n` numbers makes `n` further roundings, and adds 1 to the size. -/
theorem near_sum_finRange {f : Fin n → ℚ} {y : Fin n → ℝ} {m : ℕ}
    (h : ∀ i, 0 ≤ y i ∧ Near m (f i) (y i) (y i)) :
    Near (m + n) (sum ((List.finRange n).map f)) (∑ i, y i) (∑ i, y i + 1) := by
  have hall : List.Forall₂ (fun x y => 0 ≤ y ∧ Near m x y y) ((List.finRange n).map f)
      ((List.finRange n).map y) := by
    rw [List.forall₂_map_left_iff, List.forall₂_map_right_iff, List.forall₂_same]
    exact fun i _ => h i
  have hsum := (near_sum hall).2
  rwa [List.length_map, List.length_finRange, ← Fin.sum_univ_def] at hsum

/-- The shortest of some lengths; without any it is 0 on both sides. -/
theorem near_least_finRange {f : Fin n → ℚ} {y : Fin n → ℝ} {m : ℕ}
    (h : ∀ i, 0 ≤ y i ∧ 0 ≤ f i ∧ Near m (f i) (y i) (y i)) :
    Near m (least ((List.finRange n).map f)) (⨅ i, y i) (⨅ i, y i) := by
  cases isEmpty_or_nonempty (Fin n) with
  | inl hempty =>
    have hnil : List.finRange n = [] := List.eq_nil_iff_forall_not_mem.2 fun i => hempty.elim i
    rw [hnil, Real.iInf_of_isEmpty]
    exact near_zero m le_rfl
  | inr =>
    obtain ⟨i, hi⟩ := exists_eq_ciInf_of_finite (f := y)
    have hall : ∀ j ∈ List.finRange n, 0 ≤ f j ∧ Near m (f j) (y j) (y j + 0) := by
      intro j _
      rw [add_zero]
      exact (h j).2
    have hleast := near_least (List.mem_finRange i)
      (fun j _ => hi.le.trans (ciInf_le (Finite.bddBelow_range y) j)) hall (h i).1 le_rfl
    rwa [add_zero, hi] at hleast

/-- The logarithms of the lengths of some vectors. -/
theorem exists_lengthLogs {m : ℕ} (v : Fin m → Vector ℤ n) (hv : ∀ i, lengthSquare (v i).get ≠ 0) :
    ∃ logs : Fin m → ℚ, ((List.finRange m).mapM fun i => lengthLog (v i).toList)
        = some ((List.finRange m).map logs) ∧
      ∀ i, 0 ≤ logs i ∧ Near 1 (logs i) (logLength (v i).get) (logLength (v i).get) := by
  choose logs hlogs hnear using fun i => near_lengthLog (hv i)
  refine ⟨logs, ?_, hnear⟩
  simp only [hlogs]
  exact List.mapM_pure

/-- The logarithms computed for a matrix without zero rows and columns. -/
theorem ofMat_eq_ok {A : Mat n n} (hrows : ∀ i, lengthSquare (A.toMatrix.row i) ≠ 0)
    (hcolumns : ∀ j, lengthSquare (A.toMatrix.col j) ≠ 0) :
    ∃ h, ofMat A = .ok h ∧
      Near (n + 1) h.log (exactDenLog A) (exactDenLog A + 1) ∧
      Near (n + 2) h.logOverShortest
        (∑ j, logLength (A.toMatrix.col j) - ⨅ j, logLength (A.toMatrix.col j))
        (∑ j, logLength (A.toMatrix.col j) + 1 + ⨅ j, logLength (A.toMatrix.col j)) := by
  have hcolumn : ∀ j, (A.column j).get = A.toMatrix.col j := fun j =>
    funext fun i => Mat.get_column A j i
  obtain ⟨rs, hrs, hrsNear⟩ := exists_lengthLogs A.row hrows
  obtain ⟨cs, hcs, hcsNear⟩ := exists_lengthLogs A.column fun j => by
    rw [hcolumn]
    exact hcolumns j
  simp only [hcolumn] at hcsNear
  -- One rounding for each logarithm, `n` for a sum of them, and one for the difference.
  have hrowSum := near_sum_finRange fun i => ⟨logLength_nonneg _, (hrsNear i).2⟩
  have hcolumnSum := near_sum_finRange fun j => ⟨logLength_nonneg _, (hcsNear j).2⟩
  have hshortest := near_least_finRange fun j => ⟨logLength_nonneg _, hcsNear j⟩
  rw [add_comm 1 n] at hrowSum hcolumnSum
  refine ⟨⟨least [sum ((List.finRange n).map rs), sum ((List.finRange n).map cs)],
    sub (sum ((List.finRange n).map cs)) (least ((List.finRange n).map cs))⟩, ?_, ?_, ?_⟩
  · unfold ofMat
    rw [hrs, hcs]
  · refine near_least_pair ⟨sum_nonneg ?_, hrowSum⟩ ⟨sum_nonneg ?_, hcolumnSum⟩
      (Finset.sum_nonneg fun i _ => logLength_nonneg _)
      (Finset.sum_nonneg fun j _ => logLength_nonneg _) zero_le_one
    · exact List.forall_mem_map.2 fun i _ => (hrsNear i).1
    · exact List.forall_mem_map.2 fun j _ => (hcsNear j).1
  · have hsum : 0 ≤ ∑ j, logLength (A.toMatrix.col j) :=
      Finset.sum_nonneg fun j _ => logLength_nonneg _
    have hinf : 0 ≤ ⨅ j, logLength (A.toMatrix.col j) :=
      Real.iInf_nonneg fun j => logLength_nonneg _
    have hdifference := hcolumnSum.sub (hshortest.mono hinf (by omega) le_rfl)
    refine hdifference.round ?_ (by linarith)
    rw [abs_le]
    exact ⟨by linarith, by linarith⟩

end HadamardBound

/-! ## Rounded bounds -/

namespace SolutionBound

theorem near_clamp {m : ℕ} {x : ℚ} {y size : ℝ} (h : Near m x y size) (hy : 0 ≤ y) :
    Near m (clamp x) y size := by
  unfold clamp
  split
  next hneg =>
    have hx : (x : ℝ) < 0 := by exact_mod_cast hneg
    refine le_trans ?_ h
    rw [Rat.cast_zero, zero_sub, abs_neg, abs_of_nonneg hy, abs_sub_comm,
      abs_of_nonneg (by linarith)]
    linarith
  next => exact h

/-- The computed logarithm of the right side is one rounding away from the exact one, also for a
right side of zeros. -/
theorem near_rightLog (b : Vector ℤ n) :
    Near 1 (clamp ((lengthLog b.toList).getD 0)) (logLength b.get) (logLength b.get) := by
  refine near_clamp ?_ (logLength_nonneg _)
  by_cases hb : lengthSquare b.get = 0
  · have hlog : logLength b.get = 0 := by
      rw [logLength, hb, Nat.cast_zero, Real.logb_zero, zero_div]
    rw [lengthLog_eq, if_pos hb, hlog]
    exact near_zero 1 le_rfl
  · obtain ⟨l, hl, -, hnear⟩ := near_lengthLog hb
    rw [hl]
    exact hnear

theorem iInf_logLength_le (A : Mat n n) (j : Fin n) :
    ⨅ k, logLength (A.toMatrix.col k) ≤ logLength (A.toMatrix.col j) :=
  ciInf_le (Finite.bddBelow_range _) j

theorem exactNumLog_nonneg (A : Mat n n) (b : Fin n → ℤ) : 0 ≤ exactNumLog A b := by
  refine add_nonneg (sub_nonneg.2 ?_) (logLength_nonneg b)
  cases isEmpty_or_nonempty (Fin n) with
  | inl => rw [Real.iInf_of_isEmpty, Finset.univ_eq_empty, Finset.sum_empty]
  | inr h =>
    obtain ⟨j⟩ := h
    exact (iInf_logLength_le A j).trans
      (Finset.single_le_sum (fun k _ => logLength_nonneg _) (Finset.mem_univ j))

/-- A nonsingular matrix has bounds, and their logarithms are near the exact ones. -/
theorem ofSystem_eq_ok {A : Mat n n} (hdet : A.toMatrix.det ≠ 0) (b : Vector ℤ n) :
    ∃ bound, ofSystem A b.toList = .ok bound ∧
      Near (n + 1) bound.denLog (exactDenLog A) (exactDenLog A + 1) ∧
      Near (n + 3) bound.numLog (exactNumLog A b.get) (numSize A b.get) := by
  -- Hadamard's inequality excludes zero rows and columns.
  have hsquare : 0 < A.toMatrix.det.natAbs ^ 2 := pow_pos (Int.natAbs_pos.2 hdet) 2
  have hrows := Finset.prod_ne_zero_iff.1 (hsquare.trans_le (sq_det_le_prod_rows _)).ne'
  have hcolumns := Finset.prod_ne_zero_iff.1 (hsquare.trans_le (sq_det_le_prod_columns _)).ne'
  obtain ⟨h, hok, hlog, hover⟩ := HadamardBound.ofMat_eq_ok
    (fun i => hrows i (Finset.mem_univ i)) fun j => hcolumns j (Finset.mem_univ j)
  have hsum : 0 ≤ ∑ j, logLength (A.toMatrix.col j) :=
    Finset.sum_nonneg fun j _ => logLength_nonneg _
  have hinf : 0 ≤ ⨅ j, logLength (A.toMatrix.col j) := Real.iInf_nonneg fun j => logLength_nonneg _
  have hright := logLength_nonneg b.get
  refine ⟨ofHadamard h b.toList, Outcome.bind_eq_ok.2 ⟨h, hok, rfl⟩, ?_, ?_⟩
  · refine near_clamp hlog (le_min ?_ hsum)
    exact Finset.sum_nonneg fun i _ => logLength_nonneg _
  · have hadd := hover.add ((near_rightLog b).mono hright (by omega) le_rfl)
    have hexact : 0 ≤ ∑ j, logLength (A.toMatrix.col j)
        - (⨅ j, logLength (A.toMatrix.col j)) + logLength b.get := exactNumLog_nonneg A b.get
    refine near_clamp (hadd.round ?_ (by linarith)) hexact
    rw [abs_of_nonneg hexact]
    linarith

/-! ## Admitted solutions -/

/-- No whole number that a computed logarithm is rounded up to lies below the exact one. -/
def Reaches (computed : ℚ) (exact : ℝ) : Prop := ¬ ∃ k : ℕ, computed ≤ k ∧ (k : ℝ) < exact

/-- A logarithm that reaches another one reaches all smaller ones. -/
theorem Reaches.mono {computed : ℚ} {exact exact' : ℝ} (h : Reaches computed exact)
    (hle : exact' ≤ exact) : Reaches computed exact' :=
  fun ⟨k, hk, hlt⟩ => h ⟨k, hk, hlt.trans_le hle⟩

/-- Exact logarithms that are not just above a whole number leave room for all roundings. -/
theorem reaches_of_near {m : ℕ} {computed : ℚ} {exact size : ℝ} (h : Near m computed exact size)
    (hroom : ∀ k : ℕ, (k : ℝ) < exact → k < exact - drift m * size) : Reaches computed exact := by
  rintro ⟨k, hk, hlt⟩
  have hkReal : (computed : ℝ) ≤ k := by exact_mod_cast hk
  have hlow := (abs_le.1 h).1
  have := hroom k hlt
  linarith

/-- The power of two above a computed logarithm bounds a size if and only if the computed logarithm
reaches the exact one. -/
theorem le_powerAbove_iff {log : ℚ} {size : ℕ} :
    size ≤ powerAbove log ↔ Reaches log (Real.logb 2 size) := by
  have hceil : ∀ k : ℕ, log ≤ k ↔ log.ceil.toNat ≤ k := by
    intro k
    rw [Int.toNat_le, Rat.ceil_le_iff, Int.cast_natCast]
  constructor
  · rintro h ⟨k, hk, hlt⟩
    have hpow : size ≤ 2 ^ k := h.trans (Nat.pow_le_pow_right two_pos ((hceil k).1 hk))
    have hle := logb_natCast_le_logb hpow
    rw [Nat.cast_pow, Nat.cast_ofNat, logb_two_pow] at hle
    exact absurd hlt (not_lt.2 hle)
  · intro h
    by_contra hlarge
    refine h ⟨log.ceil.toNat, (hceil _).2 le_rfl, ?_⟩
    rw [← logb_two_pow]
    refine Real.logb_lt_logb one_lt_two (by positivity) ?_
    exact_mod_cast not_le.1 hlarge

/-- The least common denominator of some fractions. -/
def commonDenominator (x : Fin n → ℚ) : ℕ := Finset.univ.lcm fun i => (x i).den

section Solution

variable {A : Mat n n} {b : Vector ℤ n} {x : Fin n → ℚ}

/-- Hadamard's inequality for the least common denominator. -/
theorem logb_denominator_le (hdet : A.toMatrix.det ≠ 0)
    (hx : ∀ i, ∑ j, (A.entry i j : ℚ) * x j = b.get i) :
    Real.logb 2 (commonDenominator x) ≤ exactDenLog A := by
  have hdvd : commonDenominator x ∣ A.toMatrix.det.natAbs :=
    Finset.lcm_dvd fun i _ => Int.natCast_dvd.1 (Cramer.den_dvd_det (A := A.toMatrix) hx i)
  have hle := logb_natCast_le_logb (Nat.le_of_dvd (Int.natAbs_pos.2 hdet) hdvd)
  exact hle.trans (le_min (logb_det_le_sum_rows hdet) (logb_det_le_sum_columns hdet))

/-- Hadamard's inequality for the numerators. -/
theorem logb_numerator_le (hdet : A.toMatrix.det ≠ 0)
    (hx : ∀ i, ∑ j, (A.entry i j : ℚ) * x j = b.get i) (i : Fin n) :
    Real.logb 2 (x i).num.natAbs ≤ exactNumLog A b.get := by
  by_cases hnum : (x i).num = 0
  · rw [hnum, Int.natAbs_zero, Nat.cast_zero, Real.logb_zero]
    exact exactNumLog_nonneg A b.get
  · have hcramer : A.toMatrix.cramer b.get i ≠ 0 := by
      intro hzero
      have hproduct := Cramer.det_mul_num_eq (A := A.toMatrix) hx i
      rw [hzero, zero_mul] at hproduct
      exact mul_ne_zero hdet hnum hproduct
    have hle : (x i).num.natAbs ≤ (A.toMatrix.cramer b.get i).natAbs :=
      Nat.le_of_dvd (Int.natAbs_pos.2 hcramer)
        (Int.natAbs_dvd_natAbs.2 (Cramer.num_dvd_cramer (A := A.toMatrix) hx i))
    have hlog := (logb_natCast_le_logb hle).trans (logb_cramer_le hcramer)
    have hshortest := iInf_logLength_le A i
    unfold exactNumLog
    linarith

/-- The bounds admit the solution of every system whose exact logarithms are not just above a whole
number. -/
theorem ofSystem_admits (hdet : A.toMatrix.det ≠ 0)
    (hx : ∀ i, ∑ j, (A.entry i j : ℚ) * x j = b.get i)
    (hden : ∀ k : ℕ, (k : ℝ) < exactDenLog A →
      k < exactDenLog A - drift (n + 1) * (exactDenLog A + 1))
    (hnum : ∀ k : ℕ, (k : ℝ) < exactNumLog A b.get →
      k < exactNumLog A b.get - drift (n + 3) * numSize A b.get) :
    ∃ bound, ofSystem A b.toList = .ok bound ∧ commonDenominator x ≤ bound.denBound ∧
      ∀ i, (x i).num.natAbs ≤ bound.numBound := by
  obtain ⟨bound, hok, hdenNear, hnumNear⟩ := ofSystem_eq_ok hdet b
  refine ⟨bound, hok, ?_, fun i => ?_⟩
  · apply le_powerAbove_iff.2
    exact (reaches_of_near hdenNear hden).mono (logb_denominator_le hdet hx)
  · apply le_powerAbove_iff.2
    exact (reaches_of_near hnumNear hnum).mono (logb_numerator_le hdet hx i)

/-- A nonsingular system has bounds. They admit the solution unless the logarithm computed for a
bound was rounded to or below a whole number that the logarithm of the denominator or of a numerator
exceeds. These are at most the exact logarithms of the bounds, and the computed logarithms are near
the exact ones. -/
theorem ofSystem_admits_iff (hdet : A.toMatrix.det ≠ 0)
    (hx : ∀ i, ∑ j, (A.entry i j : ℚ) * x j = b.get i) :
    ∃ bound, ofSystem A b.toList = .ok bound ∧
      (commonDenominator x ≤ bound.denBound ∧
          (∀ i, (x i).num.natAbs ≤ bound.numBound) ↔
        Reaches bound.denLog (Real.logb 2 (commonDenominator x)) ∧
          ∀ i, Reaches bound.numLog (Real.logb 2 (x i).num.natAbs)) ∧
      Real.logb 2 (commonDenominator x) ≤ exactDenLog A ∧
      (∀ i, Real.logb 2 (x i).num.natAbs ≤ exactNumLog A b.get) ∧
      Near (n + 1) bound.denLog (exactDenLog A) (exactDenLog A + 1) ∧
      Near (n + 3) bound.numLog (exactNumLog A b.get) (numSize A b.get) := by
  obtain ⟨bound, hok, hden, hnum⟩ := ofSystem_eq_ok hdet b
  refine ⟨bound, hok, ?_, logb_denominator_le hdet hx, logb_numerator_le hdet hx, hden, hnum⟩
  exact and_congr le_powerAbove_iff (forall_congr' fun i => le_powerAbove_iff)

/-- The bounds of `2 x + y = 3`, `x + 3 y = 5` admit its solution `4 / 5`, `7 / 5`. -/
theorem ofSystem_admits_iff_two_unknowns :
    (⟨#v[#v[2, 1], #v[1, 3]]⟩ : Mat 2 2).toMatrix.det ≠ 0 ∧
      ∃ bound, ofSystem (⟨#v[#v[2, 1], #v[1, 3]]⟩ : Mat 2 2) [3, 5] = .ok bound ∧
        Reaches bound.denLog (Real.logb 2 (5 : ℕ)) ∧
        Reaches bound.numLog (Real.logb 2 (7 : ℕ)) := by
  have hdet : (⟨#v[#v[2, 1], #v[1, 3]]⟩ : Mat 2 2).toMatrix.det ≠ 0 := by
    rw [Matrix.det_fin_two]
    decide
  have hsolves : ∀ i, ∑ j, ((⟨#v[#v[2, 1], #v[1, 3]]⟩ : Mat 2 2).entry i j : ℚ) * ![4 / 5, 7 / 5] j
      = (#v[3, 5] : Vector ℤ 2).get i := by
    intro i
    fin_cases i <;> simp [Fin.sum_univ_two, Mat.entry, Vector.get] <;> norm_num
  have hbound : (ofSystem (⟨#v[#v[2, 1], #v[1, 3]]⟩ : Mat 2 2) [3, 5]).map
      (fun bound => (bound.numBound, bound.denBound)) = .ok (32, 8) := by decide +kernel
  have hden : commonDenominator ![4 / 5, 7 / 5] = 5 := by decide +kernel
  have hnum : ∀ i, (![(4 : ℚ) / 5, 7 / 5] i).num.natAbs = ![4, 7] i := by decide +kernel
  obtain ⟨bound, hok, hiff, -⟩ := ofSystem_admits_iff hdet hsolves
  obtain ⟨bound', hok', heq⟩ := Outcome.map_eq_ok.1 hbound
  obtain rfl : bound = bound' := Except.ok.inj (hok.symm.trans hok')
  rw [Prod.mk.injEq] at heq
  obtain ⟨hreachesDen, hreachesNum⟩ := hiff.1 (by
    rw [hden, heq.1, heq.2]
    refine ⟨by decide, fun i => ?_⟩
    rw [hnum]
    fin_cases i <;> decide)
  rw [hden] at hreachesDen
  have hsecond := hreachesNum 1
  rw [hnum] at hsecond
  exact ⟨hdet, bound, hok, hreachesDen, hsecond⟩

end Solution

/-! ## A bound that is too small -/

/-- A matrix with orthogonal rows, whose determinant `2 ^ 60 + 1` is rounded to a power of two. -/
def nearPower : Mat 2 2 := ⟨#v[#v[2 ^ 30, 1], #v[-1, 2 ^ 30]]⟩

/-- Its solution for the right side `1`, `0`. -/
def nearPowerSolution : Fin 2 → ℚ := ![2 ^ 30 / (2 ^ 60 + 1), 1 / (2 ^ 60 + 1)]

/-- The denominator bound of this system is below the common denominator `2 ^ 60 + 1` of its
solution, as the computed logarithm of Hadamard's bound is 60. -/
theorem denBound_nearPower_lt :
    nearPower.toMatrix.det ≠ 0 ∧
      (∀ i, ∑ j, (nearPower.entry i j : ℚ) * nearPowerSolution j = (#v[1, 0] : Vector ℤ 2).get i) ∧
      ∃ bound, ofSystem nearPower [1, 0] = .ok bound ∧
        bound.denBound < commonDenominator nearPowerSolution := by
  refine ⟨?_, ?_, ⟨30, 60⟩, ?_, ?_⟩
  · rw [Matrix.det_fin_two]
    decide
  · intro i
    fin_cases i <;>
      simp [nearPower, nearPowerSolution, Fin.sum_univ_two, Mat.entry, Vector.get] <;> norm_num
  · decide +kernel
  · decide +kernel

end SolutionBound
end PadicLift
