import Mathlib.Algebra.BigOperators.Field
import PadicLift.Log.Journal
import PadicLift.Proofs.Lifting.Refinement
import PadicLift.Proofs.Reconstruction.Expansion
import PadicLift.Proofs.Reconstruction.Fraction
import PadicLift.Proofs.System

/-!
# The check of a solution decides

A solution is compared with its system only as far as both sides have entries. That is enough,
because whatever a solve returns for a system of integers has one numerator for every unknown and a
positive denominator (`Solution.HasShape`), and the right side has an entry for every equation. So
the check passes exactly if the fractions solve the system, whether or not the size bounds of the
plan admitted the solution.
-/

namespace PadicLift

variable {n : ℕ} {a b : Nested} {x : Solution}

/-- The fractions solve the system that the nested lists hold: a square matrix row by row, and a
right side with an entry for every row. -/
def IsSolvedBy (a b : Nested) (xs : List ℚ) : Prop :=
  ∃ (n : ℕ) (A : Mat n n) (v : Fin n → ℤ) (u : Fin n → ℚ), a = .ofMat A ∧ b.toList = List.ofFn v ∧
    xs = List.ofFn u ∧ ∀ i, ∑ j, (A.entry i j : ℚ) * u j = v i

/-- A list of fractions solves the lists of a system exactly if it solves the system. -/
theorem LinearSystem.IsIn.isSolvedBy_iff {L : LinearSystem n} (hL : L.IsIn a b) {u : Fin n → ℚ} :
    IsSolvedBy a b (List.ofFn u)
      ↔ ∀ i, ∑ j, (L.matrix.entry i j : ℚ) * u j = L.right.get i := by
  constructor
  · rintro ⟨m, A, v, w, ha, hb, hu, h⟩
    have hsize : n = m := by
      have := congrArg List.length hu
      rwa [List.length_ofFn, List.length_ofFn] at this
    subst hsize
    have hmatrix : L.matrix = A := by
      rw [← Nested.readMat_ofMat L.matrix, ← hL.matrix_eq, ha, Nested.readMat_ofMat]
    have hright : L.right.get = v := by
      rw [hL.right_eq, toList_eq_ofFn] at hb
      exact List.ofFn_injective hb
    rw [hmatrix, hright, List.ofFn_injective hu]
    exact h
  · intro h
    refine ⟨n, L.matrix, L.right.get, u, hL.matrix_eq, ?_, rfl, h⟩
    rw [hL.right_eq, toList_eq_ofFn]

namespace Solution

/-! ## The shape of a solution -/

/-- There are `n` numerators over a positive denominator. -/
structure HasShape (n : ℕ) (x : Solution) : Prop where
  length_eq : x.numerators.length = n
  denominator_pos : 0 < x.denominator

section Runs

variable {ρ σ : Type} {observe : Observer σ} {next : ρ → Except Fault (Step ρ)}

/-- Every step emits a digit for each of `n` positions. -/
def EmitsSize (n : ℕ) (next : ρ → Except Fault (Step ρ)) : Prop :=
  ∀ run taken, next run = .ok taken → ∀ digit ∈ taken.digits, digit.length = n

/-- An accumulator keeps its size, whatever the observer does. -/
theorem hasSize_of_collect (hnext : EmitsSize n next) {fuel : ℕ} {run : ρ}
    {acc after : Accumulator} {s s' : σ}
    (h : collect observe next fuel run acc s = (.ok after, s')) (hacc : acc.HasSize n) :
    after.HasSize n := by
  induction fuel generalizing run acc s with
  | zero =>
    cases h
    exact hacc
  | succ fuel ih =>
    unfold collect at h
    split at h
    · cases h
    next taken htaken =>
      dsimp only at h
      split at h
      · cases h
      · split at h
        · cases h
        next advanced hadd =>
          exact ih h (hacc.add hadd (hnext run taken htaken))

/-- Vectors of size `n` become a solution with `n` numerators. -/
theorem hasShape_of_ofDigits {plan : Plan n} {acc : Accumulator} (hacc : acc.HasSize n)
    (h : ofDigits plan acc = .ok x) : x.HasShape n := by
  obtain ⟨⟨ys, modulus⟩, hcombined, h⟩ := Outcome.bind_eq_ok.1 h
  obtain ⟨common, hcommon, h⟩ := Outcome.bind_eq_ok.1 h
  cases h
  obtain ⟨hlength, hpos⟩ := Fraction.ofResidues_shape hcommon
  exact ⟨hlength.trans (hacc.length_of_combined hcombined), Int.natCast_pos.2 hpos⟩

theorem hasShape_of_ofRun (hnext : EmitsSize n next) {plan : Plan n} {start : Except Fault ρ}
    {s : σ} (h : (ofRun observe next plan start s).1 = .ok x) : x.HasShape n := by
  unfold ofRun at h
  split at h
  · cases h
  · dsimp only at h
    split at h
    · cases h
    next acc _ hcollect =>
      exact hasShape_of_ofDigits
        (hasSize_of_collect hnext hcollect (Accumulator.hasSize_start _ n)) h

theorem emitsSize_step (n l : ℕ) : EmitsSize n (step : Run n l → _) := by
  intro run taken h
  unfold step at h
  split at h
  · cases h
  next digits _ _ =>
    cases h
    intro digit hdigit
    obtain ⟨v, -, rfl⟩ := List.mem_map.1 hdigit
    exact v.length_toList

/-- What is returned for nested lists of integers is meant for a system that they hold. -/
theorem exists_isIn_of_solveWith (ha : a.IsIntegral) (hb : b.IsIntegral) {settings : Settings}
    {choice : Selection.Choice} {supplied : List (ℤ × Nested)} {supply : Supply} {s : σ}
    (h : (solveWith observe a b settings choice supplied supply s).1 = .ok x) :
    ∃ (n : ℕ) (L : LinearSystem n), L.IsIn a b ∧ x.HasShape n := by
  unfold solveWith at h
  split at h
  · cases h
  next S hread =>
    split at h
    · cases h
    next plan after hplan =>
      -- Integers are read as such or not at all, so no other run than that over integers returns.
      dsimp only at h
      split at h
      next L hL =>
        exact ⟨S.size, L, SomeSystem.isIn_of_read hread hL,
          hasShape_of_ofRun (emitsSize_step S.size _) h⟩
      next M hM => exact absurd hM (SomeSystem.contents_ne_numbers ha hb hread M)
      · cases h

end Runs

/-! ## The check -/

/-- The check passes exactly if the equations hold for which there is a right side. -/
theorem check_eq_true_iff_compared {m : ℕ} {A : Mat m n} {b : List ℤ} {u : Vector ℤ n} {d : ℤ} :
    check A b u d = true ↔
      ∀ (i : Fin m) (v : ℤ), b[i.val]? = some v → ∑ j, A.entry i j * u.get j = v * d := by
  have hproduct : ∀ i, (A.mulVec u).get i = ∑ j, A.entry i j * u.get j := fun i =>
    Mat.get_mulVec A u i
  rw [check, toList_eq_ofFn, List.all_eq_true]
  simp only [← hproduct]
  constructor
  · intro h i v hv
    obtain ⟨hi, rfl⟩ := List.getElem?_eq_some_iff.1 hv
    have hpair := h ((A.mulVec u).get i, b[i.val]) (by
      rw [List.mem_iff_getElem]
      exact ⟨i, by simp [hi], by simp⟩)
    exact eq_of_beq hpair
  · intro h pair hpair
    obtain ⟨i, hi, rfl⟩ := List.mem_iff_getElem.1 hpair
    rw [List.length_zip, List.length_ofFn, lt_min_iff] at hi
    simp [h ⟨i, hi.1⟩ b[i] (List.getElem?_eq_getElem hi.2)]

/-- The check passes exactly if the equations hold. -/
theorem check_eq_true_iff {A : Mat n n} {v u : Vector ℤ n} {d : ℤ} :
    check A v.toList u d = true ↔ ∀ i, ∑ j, A.entry i j * u.get j = v.get i * d := by
  rw [check_eq_true_iff_compared, toList_eq_ofFn]
  simp

/-- The fractions of a solution. -/
theorem HasShape.fractions_eq (hx : x.HasShape n) : x.fractions = .ok (List.ofFn fun i =>
    ((Nested.toVector x.numerators n).get i : ℚ) / (x.denominator : ℚ)) := by
  have hne := hx.denominator_pos.ne'
  have hnumerators : x.numerators = List.ofFn (Nested.toVector x.numerators n).get := by
    rw [← toList_eq_ofFn, Nested.toList_toVector hx.length_eq]
  unfold fractions
  rw [if_neg fun h => hne h.1]
  conv_lhs => rw [hnumerators, List.map_ofFn]
  rfl

/-- A matrix with rows and columns is compared with a right side of any shape. -/
theorem HasShape.fits_ofMat (hx : x.HasShape n) {m : ℕ} (hm : 0 < m) (hn : 0 < n) (A : Mat m n)
    (hb : b.isRegular = true) : fits (.ofMat A) b x
      = .ok (check A b.toList (Nested.toVector x.numerators n) x.denominator) := by
  unfold fits
  rw [Nested.shape_ofMat hm hn]
  dsimp only
  rw [if_pos ⟨Nested.isRegular_ofMat hm hn A, hb, hx.length_eq.symm⟩, Nested.readMat_ofMat]

/-- An equation over the common denominator is one between fractions. -/
theorem HasShape.sum_mul_div_eq_iff (hx : x.HasShape n) (r u : Fin n → ℤ) (v : ℤ) :
    ∑ j, (r j : ℚ) * ((u j : ℚ) / x.denominator) = v ↔ ∑ j, r j * u j = v * x.denominator := by
  have hne : (x.denominator : ℚ) ≠ 0 := Int.cast_ne_zero.2 hx.denominator_pos.ne'
  have hsum : ∑ j, (r j : ℚ) * ((u j : ℚ) / x.denominator)
      = (∑ j, r j * u j : ℤ) / (x.denominator : ℚ) := by
    push_cast
    rw [Finset.sum_div]
    exact Finset.sum_congr rfl fun j _ => (mul_div_assoc _ _ _).symm
  rw [hsum, div_eq_iff hne]
  exact_mod_cast Iff.rfl

/-- The check of a solution has a result, and passes exactly if the fractions solve the system. -/
theorem HasShape.exists_fits (hx : x.HasShape n) {L : LinearSystem n} (hL : L.IsIn a b) :
    ∃ passed xs, fits a b x = .ok passed ∧ x.fractions = .ok xs ∧
      (passed = true ↔ IsSolvedBy a b xs) := by
  have hfits := hx.fits_ofMat hL.pos hL.pos L.matrix hL.right_isRegular
  rw [← hL.matrix_eq, hL.right_eq] at hfits
  refine ⟨_, _, hfits, hx.fractions_eq, ?_⟩
  rw [check_eq_true_iff, hL.isSolvedBy_iff]
  exact forall_congr' fun i => (hx.sum_mul_div_eq_iff _ _ _).symm

end Solution
end PadicLift
