import PadicLift.Lifting.Run
import PadicLift.Proofs.Lifting.Reference
import PadicLift.Proofs.Residue.Planes

/-!
# A run takes the exact steps

A run that is set up from a plan for its system (`Run.IsSetUp`) finds in residues what the lift in
exact integers finds. An exact correction is at most `n` times the largest entry of the matrix, so
it lies in the balanced range of the basis and is decoded as it is (`entry_corrections`). Hence no
check fails, and after `t` steps the residuals are those after `t` exact digits (`IsAfter`).
-/

namespace PadicLift

variable {n l : ℕ}

/-! ## Exact corrections -/

namespace Reference

/-- The part of the next residual that is not the quotient of the residual. -/
def correctionOf (A B : Mat n n) (p : ℕ) (r : Vector ℤ n) (i : Fin n) : ℤ :=
  (residualOf A B p r).get i - r.get i / p

section Correction

variable {A B : Mat n n} {p : ℕ} (hc : (Channel.mk p B).IsFor A) (r : Vector ℤ n) (i : Fin n)

include hc

/-- The prime times the correction is the remainder less the product with the digit, exactly. -/
theorem mul_correctionOf :
    p * correctionOf A B p r i = r.get i % p - (A.mulVec (digitOf B p r)).get i := by
  rw [correctionOf, mul_sub, mul_residualOf hc, Int.emod_def]
  ring

/-- The product of the matrix and a digit. -/
theorem abs_mulVec_digitOf_le :
    |(A.mulVec (digitOf B p r)).get i| ≤ n * A.maxAbs * ((p : ℤ) - 1) := by
  have hterm : ∀ t ∈ Finset.univ, |A.entry i t * (digitOf B p r).get t|
      ≤ A.maxAbs * ((p : ℤ) - 1) := by
    intro t _
    have hentry := A.natAbs_entry_le_maxAbs i t
    have hnonneg := (isBase_of_isFor hc).digitOf_nonneg r t
    have hlt := (isBase_of_isFor hc).digitOf_lt r t
    rw [abs_mul, abs_of_nonneg hnonneg, Int.abs_eq_natAbs]
    exact mul_le_mul (by omega) (by omega) hnonneg (by omega)
  rw [Mat.get_mulVec]
  calc _ ≤ ∑ t, |A.entry i t * (digitOf B p r).get t| := Finset.abs_sum_le_sum_abs _ _
    _ ≤ Finset.univ.card • (A.maxAbs * ((p : ℤ) - 1)) := Finset.sum_le_card_nsmul _ _ _ hterm
    _ = n * A.maxAbs * ((p : ℤ) - 1) := by
        rw [Finset.card_univ, Fintype.card_fin, nsmul_eq_mul, mul_assoc]

/-- Corrections are at most `n` times the largest entry of the matrix. -/
theorem abs_correctionOf_le : |correctionOf A B p r i| ≤ n * A.maxAbs := by
  have hp : 0 < p := hc.prime.pos
  have hbound : (0 : ℤ) ≤ n * A.maxAbs := by positivity
  have hremainder : |r.get i % p| ≤ (p : ℤ) - 1 := by
    have := Machine.abs_emod_lt (r.get i) (q := (p : ℤ)) (by omega)
    omega
  have hproduct := abs_mulVec_digitOf_le hc r i
  have hsum : (p : ℤ) * |correctionOf A B p r i| ≤ (1 + n * A.maxAbs) * (p - 1) := by
    calc (p : ℤ) * |correctionOf A B p r i| = |p * correctionOf A B p r i| := by
          rw [abs_mul, Nat.abs_cast]
      _ ≤ |r.get i % p| + |(A.mulVec (digitOf B p r)).get i| := by
          rw [mul_correctionOf hc]
          exact abs_sub _ _
      _ ≤ (p - 1) + n * A.maxAbs * (p - 1) := add_le_add hremainder hproduct
      _ = (1 + n * A.maxAbs) * (p - 1) := by ring
  -- One more than the bound would be too large, as `p - 1 < p`.
  by_contra hlt
  rw [not_le] at hlt
  have hmul : (p : ℤ) * (1 + n * A.maxAbs) ≤ p * |correctionOf A B p r i| :=
    mul_le_mul_of_nonneg_left (by omega) (by omega)
  linarith

end Correction

end Reference

namespace Run

open Reference

/-! ## The state of a run -/

/-- The run was set up from a plan for its system. -/
structure IsSetUp (run : Run n l) : Prop where
  plan_for : run.plan.IsFor run.system
  basis_wellFormed : run.basis.WellFormed
  residues_eq : run.residues = run.basis.encodeMat run.system.matrix
  table_residue : ∀ h j, |run.table.entry h j| < run.basis.moduli.get h
  table_inverse : ∀ h j,
    run.table.entry h j * run.primes.get j ≡ 1 [ZMOD run.basis.moduli.get h]
  channel_for : ∀ j,
    (Channel.mk (run.primes.get j) (run.inverses.get j)).IsFor run.system.matrix
  prime_lt : ∀ h j, run.primes.get j < run.basis.moduli.get h
  covers : 2 * (n * run.plan.norm + 1) < run.basis.product
  is_open : run.isOpen = true

variable {run : Run n l}

theorem get_remainders (hrun : run.IsSetUp) (j : Fin l) (i : Fin n) :
    (run.remainders.get j).get i = (run.residuals.get j).get i % run.primes.get j := by
  have hp : 0 < run.primes.get j := (hrun.channel_for j).prime.pos
  rw [remainders, get_ofFn, get_map, Int.fmod_eq_emod_of_nonneg _ (by omega)]

theorem get_digits (j : Fin l) :
    run.digits.get j = digitOf (run.inverses.get j) (run.primes.get j) (run.residuals.get j) := by
  rw [digits, get_ofFn, remainders, get_ofFn, digitOf]

/-! ## The corrections of a step -/

theorem areResidues_spread {b : Basis} {columns : Vector (Vector ℤ n) l}
    (h : ∀ g j i, |(columns.get j).get i| < b.moduli.get g) : b.AreResidues (b.spread columns) := by
  intro g i j
  rw [Basis.spread, get_replicate, Mat.entry_ofColumns]
  exact h g j i

theorem areResidues_spread_remainders (hrun : run.IsSetUp) :
    run.basis.AreResidues (run.basis.spread run.remainders) := by
  refine areResidues_spread fun g j i => ?_
  have hp : 0 < run.primes.get j := (hrun.channel_for j).prime.pos
  have hlt : run.primes.get j < run.basis.moduli.get g := hrun.prime_lt g j
  rw [get_remainders hrun]
  exact (Machine.abs_emod_lt _ (by omega)).trans (by omega)

theorem areResidues_spread_digits (hrun : run.IsSetUp) :
    run.basis.AreResidues (run.basis.spread run.digits) := by
  refine areResidues_spread fun g j i => ?_
  have hlt : run.primes.get j < run.basis.moduli.get g := hrun.prime_lt g j
  have hbase := isBase_of_isFor (hrun.channel_for j)
  rw [get_digits, abs_of_nonneg (hbase.digitOf_nonneg _ i)]
  exact (hbase.digitOf_lt _ i).trans (by omega)

theorem areResidues_residues (hrun : run.IsSetUp) : run.basis.AreResidues run.residues := by
  rw [hrun.residues_eq]
  exact hrun.basis_wellFormed.areResidues_encodeMat _

/-- The product of a step holds the residues of the corrections times their primes. -/
theorem entry_product_modEq (hrun : run.IsSetUp) (i : Fin n) (j : Fin l)
    (g : Fin run.basis.size) :
    ((run.basis.multiply (run.basis.spread run.remainders) run.residues
        (run.basis.spread run.digits) (-1) 1).get g).entry i j
      ≡ run.primes.get j * correctionOf run.system.matrix (run.inverses.get j) (run.primes.get j)
        (run.residuals.get j) i [ZMOD run.basis.moduli.get g] := by
  rw [hrun.basis_wellFormed.entry_multiply (-1) 1 g i j (areResidues_spread_remainders hrun)
    (areResidues_residues hrun) (areResidues_spread_digits hrun),
    mul_correctionOf (hrun.channel_for j), Mat.get_mulVec]
  refine (Int.mod_modEq _ _).trans ?_
  simp only [Basis.spread, get_replicate, Mat.entry_ofColumns]
  rw [one_mul, neg_one_mul, ← sub_eq_add_neg, get_remainders hrun, get_digits]
  refine Int.ModEq.sub_left _ (Int.ModEq.sum fun t _ => Int.ModEq.mul_right _ ?_)
  rw [hrun.residues_eq, Basis.entry_encodeMat]
  exact Int.mod_modEq _ _

/-- The corrections decoded from residues are the exact ones. -/
theorem entry_corrections (hrun : run.IsSetUp) (i : Fin n) (j : Fin l) :
    (run.corrections run.remainders run.digits).entry i j
      = correctionOf run.system.matrix (run.inverses.get j) (run.primes.get j)
          (run.residuals.get j) i := by
  set e := correctionOf run.system.matrix (run.inverses.get j) (run.primes.get j)
    (run.residuals.get j) i
  have hb := hrun.basis_wellFormed
  -- Scaling by the inverse of the prime in every plane divides the product by it.
  have hscaled : ∀ g, ((run.basis.scale (run.basis.multiply (run.basis.spread run.remainders)
      run.residues (run.basis.spread run.digits) (-1) 1) run.table).get g).entry i j
      ≡ e [ZMOD run.basis.moduli.get g] := by
    intro g
    have hentry := hb.entry_scale (hb.areResidues_multiply (-1) 1
      (areResidues_spread_remainders hrun) (areResidues_residues hrun)
      (areResidues_spread_digits hrun)) hrun.table_residue g i j
    have hrearranged : run.primes.get j * e * run.table.entry g j
        = e * (run.table.entry g j * run.primes.get j) := by ring
    refine hentry.trans (((entry_product_modEq hrun i j g).mul_right _).trans ?_)
    rw [hrearranged]
    simpa using (hrun.table_inverse g j).mul_left e
  rw [corrections, correctionsFor, hb.entry_decodeMat_eq hscaled]
  -- The basis covers every correction, so its balanced residue is the correction itself.
  have hle := abs_correctionOf_le (hrun.channel_for j) (run.residuals.get j) i
  rw [← hrun.plan_for.norm_eq] at hle
  have hcovers : (2 * (n * run.plan.norm + 1) : ℤ) < run.basis.product := by
    exact_mod_cast hrun.covers
  rw [abs_le] at hle
  exact Basis.balanceIn_eq_self (by omega) (by omega)

/-- The corrections that the planes give are the exact ones. -/
theorem get_column_corrections (hrun : run.IsSetUp) (j : Fin l) (i : Fin n) :
    ((run.corrections run.remainders run.digits).column j).get i
      = correctionOf run.system.matrix (run.inverses.get j) (run.primes.get j)
        (run.residuals.get j) i := by
  rw [Mat.get_column]
  exact entry_corrections hrun i j

/-! ## The checks of a step -/

/-- An exact correction passes the check of its size, -/
theorem checkSize_eq_ok (hrun : run.IsSetUp) (j : Fin l) :
    run.checkSize (run.primes.get j) ((run.corrections run.remainders run.digits).column j)
      = .ok () := by
  have hworst : ((run.corrections run.remainders run.digits).column j).toList.foldl
      (fun s v => max s v.natAbs) 0 ≤ run.correctionBound := by
    apply foldl_max_le (Nat.zero_le _)
    intro v hv
    obtain ⟨i, rfl⟩ := mem_toList_iff.1 hv
    have hle := abs_correctionOf_le (hrun.channel_for j) (run.residuals.get j) i
    rw [← hrun.plan_for.norm_eq] at hle
    rw [get_column_corrections hrun, correctionBound]
    zify
    omega
  unfold checkSize
  split
  · dsimp only
    rw [if_neg (not_lt.2 hworst)]
    rfl
  · rfl

/-- The exact difference is the correction times its prime. -/
theorem get_exact (hrun : run.IsSetUp) (j : Fin l) (i : Fin n) :
    (run.exact (run.remainders.get j) (run.digits.get j)).get i = run.primes.get j
      * ((run.corrections run.remainders run.digits).column j).get i := by
  rw [get_column_corrections hrun, mul_correctionOf (hrun.channel_for j), exact, get_ofFn,
    get_remainders hrun, get_digits]

/-- the check by the integer product, -/
theorem checkExact_eq_ok (hrun : run.IsSetUp) (j : Fin l) :
    run.checkExact (run.primes.get j) (run.remainders.get j) (run.digits.get j)
      ((run.corrections run.remainders run.digits).column j) = .ok () := by
  have hp : 0 < run.primes.get j := (hrun.channel_for j).prime.pos
  unfold checkExact
  dsimp only
  rw [if_neg, if_neg]
  · rfl
  · rw [not_not]
    refine ext_get fun i => ?_
    rw [get_map, get_exact hrun, Int.fdiv_eq_ediv_of_nonneg _ (by omega)]
    exact Int.mul_ediv_cancel_left _ (by omega)
  · rw [Bool.not_eq_true, List.any_eq_false]
    intro v hv
    obtain ⟨i, rfl⟩ := mem_toList_iff.1 hv
    rw [get_exact hrun, Int.fmod_eq_emod_of_nonneg _ (by omega), Int.mul_emod_right]
    decide

/-- and so whatever checks are asked for. -/
theorem checkCorrection_eq_ok (hrun : run.IsSetUp) (j : Fin l) :
    run.checkCorrection (run.primes.get j) (run.remainders.get j) (run.digits.get j)
      ((run.corrections run.remainders run.digits).column j) = .ok () := by
  unfold checkCorrection
  rw [checkSize_eq_ok hrun]
  show (if run.verifySteps = true then _ else _) = _
  split
  · exact checkExact_eq_ok hrun j
  · rfl

/-! ## One step -/

/-- As long as there are digits left, a step returns them and moves on. -/
theorem next_eq (hrun : run.IsSetUp) (hposition : run.position < run.plan.iterations) :
    run.next = (.ok run.digits, run.advance (run.corrections run.remainders run.digits)) := by
  have hfault : run.fault? = none := by
    unfold fault? exhausted
    rw [hrun.is_open, decide_eq_false (by omega)]
    rfl
  have hchecked := Outcome.forM_eq_ok_iff.2 fun j (_ : j ∈ List.finRange l) =>
    checkCorrection_eq_ok hrun j
  unfold next
  rw [hfault]
  dsimp only
  rw [hchecked]

/-- The next residual is the exact one. -/
theorem get_residuals_advance (hrun : run.IsSetUp) (j : Fin l) :
    (run.advance (run.corrections run.remainders run.digits)).residuals.get j
      = residualOf run.system.matrix (run.inverses.get j) (run.primes.get j)
          (run.residuals.get j) := by
  have hp : 0 < run.primes.get j := (hrun.channel_for j).prime.pos
  refine ext_get fun i => ?_
  rw [advance]
  dsimp only
  rw [get_ofFn, get_ofFn, entry_corrections hrun, quotients, get_ofFn, get_map,
    Int.fdiv_eq_ediv_of_nonneg _ (by omega), correctionOf, add_sub_cancel]

/-- Moving on by any corrections leaves the run set up. -/
theorem isSetUp_advance (hrun : run.IsSetUp) (corrections : Mat n l) :
    (run.advance corrections).IsSetUp where
  plan_for := hrun.plan_for
  basis_wellFormed := hrun.basis_wellFormed
  residues_eq := hrun.residues_eq
  table_residue := hrun.table_residue
  table_inverse := hrun.table_inverse
  channel_for := hrun.channel_for
  prime_lt := hrun.prime_lt
  covers := hrun.covers
  is_open := hrun.is_open

/-! ## Many steps -/

/-- The run after `t` steps. -/
def after (run : Run n l) (t : ℕ) : Run n l := (fun r => r.next.2)^[t] run

theorem after_succ (run : Run n l) (t : ℕ) : run.after (t + 1) = (run.after t).next.2 :=
  Function.iterate_succ_apply' _ t run

/-- The run `later` is `run` after `t` exact steps. -/
structure IsAfter (run later : Run n l) (t : ℕ) : Prop where
  set_up : later.IsSetUp
  system_eq : later.system = run.system
  plan_eq : later.plan = run.plan
  primes_eq : later.primes = run.primes
  inverses_eq : later.inverses = run.inverses
  position_eq : later.position = run.position + t
  residual_eq : ∀ j, later.residuals.get j = residualAt run.system.matrix (run.inverses.get j)
    (run.primes.get j) (run.residuals.get j) t

theorem IsAfter.zero (hrun : run.IsSetUp) : IsAfter run run 0 :=
  ⟨hrun, rfl, rfl, rfl, rfl, rfl, fun _ => rfl⟩

/-- One step further: the digits are exact, and so are the residuals after them. -/
theorem IsAfter.next {later : Run n l} {t : ℕ} (h : IsAfter run later t)
    (ht : run.position + t < run.plan.iterations) :
    ∃ digits, later.next.1 = .ok digits ∧
      (∀ j, digits.get j = digitAt run.system.matrix (run.inverses.get j) (run.primes.get j)
        (run.residuals.get j) t) ∧
      IsAfter run later.next.2 (t + 1) := by
  have hnext := next_eq h.set_up (by rw [h.position_eq, h.plan_eq]; exact ht)
  rw [hnext]
  refine ⟨later.digits, rfl, fun j => ?_, isSetUp_advance h.set_up _, h.system_eq, h.plan_eq,
    h.primes_eq, h.inverses_eq, ?_, fun j => ?_⟩
  · rw [get_digits, h.inverses_eq, h.primes_eq, h.residual_eq, digitAt]
  · show later.position + 1 = run.position + (t + 1)
    rw [h.position_eq, add_assoc]
  · rw [get_residuals_advance h.set_up, h.system_eq, h.inverses_eq, h.primes_eq, h.residual_eq,
      residualAt_succ]

/-- Up to the last digit every step is exact. -/
theorem isAfter_after (hrun : run.IsSetUp) {t : ℕ} (ht : run.position + t ≤ run.plan.iterations) :
    IsAfter run (run.after t) t := by
  induction t with
  | zero => exact IsAfter.zero hrun
  | succ t ih =>
    obtain ⟨-, -, -, hlater⟩ := (ih (by omega)).next (by omega)
    rw [after_succ]
    exact hlater

end Run
end PadicLift
