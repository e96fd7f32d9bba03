import PadicLift.Proofs.Lifting.Invariant
import PadicLift.Proofs.Lifting.Step

/-!
# Steps that are checked in exact integers

With the check in exact integers a step that returns is exact, wherever its corrections come from:
the check finds that the remainder minus the product is the correction times the prime, and the
quotient makes this the residual minus the product. The digit solves the system modulo the prime,
and where the matrix has an inverse only one digit does. So the digits are the true ones, although
the residues of the matrix, the inverses of the primes and the inverses of the matrix that a step
works with may hold anything.
-/

namespace PadicLift

variable {n l : ℕ}

/-- A digit of a residual and the next residual. -/
structure IsExactStep (A : Mat n n) (p : ℕ) (residual digit next : Vector ℤ n) : Prop where
  digit_nonneg : ∀ i, 0 ≤ digit.get i
  digit_lt : ∀ i, digit.get i < p
  mulVec_modEq : ∀ i, (A.mulVec digit).get i ≡ residual.get i [ZMOD p]
  mul_next : ∀ i, p * next.get i = residual.get i - (A.mulVec digit).get i

/-! ## One step -/

namespace Run

variable {run : Run n l} {corrections : Mat n l}

/-- The check in exact integers finds the correction times its prime. -/
theorem mul_correction_eq {p : ℕ} {remainder digit correction : Vector ℤ n}
    (h : run.checkExact p remainder digit correction = .ok ()) (i : Fin n) :
    p * correction.get i = remainder.get i - (run.system.matrix.mulVec digit).get i := by
  unfold checkExact at h
  dsimp only at h
  split at h
  · cases h
  next hdivisible =>
    split at h
    · cases h
    next hquotient =>
      rw [not_not] at hquotient
      have hexact : (run.exact remainder digit).get i
          = remainder.get i - (run.system.matrix.mulVec digit).get i := by
        rw [exact, get_ofFn]
      rw [Bool.not_eq_true, List.any_eq_false] at hdivisible
      have hmod := hdivisible _ (mem_toList_iff.2 ⟨i, rfl⟩)
      rw [bne_iff_ne, ne_eq, not_not] at hmod
      rw [← hquotient, get_map, ← hexact]
      have hdivision := Int.mul_fdiv_add_fmod ((run.exact remainder digit).get i) p
      rwa [hmod, add_zero] at hdivision

/-- Where steps are verified, a correction that passes has passed the check by the integer product.
-/
theorem checkExact_eq_ok_of_checkCorrection {p : ℕ} {remainder digit correction : Vector ℤ n}
    (hverify : run.verifySteps = true)
    (h : run.checkCorrection p remainder digit correction = .ok ()) :
    run.checkExact p remainder digit correction = .ok () := by
  obtain ⟨u, -, hexact⟩ := Outcome.bind_eq_ok.1 h
  rwa [if_pos hverify] at hexact

/-- `other` is the run at any position, with any residuals, and with anything in the tables that its
steps work with: the residues of the matrix, the inverses of the primes, and the inverses of the
matrix, which hold residues. -/
structure IsVariant (run other : Run n l) : Prop where
  system_eq : other.system = run.system
  plan_eq : other.plan = run.plan
  primes_eq : other.primes = run.primes
  verifySteps_eq : other.verifySteps = run.verifySteps
  reduced : ∀ j, (other.inverses.get j).IsReduced (run.primes.get j)

theorem isVariant_self (hrun : run.IsSetUp) : run.IsVariant run :=
  ⟨rfl, rfl, rfl, rfl, fun j => (hrun.channel_for j).inverse.reduced⟩

/-- Moving on by any corrections leaves a variant of the run. -/
theorem IsVariant.advance {other : Run n l} (h : run.IsVariant other) :
    run.IsVariant (other.advance corrections) :=
  ⟨h.system_eq, h.plan_eq, h.primes_eq, h.verifySteps_eq, h.reduced⟩

section Variant

variable {other : Run n l} (hrun : run.IsSetUp) (hother : run.IsVariant other)

include hrun hother

/-- The digits of a variant are residues. -/
theorem IsVariant.get_digits (j : Fin l) (i : Fin n) :
    0 ≤ (other.digits.get j).get i ∧ (other.digits.get j).get i < run.primes.get j := by
  have hp : 0 < run.primes.get j := (hrun.channel_for j).prime.pos
  have hremainder : ∀ t, |(other.remainders.get j).get t| < run.primes.get j := by
    intro t
    rw [remainders, get_ofFn, get_map, hother.primes_eq, Int.fmod_eq_emod_of_nonneg _ (by omega)]
    exact Machine.abs_emod_lt _ (by omega)
  rw [digits, get_ofFn, hother.primes_eq,
    Mat.get_mulVecMod hp (hrun.channel_for j).le_max (hother.reduced j) hremainder]
  exact ⟨Int.emod_nonneg _ (by omega), Int.emod_lt_of_pos _ (by omega)⟩

/-- A step of a variant that returns is exact. -/
theorem IsVariant.isExactStep (hverify : run.verifySteps = true)
    {emitted : Vector (Vector ℤ n) l} {later : Run n l}
    (h : other.nextWith corrections = (.ok emitted, later)) (j : Fin l) :
    IsExactStep run.system.matrix (run.primes.get j) (other.residuals.get j) (emitted.get j)
      (later.residuals.get j) := by
  obtain ⟨-, hchecked, rfl, rfl⟩ := nextWith_eq_ok h
  have hmul : ∀ i, run.primes.get j * ((other.advance corrections).residuals.get j).get i
      = (other.residuals.get j).get i
        - (run.system.matrix.mulVec (other.digits.get j)).get i := by
    intro i
    have hcorrection := mul_correction_eq (checkExact_eq_ok_of_checkCorrection
      (hother.verifySteps_eq.trans hverify) (hchecked j)) i
    have hdivision := Int.mul_fdiv_add_fmod ((other.residuals.get j).get i) (run.primes.get j)
    rw [Mat.get_column, remainders, get_ofFn, get_map, hother.system_eq, hother.primes_eq]
      at hcorrection
    rw [Run.advance]
    dsimp only
    rw [get_ofFn, get_ofFn, quotients, get_ofFn, get_map, hother.primes_eq, mul_add, hcorrection]
    linarith
  refine ⟨fun i => (hother.get_digits hrun j i).1, fun i => (hother.get_digits hrun j i).2,
    fun i => ?_, hmul⟩
  rw [Int.modEq_iff_dvd, ← hmul]
  exact dvd_mul_right _ _

end Variant

end Run

/-! ## Uniqueness -/

/-- Where the matrix has an inverse there is only one exact step. -/
theorem IsExactStep.unique {A B : Mat n n} {p : ℕ} {r d r' : Vector ℤ n}
    (hc : (Channel.mk p B).IsFor A) (h : IsExactStep A p r d r') :
    d = Reference.digitOf B p r ∧ r' = Reference.residualOf A B p r := by
  have hp : (p : ℤ) ≠ 0 := by exact_mod_cast hc.prime.ne_zero
  have hbase := Reference.isBase_of_isFor hc
  let image (v : Vector ℤ n) : Fin n → ZMod p := fun t => (v.get t : ZMod p)
  have hproduct : ∀ v : Vector ℤ n, (A.modulo p).mulVec (image v) = image (A.mulVec v) := by
    intro v
    funext i
    simp only [image, Mat.get_mulVec]
    push_cast
    rfl
  -- Both digits have the same product with the matrix, so they agree modulo the prime.
  have himage : (A.modulo p).mulVec (image d)
      = (A.modulo p).mulVec (image (Reference.digitOf B p r)) := by
    rw [hproduct, hproduct]
    funext i
    exact (ZMod.intCast_eq_intCast_iff _ _ _).2
      ((h.mulVec_modEq i).trans (hbase.mulVec_digitOf_modEq r i).symm)
  have hcancel := congrArg (B.modulo p).mulVec himage
  rw [Matrix.mulVec_mulVec, Matrix.mulVec_mulVec, hc.inverse.mul_eq_one, Matrix.one_mulVec,
    Matrix.one_mulVec] at hcancel
  have hdigit : d = Reference.digitOf B p r := by
    refine ext_get fun i => ?_
    have hmod := (ZMod.intCast_eq_intCast_iff' _ _ _).1 (congrFun hcancel i)
    rwa [Int.emod_eq_of_lt (h.digit_nonneg i) (h.digit_lt i),
      Int.emod_eq_of_lt (hbase.digitOf_nonneg r i) (hbase.digitOf_lt r i)] at hmod
  refine ⟨hdigit, ext_get fun i => mul_left_cancel₀ hp ?_⟩
  rw [h.mul_next, Reference.mul_residualOf hc, hdigit]

/-! ## Many steps -/

namespace Run

variable {run : Run n l} {corrections : Mat n l}

/-- The steps of a run that returned have emitted the digits `ds`, and left the run `later`. At any
time the tables that the steps work with may have been written over, and a step may have had its
corrections from elsewhere. -/
inductive Emits (run : Run n l) : List (Vector (Vector ℤ n) l) → Run n l → Prop
  | start : Emits run [] run
  | overwrite {ds : List (Vector (Vector ℤ n) l)} {later : Run n l}
      (residues : Planes later.basis.size n n) (table : Mat later.basis.size l)
      (inverses : Vector (Mat n n) l)
      (hreduced : ∀ j, (inverses.get j).IsReduced (run.primes.get j)) (h : Emits run ds later) :
      Emits run ds { later with residues, table, inverses }
  | next {ds : List (Vector (Vector ℤ n) l)} {later after : Run n l}
      {digits : Vector (Vector ℤ n) l} (h : Emits run ds later)
      (hnext : later.next = (.ok digits, after)) : Emits run (ds ++ [digits]) after
  | nextWith {ds : List (Vector (Vector ℤ n) l)} {later after : Run n l}
      {digits : Vector (Vector ℤ n) l} (corrections : Mat n l) (h : Emits run ds later)
      (hnext : later.nextWith corrections = (.ok digits, after)) : Emits run (ds ++ [digits]) after

/-- The digits `ds` are the true ones, and `later` has the residuals after them. -/
structure IsTrue (run : Run n l) (ds : List (Vector (Vector ℤ n) l)) (later : Run n l) : Prop where
  variant : run.IsVariant later
  position_eq : later.position = run.position + ds.length
  position_le : later.position ≤ run.plan.iterations
  digits_eq : ds = (List.range ds.length).map run.digitsAt
  residual_eq : ∀ j, later.residuals.get j = Reference.residualAt run.system.matrix
    (run.inverses.get j) (run.primes.get j) (run.residuals.get j) ds.length

/-- One more step that returns adds the next true digit. -/
theorem IsTrue.nextWith (hrun : run.IsSetUp) (hverify : run.verifySteps = true)
    {ds : List (Vector (Vector ℤ n) l)} {later after : Run n l} {digits : Vector (Vector ℤ n) l}
    (h : run.IsTrue ds later) (hnext : later.nextWith corrections = (.ok digits, after)) :
    run.IsTrue (ds ++ [digits]) after := by
  have hstep := fun j => (h.variant.isExactStep hrun hverify hnext j).unique (hrun.channel_for j)
  obtain ⟨hfault, -, -, rfl⟩ := nextWith_eq_ok hnext
  have hlt := (fault?_eq_none.1 hfault).2
  rw [h.variant.plan_eq] at hlt
  have hdigits : digits = run.digitsAt ds.length := by
    refine ext_get fun j => ?_
    rw [(hstep j).1, digitsAt, get_ofFn, h.residual_eq, Reference.digitAt]
  have hposition : (later.advance corrections).position = later.position + 1 := rfl
  refine ⟨h.variant.advance, ?_, ?_, ?_, fun j => ?_⟩
  · rw [hposition, h.position_eq, List.length_append, List.length_singleton, add_assoc]
  · rw [hposition]
    exact hlt
  · rw [List.length_append, List.length_singleton, List.range_succ, List.map_append, ← h.digits_eq,
      hdigits, List.map_singleton]
  · rw [(hstep j).2, h.residual_eq, List.length_append, List.length_singleton,
      Reference.residualAt_succ]

/-- All digits that checked steps emit are true, whatever is written over on the way. -/
theorem Emits.isTrue (hrun : run.IsSetUp) (hverify : run.verifySteps = true)
    (hposition : run.position ≤ run.plan.iterations) {ds : List (Vector (Vector ℤ n) l)}
    {later : Run n l} (h : run.Emits ds later) : run.IsTrue ds later := by
  induction h with
  | start =>
    exact ⟨isVariant_self hrun, rfl, hposition, rfl, fun j => rfl⟩
  | overwrite residues table inverses hreduced _ ih =>
    obtain ⟨hvariant, hposition, hle, hdigits, hresidual⟩ := ih
    exact ⟨⟨hvariant.system_eq, hvariant.plan_eq, hvariant.primes_eq, hvariant.verifySteps_eq,
      hreduced⟩, hposition, hle, hdigits, hresidual⟩
  | next _ hnext ih => exact ih.nextWith hrun hverify hnext
  | nextWith corrections _ hnext ih => exact ih.nextWith hrun hverify hnext

end Run

/-- With the check in exact integers, whatever is in the tables that a step works with, the step
either fails, and says that a check has failed unless there is no next step, or it is exact; and the
steps of a run that return emit the first digits of the lift in exact integers. -/
theorem SomeRun.emits_prefix_digitsFor {a b : Nested} {settings : Settings}
    {choice : Selection.Choice} {supplied : List (ℤ × Nested)} {supply after : Supply} {r : SomeRun}
    (hsource : supply.source.IsGenuine)
    (hstart : SomeRun.start a b settings choice supplied supply = (.ok r, after))
    (hverify : settings.verifies = true) :
    r.run.IsVariant r.run ∧
    (∀ other : Run r.size r.width, r.run.IsVariant other →
      other.next = other.nextWith (other.corrections other.remainders other.digits) ∧
      ∀ corrections,
        (∀ digits later, other.nextWith corrections = (.ok digits, later) →
          ∀ j, IsExactStep r.run.system.matrix (r.run.primes.get j) (other.residuals.get j)
            (digits.get j) (later.residuals.get j)) ∧
        ∀ f later, other.nextWith corrections = (.error f, later) →
          later = other ∧ (other.fault? = some f ∨
            ∃ j, f.IsFailedCheck (r.run.primes.get j) other.position)) ∧
    ∃ digits : List (List (Vector ℤ r.size)),
      Reference.digitsFor r.run.system.matrix r.run.system.right
        (r.run.plan.primes.map Int.ofNat) r.run.plan.iterations = .ok digits ∧
      ∀ ds later, r.run.Emits ds later → ds.map Vector.toList <+: digits := by
  obtain ⟨n, S, plan, run, hread, hselect, hstartRun, rfl⟩ := SomeRun.start_eq_ok hstart
  have hplan := Selection.isFor_of_selectFor hsource hselect
  have hrun := Run.isStart_of_start hplan hstartRun
  have hverifySteps : run.verifySteps = true := (Run.settings_of_start hstartRun).1.trans hverify
  dsimp only
  refine ⟨Run.isVariant_self hrun.set_up,
    fun other hother => ⟨other.next_eq_nextWith, fun corrections => ⟨?_, ?_⟩⟩, ?_⟩
  · intro digits later h j
    exact hother.isExactStep hrun.set_up hverifySteps h j
  · intro f later h
    obtain ⟨hlater, hfault⟩ := Run.nextWith_eq_error h
    rw [hother.primes_eq] at hfault
    exact ⟨hlater, hfault.imp_right And.right⟩
  · refine ⟨_, hrun.digitsFor_eq_ok, fun ds later h => ?_⟩
    -- By induction on the run, what it has emitted are the digits of the exact lift so far.
    have htrue := h.isTrue hrun.set_up hverifySteps (by rw [hrun.position_eq]; omega)
    have hlength : ds.length ≤ run.plan.iterations := by
      have hle := htrue.position_le
      rw [htrue.position_eq, hrun.position_eq, zero_add] at hle
      exact hle
    have htake : ds.map Vector.toList = List.take ds.length
        ((List.range run.plan.iterations).map fun t => (run.digitsAt t).toList) := by
      rw [← List.map_take, List.take_range, min_eq_left hlength, htrue.digits_eq, List.map_map,
        List.length_map, List.length_range]
      rfl
    rw [htake]
    exact List.take_prefix _ _

/-- The system `2 x + y = 3`, `x + 3 y = -5`, lifted in the bases 7 and 11 with all checks. -/
theorem SomeRun.emits_prefix_digitsFor_two_primes : ∃ r after first digits,
    SomeRun.start (.list [.list [.entry 2, .entry 1], .list [.entry 1, .entry 3]])
      (.list [.entry 3, .entry (-5)]) { verifySteps := .bool true } (.given [11, 7]) []
      (.ofSource (.listed 1 7 [101])) = (.ok r, after) ∧
    r.run.next.1 = .ok first ∧
    (∀ j, IsExactStep r.run.system.matrix (r.run.primes.get j) (r.run.residuals.get j)
      (first.get j) (r.run.next.2.residuals.get j)) ∧
    Reference.digitsFor r.run.system.matrix r.run.system.right (r.run.plan.primes.map Int.ofNat)
      r.run.plan.iterations = .ok digits ∧
    [first.toList] <+: digits := by
  have hsource : (Supply.ofSource (.listed 1 7 [101])).source.IsGenuine :=
    PrimeSource.isGenuine_of_all (by decide +kernel)
  have hfirst : (SomeRun.start (.list [.list [.entry 2, .entry 1], .list [.entry 1, .entry 3]])
      (.list [.entry 3, .entry (-5)]) { verifySteps := .bool true } (.given [11, 7]) []
      (.ofSource (.listed 1 7 [101]))).1.map (fun r => r.run.next.1.isOk) = .ok true := by
    decide +kernel
  generalize hstart : SomeRun.start _ _ _ _ _ _ = outcome at hfirst
  obtain ⟨result, after⟩ := outcome
  obtain ⟨r, rfl, hok⟩ := Outcome.map_eq_ok.1 hfirst
  obtain ⟨hself, hsteps, digits, hdigits, hprefix⟩ :=
    SomeRun.emits_prefix_digitsFor hsource hstart (by decide)
  generalize hnext : r.run.next = outcome at hok
  obtain ⟨emitted, later⟩ := outcome
  cases emitted with
  | error f => cases hok
  | ok first =>
    obtain ⟨hwith, hall⟩ := hsteps r.run hself
    have hexact := (hall _).1 first later (hwith.symm.trans hnext)
    exact ⟨r, after, first, digits, rfl, congrArg Prod.fst hnext, hnext ▸ hexact, hdigits,
      hprefix [first] later (.next .start hnext)⟩

end PadicLift
