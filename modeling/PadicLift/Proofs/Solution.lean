import PadicLift.Proofs.Lifting.Refinement
import PadicLift.Proofs.Matrix.Cramer
import PadicLift.Proofs.Reconstruction.Expansion
import PadicLift.Proofs.Reconstruction.Fraction
import PadicLift.Solution

/-!
# Solving is exact

A run that could be started emits exact digits, so the numbers that the accumulator joins solve the
system modulo `P ^ k`. They are the residues of the rational solution, because no lifting prime
divides the determinant, and as `2 N D < P ^ k` its entries are found wherever they lie within the
bounds. What is returned is the solution over its least common denominator, which depends on the
system alone.
-/

namespace PadicLift
namespace Solution

open Reference

variable {n : ℕ} {S : LinearSystem n} {plan : Plan n}

/-! ## The digits of a run -/

/-- Digit `t` of the solution for the prime of a channel. -/
def digitOfChannel (S : LinearSystem n) (c : Channel n) (t : ℕ) (i : Fin n) : ℤ :=
  (digitAt S.matrix c.inverse c.prime S.right t).get i

/-- The accumulator of a solve after `t` steps. -/
def accumulated (S : LinearSystem n) (plan : Plan n) (t : ℕ) : Accumulator :=
  Accumulator.after n plan.channels (fun c => (c.prime : ℤ)) (digitOfChannel S) t

/-- The accumulator begins with no digits of the system. -/
theorem start_eq_accumulated (S : LinearSystem n) (plan : Plan n) :
    Accumulator.start (plan.primes.map Int.ofNat) n = accumulated S plan 0 := by
  rw [Plan.primes, List.map_map]
  exact Accumulator.start_eq_after

/-- The remaining steps of a run add the remaining digits. -/
theorem collect_eq_ok {run : Run n plan.channels.length} (hrun : Run.IsStart S plan run)
    (fuel t : ℕ) (hfuel : t + fuel = plan.iterations) :
    collect noObserver step fuel (run.after t) (accumulated S plan t) ()
      = (.ok (accumulated S plan plan.iterations), ()) := by
  induction fuel generalizing t with
  | zero =>
    rw [← hfuel]
    rfl
  | succ fuel ih =>
    have hposition : run.position + t < run.plan.iterations := by
      rw [hrun.position_eq, hrun.plan_eq]
      omega
    obtain ⟨digits, hdigits, hdigit, -⟩ :=
      (Run.isAfter_after hrun.set_up hposition.le).next hposition
    have hlists : digits.toList.map Vector.toList
        = plan.channels.map fun c => List.ofFn (digitOfChannel S c t) := by
      have hvectors : digits.toList
          = plan.channels.map fun c => digitAt S.matrix c.inverse c.prime S.right t := by
        refine toList_eq_map fun j => ?_
        rw [hdigit, hrun.system_eq, hrun.primes_eq, hrun.inverses_eq, hrun.residuals_eq]
      rw [hvectors, List.map_map]
      exact List.map_congr_left fun c _ => toList_eq_ofFn _
    have hstep : step (run.after t) = .ok ⟨plan.channels.map fun c =>
        List.ofFn (digitOfChannel S c t), (run.after (t + 1)).trace.getLast?,
        run.after (t + 1)⟩ := by
      have hnext : (run.after t).next = (.ok digits, run.after (t + 1)) :=
        Prod.ext hdigits (run.after_succ t).symm
      unfold step
      rw [hnext]
      dsimp only
      rw [hlists]
    have hadd : (accumulated S plan t).add
        (plan.channels.map fun c => List.ofFn (digitOfChannel S c t))
        = (.ok (), accumulated S plan (t + 1)) := Accumulator.add_after t
    unfold collect
    rw [hstep]
    dsimp only
    -- Whether the step was traced makes no difference to the accumulator.
    cases (run.after (t + 1)).trace.getLast? with
    | none =>
      dsimp only
      rw [hadd]
      exact ih (t + 1) (by omega)
    | some record =>
      dsimp only [noObserver]
      rw [hadd]
      exact ih (t + 1) (by omega)

/-! ## The residues of the solution -/

/-- What is divisible by powers of pairwise coprime numbers is divisible by the power of their
product. -/
theorem pow_prod_dvd {ps : List ℕ} (hpair : ps.Pairwise Nat.Coprime) {k : ℕ} {z : ℤ}
    (h : ∀ p ∈ ps, ((p ^ k : ℕ) : ℤ) ∣ z) : ((ps.prod ^ k : ℕ) : ℤ) ∣ z := by
  induction ps with
  | nil => simp
  | cons p rest ih =>
    rw [List.pairwise_cons] at hpair
    rw [List.forall_mem_cons] at h
    have hcoprime : Nat.Coprime (p ^ k) (rest.prod ^ k) :=
      Nat.Coprime.pow _ _ (Nat.coprime_list_prod_right_iff.2 hpair.1)
    rw [List.prod_cons, mul_pow, Nat.cast_mul]
    exact (Nat.isCoprime_iff_coprime.2 hcoprime).mul_dvd h.1 (ih hpair.2 h.2)

/-- The primes of a plan are pairwise coprime. -/
theorem pairwise_coprime_primes (hplan : plan.IsFor S) : plan.primes.Pairwise Nat.Coprime := by
  refine hplan.nodup.imp_of_mem fun hp hq hne => ?_
  exact (Nat.coprime_primes (hplan.prime_of_mem hp) (hplan.prime_of_mem hq)).2 hne

/-- No lifting prime divides the determinant. -/
theorem isCoprime_det (hplan : plan.IsFor S) (k : ℕ) :
    IsCoprime S.matrix.toMatrix.det ((plan.modulus ^ k : ℕ) : ℤ) := by
  have hprimes : ∀ p ∈ plan.primes, IsCoprime S.matrix.toMatrix.det (p : ℤ) := by
    intro p hp
    obtain ⟨c, hc, rfl⟩ := List.mem_map.1 hp
    exact (hplan.moduli.channels_for c hc).inverse.isCoprime_det
  have hmodulus : IsCoprime S.matrix.toMatrix.det (plan.modulus : ℤ) := by
    rw [Plan.modulus, ← List.prod_eq_foldl]
    generalize plan.primes = ps at hprimes ⊢
    induction ps with
    | nil => exact isCoprime_one_right
    | cons p rest ih =>
      rw [List.forall_mem_cons] at hprimes
      rw [List.prod_cons, Nat.cast_mul]
      exact hprimes.1.mul_right (ih hprimes.2)
  rw [Nat.cast_pow]
  exact hmodulus.pow_right

/-- The joined numbers solve the system modulo the power of all lifting primes. -/
theorem exists_combined (hplan : plan.IsFor S) :
    ∃ y : Fin n → ℤ, (accumulated S plan plan.iterations).combined
        = .ok (List.ofFn y, ((plan.modulus ^ plan.iterations : ℕ) : ℤ)) ∧
      ∀ i, ∑ j, S.matrix.entry i j * y j
        ≡ S.right.get i [ZMOD (plan.modulus ^ plan.iterations : ℕ)] := by
  have hprime : ∀ c ∈ plan.channels, c.IsFor S.matrix := hplan.moduli.channels_for
  have hpair : (plan.channels.map fun c => (c.prime : ℤ)).Pairwise IsCoprime := by
    have hcoprime := pairwise_coprime_primes hplan
    rw [Plan.primes, List.pairwise_map] at hcoprime
    rw [List.pairwise_map]
    exact hcoprime.imp Nat.isCoprime_iff_coprime.2
  obtain ⟨y, hy, hmod⟩ := Accumulator.combined_after (digitOfChannel S) hplan.moduli.nonempty
    (fun c hc => by have := (hprime c hc).prime.pos; omega) hpair hplan.one_le_iterations
  have hproduct : ((plan.channels.map fun c => (c.prime : ℤ)).foldl (· * ·) 1)
      ^ plan.iterations = ((plan.modulus ^ plan.iterations : ℕ) : ℤ) := by
    rw [Plan.modulus, Plan.primes, ← List.prod_eq_foldl, ← List.prod_eq_foldl, Nat.cast_pow,
      Nat.cast_list_prod, List.map_map]
    rfl
  refine ⟨y, ?_, fun i => ?_⟩
  · rw [← hproduct]
    exact hy
  · rw [Plan.modulus, ← List.prod_eq_foldl]
    apply Int.modEq_iff_dvd.2
    -- It is enough to solve the system modulo the power of each lifting prime.
    refine pow_prod_dvd (pairwise_coprime_primes hplan) fun p hp => ?_
    obtain ⟨c, hc, rfl⟩ := List.mem_map.1 hp
    have hsum := (isBase_of_isFor (hprime c hc)).sum_digitAt S.right i plan.iterations
    apply Int.modEq_iff_dvd.1
    rw [← hsum, Nat.cast_pow]
    calc ∑ j, S.matrix.entry i j * y j
        ≡ ∑ j, S.matrix.entry i j * ∑ t ∈ Finset.range plan.iterations,
            digitOfChannel S c t j * (c.prime : ℤ) ^ t [ZMOD (c.prime : ℤ) ^ plan.iterations] :=
          Int.ModEq.sum fun j _ => (hmod j c hc).mul_left _
      _ ≡ _ [ZMOD (c.prime : ℤ) ^ plan.iterations] := by
          apply Int.modEq_iff_dvd.2
          unfold digitOfChannel
          rw [add_sub_cancel_left]
          exact dvd_mul_right _ _

/-! ## The solution -/

/-- A run according to a plan finds every solution within the bounds. -/
theorem ofPlan_eq_ok (hplan : plan.IsFor S) {settings : Settings}
    {run : Run n plan.channels.length} (hstart : Run.start S settings plan = .ok run)
    {x : Fin n → ℚ} (hx : ∀ i, ∑ j, (S.matrix.entry i j : ℚ) * x j = S.right.get i)
    (hnum : ∀ i, |(x i).num| ≤ plan.bound.numBound)
    (hden : ∀ i, (x i).den ≤ plan.bound.denBound) :
    ofPlan noObserver S settings plan ()
      = (.ok ⟨(Fraction.common (List.ofFn x)).numerators,
          (Fraction.common (List.ofFn x)).denominator, plan.iterations, plan.primes, plan.basis⟩,
        ()) := by
  have hcollect := collect_eq_ok (Run.isStart_of_start hplan hstart) plan.iterations 0
    (zero_add _)
  -- The fractions of the solution have the residues that the digits join to, within the bounds.
  obtain ⟨y, hy, hsolves⟩ := exists_combined hplan
  have hresidue := Cramer.den_mul_modEq_num hx (isCoprime_det hplan plan.iterations) hsolves
  have hlarge : 2 * plan.bound.numBound * plan.bound.denBound
      < plan.modulus ^ plan.iterations := hplan.lt_modulus_pow
  have hdenInt : ∀ i, ((x i).den : ℤ) ≤ plan.bound.denBound := fun i => by exact_mod_cast hden i
  have hlargeInt : (2 * plan.bound.numBound * plan.bound.denBound : ℤ)
      < (plan.modulus ^ plan.iterations : ℕ) := by exact_mod_cast hlarge
  have hfractions := Fraction.ofResidues_eq_ok hnum hdenInt hlargeInt hresidue
  unfold ofPlan ofRun
  rw [hstart, start_eq_accumulated]
  dsimp only
  have hrun : run.after 0 = run := rfl
  rw [hrun] at hcollect
  rw [hcollect]
  dsimp only
  rw [ofDigits, hy]
  refine Prod.ext (Outcome.bind_eq_ok.2 ⟨_, rfl, Outcome.bind_eq_ok.2 ⟨_, hfractions, rfl⟩⟩) rfl

/-- A system of integers has one solution over its least common denominator, and every solve that
could be started and whose bounds admit the solution returns it: whatever primes, source, settings
and known inverses it was given. -/
theorem solve_eq_solution {a b : Nested} {S : LinearSystem n}
    (hread : SomeSystem.read a b = .ok (.ofLinear S)) {x : Fin n → ℚ}
    (hx : ∀ i, ∑ j, (S.matrix.entry i j : ℚ) * x j = S.right.get i) :
    ∃ (numerators : Fin n → ℤ) (denominator : ℤ), 0 < denominator ∧
      (∀ i, ∑ j, S.matrix.entry i j * numerators j = denominator * S.right.get i) ∧
      Int.gcd (Finset.univ.gcd numerators) denominator = 1 ∧
      ∀ settings choice supplied supply r after, supply.source.IsGenuine →
        SomeRun.start a b settings choice supplied supply = (.ok r, after) →
        (∀ i, |(x i).num| ≤ r.run.plan.bound.numBound ∧
          (x i).den ≤ r.run.plan.bound.denBound) →
        ∃ solution, solve a b settings choice supplied supply = (.ok solution, after) ∧
          solution.numerators = List.ofFn numerators ∧ solution.denominator = denominator := by
  set xs := List.ofFn x with hxs
  have hmem : ∀ i, x i ∈ xs := fun i => List.mem_ofFn.2 ⟨i, rfl⟩
  refine ⟨fun i => Fraction.numeratorOf xs (x i), (Fraction.common xs).denominator, ?_, ?_, ?_, ?_⟩
  · exact_mod_cast Fraction.denominator_pos xs
  · intro i
    have hrational : ∑ j, (S.matrix.entry i j : ℚ) * (Fraction.numeratorOf xs (x j) : ℚ)
        = (Fraction.common xs).denominator * S.right.get i := by
      rw [← hx i, Finset.mul_sum]
      refine Finset.sum_congr rfl fun j _ => ?_
      rw [Fraction.cast_numeratorOf (hmem j)]
      ring
    exact_mod_cast hrational
  · set g := Int.gcd (Finset.univ.gcd fun i => Fraction.numeratorOf xs (x i))
      ((Fraction.common xs).denominator : ℤ) with hg
    have hunit : IsUnit (g : ℤ) := by
      refine Fraction.isUnit_of_dvd_common (fun f (hf : f ∈ xs) => ?_) (Int.gcd_dvd_right _ _)
      obtain ⟨i, rfl⟩ := List.mem_ofFn.1 hf
      exact (Int.gcd_dvd_left _ _).trans (Finset.gcd_dvd (Finset.mem_univ i))
    have := Int.isUnit_iff_natAbs_eq.1 hunit
    omega
  · intro settings choice supplied supply r after hsource hstart hbounds
    -- The run was started from the same lists, so it is a run of this very system.
    obtain ⟨n', S', plan, run, hread', hselect, hrun, rfl⟩ := SomeRun.start_eq_ok hstart
    rw [hread, Except.ok.injEq] at hread'
    cases SomeSystem.ofLinear_injective hread'
    have hplan := Selection.isFor_of_selectFor hsource hselect
    have hplanEq : run.plan = plan := (Run.isStart_of_start hplan hrun).plan_eq
    have hsolution := ofPlan_eq_ok hplan hrun hx
      (fun i => by rw [← hplanEq]; exact (hbounds i).1)
      (fun i => by rw [← hplanEq]; exact (hbounds i).2)
    refine ⟨⟨(Fraction.common xs).numerators, (Fraction.common xs).denominator, plan.iterations,
      plan.primes, plan.basis⟩, ?_, ?_, rfl⟩
    · unfold solve solveWith
      rw [hread]
      dsimp only [SomeSystem.ofLinear]
      rw [hselect]
      dsimp only
      rw [hsolution]
    · show (Fraction.common xs).numerators = _
      rw [Fraction.numerators_eq, hxs, List.map_ofFn]
      rfl

/-- The solution of `2 x + y = 3`, `x + 3 y = 5` is `4 / 5`, `7 / 5`. -/
theorem solve_eq_solution_two_unknowns : ∃ (u v d : ℤ) (solution : Solution) (after : Supply),
    0 < d ∧ 2 * u + v = d * 3 ∧ u + 3 * v = d * 5 ∧
    solve (.list [.list [.entry 2, .entry 1], .list [.entry 1, .entry 3]])
      (.list [.entry 3, .entry 5]) {} (.given [7]) [] (.ofSource (.listed 1 7 [101]))
      = (.ok solution, after) ∧
    solution.numerators = [u, v] ∧ solution.denominator = d := by
  have hread : SomeSystem.read (.list [.list [.entry 2, .entry 1], .list [.entry 1, .entry 3]])
      (.list [.entry 3, .entry 5]) = .ok (.ofLinear ⟨⟨#v[#v[2, 1], #v[1, 3]]⟩, #v[3, 5]⟩) := rfl
  have hsource : (Supply.ofSource (.listed 1 7 [101])).source.IsGenuine := by
    intro p hp
    rw [List.mem_singleton.1 hp]
    decide +kernel
  have hbound : (SomeRun.start (.list [.list [.entry 2, .entry 1], .list [.entry 1, .entry 3]])
      (.list [.entry 3, .entry 5]) {} (.given [7]) [] (.ofSource (.listed 1 7 [101]))).1.map
      (fun r => (r.run.plan.bound.numBound, r.run.plan.bound.denBound)) = .ok (32, 8) := by
    decide +kernel
  obtain ⟨u, d, hd, hsolves, -, hall⟩ := solve_eq_solution hread (x := ![4 / 5, 7 / 5]) (by
    intro i
    fin_cases i <;> simp [Fin.sum_univ_two, Mat.entry, Vector.get] <;> norm_num)
  have hfirst := hsolves 0
  have hsecond := hsolves 1
  rw [Fin.sum_univ_two] at hfirst hsecond
  generalize hstart : SomeRun.start _ _ _ _ _ _ = outcome at hbound
  obtain ⟨result, after⟩ := outcome
  obtain ⟨r, rfl, hbounds⟩ := Outcome.map_eq_ok.1 hbound
  rw [Prod.mk.injEq] at hbounds
  obtain ⟨solution, hsolution, hnumerators, hdenominator⟩ := hall _ _ _ _ r after hsource hstart (by
    rw [hbounds.1, hbounds.2]
    intro i
    fin_cases i <;> norm_num)
  refine ⟨u 0, u 1, d, solution, after, hd, ?_, ?_, hsolution, ?_, hdenominator⟩
  · have hrow : 2 * u 0 + 1 * u 1 = d * 3 := hfirst
    omega
  · have hrow : 1 * u 0 + 3 * u 1 = d * 5 := hsecond
    omega
  · rw [hnumerators]
    rfl

end Solution
end PadicLift
