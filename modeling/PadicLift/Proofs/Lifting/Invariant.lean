import PadicLift.Proofs.Lifting.Refinement

/-!
# What holds after every step

At every point of a run the digits so far and the residual make up the right side: for each lifting
prime `p`, `A (c₀ + p c₁ + … + p ^ (t - 1) c_{t - 1}) + p ^ t r = b`. The residual takes nothing
from the number of steps: it is never larger than the right side or `n` times the largest entry of
the matrix, whichever is larger, because `|r - A c| ≤ M + M (p - 1)` if `M` bounds both.
-/

namespace PadicLift

variable {n : ℕ}

/-- The largest absolute value of an entry, 0 for a vector without entries. -/
def largestAbs (v : Vector ℤ n) : ℕ := v.toList.foldl (fun s x => max s x.natAbs) 0

theorem abs_get_le_largestAbs (v : Vector ℤ n) (i : Fin n) : |v.get i| ≤ largestAbs v := by
  have hle := (le_foldl_max Int.natAbs v.toList 0).2 _ (mem_toList_iff.2 ⟨i, rfl⟩)
  rw [Int.abs_eq_natAbs]
  exact_mod_cast hle

theorem largestAbs_le {v : Vector ℤ n} {bound : ℕ} (h : ∀ i, |v.get i| ≤ bound) :
    largestAbs v ≤ bound := by
  refine foldl_max_le (Nat.zero_le bound) fun x hx => ?_
  obtain ⟨i, rfl⟩ := mem_toList_iff.1 hx
  have hi := h i
  rw [Int.abs_eq_natAbs] at hi
  exact_mod_cast hi

/-- The number that the first `t` digits stand for in base `p`, in every place. -/
def expansion (p : ℕ) (digits : ℕ → Vector ℤ n) (t : ℕ) : Vector ℤ n :=
  Vector.ofFn fun i => ∑ s ∈ Finset.range t, (digits s).get i * p ^ s

/-- What holds for the lifting prime `p` after the first `t` digits. -/
structure IsLifted (S : LinearSystem n) (p : ℕ) (digits : ℕ → Vector ℤ n) (t : ℕ)
    (residual : Vector ℤ n) : Prop where
  digit_nonneg : ∀ s < t, ∀ i, 0 ≤ (digits s).get i
  digit_lt : ∀ s < t, ∀ i, (digits s).get i < p
  add_residual : ∀ i, (S.matrix.mulVec (expansion p digits t)).get i + p ^ t * residual.get i
    = S.right.get i
  residual_le : largestAbs residual ≤ max (largestAbs S.right) (n * S.matrix.maxAbs)

/-- The digits solve the system modulo the power of the prime. -/
theorem IsLifted.mulVec_modEq {S : LinearSystem n} {p : ℕ} {digits : ℕ → Vector ℤ n} {t : ℕ}
    {residual : Vector ℤ n} (h : IsLifted S p digits t residual) (i : Fin n) :
    (S.matrix.mulVec (expansion p digits t)).get i ≡ S.right.get i [ZMOD (p : ℤ) ^ t] := by
  rw [← h.add_residual i, Int.modEq_iff_dvd, add_sub_cancel_left]
  exact dvd_mul_right _ _

namespace Reference

section Residual

variable {A B : Mat n n} {p : ℕ} (hc : (Channel.mk p B).IsFor A)

include hc

/-- A bound for a residual that is no less than `n` times the largest entry of the matrix is a bound
for the next residual. -/
theorem abs_residualOf_le {r : Vector ℤ n} {bound : ℕ} (hbound : n * A.maxAbs ≤ bound)
    (hr : ∀ i, |r.get i| ≤ bound) (i : Fin n) : |(residualOf A B p r).get i| ≤ bound := by
  have hp : 0 < (p : ℤ) := by exact_mod_cast hc.prime.pos
  have hboundInt : (n * A.maxAbs : ℤ) ≤ bound := by exact_mod_cast hbound
  have hproduct := abs_mulVec_digitOf_le hc r i
  have hscaled : (p : ℤ) * |(residualOf A B p r).get i| ≤ p * bound := by
    calc (p : ℤ) * |(residualOf A B p r).get i| = |p * (residualOf A B p r).get i| := by
          rw [abs_mul, Nat.abs_cast]
      _ ≤ |r.get i| + |(A.mulVec (digitOf B p r)).get i| := by
          rw [mul_residualOf hc]
          exact abs_sub _ _
      _ ≤ bound + bound * (p - 1) :=
          add_le_add (hr i) (hproduct.trans (mul_le_mul_of_nonneg_right hboundInt (by omega)))
      _ = p * bound := by ring
  exact le_of_mul_le_mul_left hscaled hp

/-- Residuals stay below the larger of the right side and `n` times the largest entry of the matrix.
-/
theorem largestAbs_residualAt_le (r : Vector ℤ n) (t : ℕ) :
    largestAbs (residualAt A B p r t) ≤ max (largestAbs r) (n * A.maxAbs) := by
  refine largestAbs_le ?_
  induction t with
  | zero =>
    intro i
    have hle : (largestAbs r : ℤ) ≤ max (largestAbs r) (n * A.maxAbs) := by
      exact_mod_cast le_max_left _ _
    exact_mod_cast (abs_get_le_largestAbs r i).trans hle
  | succ t ih =>
    rw [residualAt_succ]
    exact abs_residualOf_le hc (le_max_right _ _) ih

/-- The exact digits and residuals have the property after every number of steps. -/
theorem isLifted_digitAt {S : LinearSystem n} (hA : S.matrix = A) (t : ℕ) :
    IsLifted S p (digitAt A B p S.right) t (residualAt A B p S.right t) where
  digit_nonneg := fun s _ i => (isBase_of_isFor hc).digitOf_nonneg _ i
  digit_lt := fun s _ i => (isBase_of_isFor hc).digitOf_lt _ i
  add_residual := by
    intro i
    rw [← (isBase_of_isFor hc).sum_digitAt S.right i t, Mat.get_mulVec, hA]
    simp only [expansion, get_ofFn]
  residual_le := by
    rw [hA]
    exact largestAbs_residualAt_le hc S.right t

end Residual

end Reference

/-! ## Runs -/

/-- The digits of step `t` in exact integers, for all primes. -/
def Run.digitsAt {l : ℕ} (run : Run n l) (t : ℕ) : Vector (Vector ℤ n) l :=
  Vector.ofFn fun j => Reference.digitAt run.system.matrix (run.inverses.get j) (run.primes.get j)
    (run.residuals.get j) t

/-- A run after `t` exact steps returns the digits at `t`. -/
theorem Run.IsAfter.next_eq_digitsAt {l : ℕ} {run later : Run n l} {t : ℕ}
    (h : run.IsAfter later t) (ht : run.position + t < run.plan.iterations) :
    later.next.1 = .ok (run.digitsAt t) := by
  obtain ⟨digits, hdigits, hget, -⟩ := h.next ht
  rw [hdigits]
  refine congrArg Except.ok (ext_get fun j => ?_)
  rw [hget, digitsAt, get_ofFn]

/-- A run starts with the checks that the settings ask for, and without a record. -/
theorem Run.settings_of_start {S : LinearSystem n} {settings : Settings} {plan : Plan n}
    {run : Run n plan.channels.length} (h : Run.start S settings plan = .ok run) :
    run.verifySteps = settings.verifies ∧ run.trace = [] := by
  obtain ⟨b, -, h⟩ := Outcome.bind_eq_ok.1 h
  obtain ⟨rows, -, h⟩ := Outcome.bind_eq_ok.1 h
  cases h
  exact ⟨rfl, rfl⟩

/-- The lift in exact integers for the primes of a run that has just started. -/
theorem Run.IsStart.digitsFor_eq_ok {S : LinearSystem n} {plan : Plan n}
    {run : Run n plan.channels.length} (h : Run.IsStart S plan run) :
    Reference.digitsFor run.system.matrix run.system.right (run.plan.primes.map Int.ofNat)
        run.plan.iterations
      = .ok ((List.range run.plan.iterations).map fun t => (run.digitsAt t).toList) := by
  have hchannels : plan.primes.map Int.ofNat = plan.channels.map fun c => (c.prime : ℤ) := by
    rw [Plan.primes, List.map_map]
    rfl
  have hfor : ∀ c ∈ plan.channels, c.IsFor S.matrix := by
    intro c hc
    obtain ⟨j, rfl⟩ := List.mem_iff_get.1 hc
    have hj := h.set_up.channel_for j
    rwa [h.primes_eq, h.inverses_eq, h.system_eq] at hj
  rw [h.system_eq, h.plan_eq, hchannels, Reference.digitsFor_eq_ok hfor]
  refine congrArg Except.ok (List.map_congr_left fun t _ => (toList_eq_map fun j => ?_).symm)
  rw [digitsAt, get_ofFn, h.system_eq, h.primes_eq, h.inverses_eq, h.residuals_eq]

/-- After every number of steps up to the last digit, the digits that the steps have emitted and the
residuals make up the right side, and the residuals are bounded. -/
theorem SomeRun.isLifted_after {a b : Nested} {settings : Settings} {choice : Selection.Choice}
    {supplied : List (ℤ × Nested)} {supply after : Supply} {r : SomeRun}
    (hsource : supply.source.IsGenuine)
    (hstart : SomeRun.start a b settings choice supplied supply = (.ok r, after)) :
    SomeSystem.read a b = .ok (.ofLinear r.run.system) ∧
    r.run.primes.toList = r.run.plan.primes ∧
    ∃ digits : ℕ → Vector (Vector ℤ r.size) r.width, ∀ t ≤ r.run.plan.iterations,
      (∀ s < t, (r.run.after s).next.1 = .ok (digits s)) ∧
      (r.run.after t).position = t ∧
      ∀ j, IsLifted r.run.system (r.run.primes.get j) (fun s => (digits s).get j) t
          ((r.run.after t).residuals.get j) ∧
        ∀ i, (r.run.system.matrix.mulVec
            (expansion (r.run.primes.get j) (fun s => (digits s).get j) t)).get i
          ≡ r.run.system.right.get i [ZMOD (r.run.primes.get j : ℤ) ^ t] := by
  obtain ⟨n, S, plan, run, hread, hselect, hrun, rfl⟩ := SomeRun.start_eq_ok hstart
  have hplan := Selection.isFor_of_selectFor hsource hselect
  have hrun := Run.isStart_of_start hplan hrun
  dsimp only
  refine ⟨hrun.system_eq ▸ hread, ?_, run.digitsAt, fun t ht => ?_⟩
  · rw [hrun.plan_eq]
    exact toList_eq_map hrun.primes_eq
  -- All states up to `t` are exact, so their digits and residuals are those of the lift.
  have hafter : ∀ s ≤ t, run.IsAfter (run.after s) s := fun s hs =>
    Run.isAfter_after hrun.set_up (by rw [hrun.position_eq]; omega)
  refine ⟨fun s hs => ?_, ?_, fun j => ?_⟩
  · exact (hafter s hs.le).next_eq_digitsAt (by rw [hrun.position_eq]; omega)
  · rw [(hafter t le_rfl).position_eq, hrun.position_eq, zero_add]
  · have hlifted : IsLifted run.system (run.primes.get j) (fun s => (run.digitsAt s).get j) t
        ((run.after t).residuals.get j) := by
      have hright : run.residuals.get j = run.system.right := by
        rw [hrun.residuals_eq, hrun.system_eq]
      simp only [Run.digitsAt, get_ofFn]
      rw [(hafter t le_rfl).residual_eq, hright]
      exact Reference.isLifted_digitAt (hrun.set_up.channel_for j) rfl t
    exact ⟨hlifted, hlifted.mulVec_modEq⟩

/-- The system `2 x + y = 3`, `x + 3 y = -5`, lifted in the bases 7 and 11 with residues modulo
101. -/
theorem SomeRun.isLifted_after_two_primes : ∃ r after,
    SomeRun.start (.list [.list [.entry 2, .entry 1], .list [.entry 1, .entry 3]])
      (.list [.entry 3, .entry (-5)]) {} (.given [11, 7]) [] (.ofSource (.listed 1 7 [101]))
      = (.ok r, after) ∧
    r.run.plan.primes = [7, 11] ∧ r.run.plan.iterations = 2 ∧
    ∃ digits : ℕ → Vector (Vector ℤ r.size) r.width, ∀ t ≤ 2, (r.run.after t).position = t ∧
      ∀ j, IsLifted r.run.system (r.run.primes.get j) (fun s => (digits s).get j) t
        ((r.run.after t).residuals.get j) := by
  have hsource : (Supply.ofSource (.listed 1 7 [101])).source.IsGenuine :=
    PrimeSource.isGenuine_of_all (by decide +kernel)
  have hplan : (SomeRun.start (.list [.list [.entry 2, .entry 1], .list [.entry 1, .entry 3]])
      (.list [.entry 3, .entry (-5)]) {} (.given [11, 7]) []
      (.ofSource (.listed 1 7 [101]))).1.map
      (fun r => (r.run.plan.primes, r.run.plan.iterations)) = .ok ([7, 11], 2) := by
    decide +kernel
  generalize hstart : SomeRun.start _ _ _ _ _ _ = outcome at hplan
  obtain ⟨result, after⟩ := outcome
  obtain ⟨r, rfl, hr⟩ := Outcome.map_eq_ok.1 hplan
  rw [Prod.mk.injEq] at hr
  obtain ⟨-, -, digits, hlifted⟩ := SomeRun.isLifted_after hsource hstart
  refine ⟨r, after, rfl, hr.1, hr.2, digits, fun t ht => ?_⟩
  obtain ⟨-, hposition, hall⟩ := hlifted t (by omega)
  exact ⟨hposition, fun j => (hall j).1⟩

end PadicLift
