import PadicLift.Proofs.Lifting.Run
import PadicLift.Proofs.System

/-!
# Runs refine the lift in exact integers

A run that was started from nested lists is set up from a plan for the system that they describe.
So every step up to the last digit succeeds, whatever is checked, and emits exactly the digits of
`Reference.digitsFor` for the lifting primes. No basis occurs there: the digits do not depend on it.
-/

namespace PadicLift

variable {n : ℕ}

/-! ## Starting a run -/

/-- A run reads its table of inverses from an array of arrays. -/
theorem getD_toArray (rows : List (List ℤ)) (g j : ℕ) :
    ((rows.map List.toArray).toArray.getD g #[]).getD j 0 = (rows.getD g []).getD j 0 := by
  simp only [Array.getD_eq_getD_getElem?, List.getElem?_toArray, List.getElem?_map,
    List.getD_eq_getElem?_getD]
  cases rows[g]? with
  | none => rfl
  | some row => simp

/-- What a run from a plan starts with. -/
structure Run.IsStart (S : LinearSystem n) (plan : Plan n)
    (run : Run n plan.channels.length) : Prop where
  set_up : run.IsSetUp
  system_eq : run.system = S
  plan_eq : run.plan = plan
  primes_eq : ∀ j, run.primes.get j = (plan.channels.get j).prime
  inverses_eq : ∀ j, run.inverses.get j = (plan.channels.get j).inverse
  residuals_eq : ∀ j, run.residuals.get j = S.right
  position_eq : run.position = 0

/-- A run that is started holds the system and the channels of its plan, at position 0. -/
theorem Run.isStart_of_start {S : LinearSystem n} {settings : Settings} {plan : Plan n}
    (hplan : plan.IsFor S) {run : Run n plan.channels.length}
    (h : Run.start S settings plan = .ok run) : Run.IsStart S plan run := by
  obtain ⟨b, hb, h⟩ := Outcome.bind_eq_ok.1 h
  obtain ⟨rows, hrows, h⟩ := Outcome.bind_eq_ok.1 h
  obtain ⟨hwell, hmoduli⟩ := Basis.wellFormed_of_ofList hb
  -- The basis is built from the moduli of the plan and keeps them in their order.
  have hbasis : b.moduli.toList = plan.basis :=
    List.map_injective_iff.2 (fun _ _ => Int.ofNat_inj.1) hmoduli
  cases h
  have hentry : ∀ (g : Fin b.size) (j : Fin plan.channels.length),
      let v := ((rows.map List.toArray).toArray.getD g #[]).getD j 0
      |v| < b.moduli.get g ∧ v * (plan.channels.get j).prime ≡ 1 [ZMOD b.moduli.get g] := by
    intro g j
    have hj : j.val < (plan.primes.map Int.ofNat).length := by
      rw [Plan.primes, List.length_map, List.length_map]
      exact j.isLt
    have hinverse := hwell.getD_inverseTable hrows g ⟨j, hj⟩
    have hnumber : (plan.primes.map Int.ofNat).get ⟨j, hj⟩ = (plan.channels.get j).prime := by
      simp [Plan.primes]
    rw [hnumber] at hinverse
    rw [getD_toArray]
    exact hinverse
  have hchannel : ∀ j, (plan.channels.get j).IsFor S.matrix := fun j =>
    hplan.moduli.channels_for _ (List.get_mem _ j)
  refine ⟨⟨hplan, hwell, rfl, ?_, ?_, ?_, ?_, ?_, rfl⟩, rfl, rfl, ?_, ?_, ?_, rfl⟩
  · intro g j
    rw [Mat.entry_ofFn]
    exact (hentry g j).1
  · intro g j
    rw [Mat.entry_ofFn, get_ofFn]
    exact (hentry g j).2
  · intro j
    simp only [get_ofFn]
    exact hchannel j
  · intro g j
    have hmem : b.moduli.get g ∈ plan.basis := hbasis ▸ mem_toList_iff.2 ⟨g, rfl⟩
    rw [get_ofFn]
    exact hplan.moduli.lt_basis _ (List.get_mem _ j) _ hmem
  · show _ < Basis.productOf b.moduli.toList
    rw [hbasis]
    exact hplan.covers
  · exact fun j => get_ofFn _ j
  · exact fun j => get_ofFn _ j
  · exact fun j => get_replicate _ j

/-- Only systems of integers that are read as such have integers for their contents. -/
theorem SomeSystem.eq_ofLinear_of_read {a b : Nested} {S : SomeSystem} {L : LinearSystem S.size}
    (h : read a b = .ok S) (hL : S.contents = .integers L) :
    S.profile = L.profile ∧ S = ofLinear L := by
  cases isReadFrom_of_read h with
  | integers =>
    cases hL
    exact ⟨rfl, rfl⟩
  | cells _ _ _ _ hcontents =>
    obtain rfl | ⟨us, vs, -, -, rfl⟩ := hcontents
    · cases hL
    · cases hL

theorem SomeSystem.ofLinear_injective {m : ℕ} {S : LinearSystem n} {L : LinearSystem m}
    (h : ofLinear S = ofLinear L) : (⟨n, S⟩ : Σ k, LinearSystem k) = ⟨m, L⟩ := by
  obtain ⟨rfl, -, hcontents⟩ := SomeSystem.mk.inj h
  rw [Contents.integers.inj (eq_of_heq hcontents)]

/-- How a run is started: from the system that nested lists describe and a plan for it. -/
theorem SomeRun.start_eq_ok {a b : Nested} {settings : Settings} {choice : Selection.Choice}
    {supplied : List (ℤ × Nested)} {supply after : Supply} {r : SomeRun}
    (h : SomeRun.start a b settings choice supplied supply = (.ok r, after)) :
    ∃ (n : ℕ) (S : LinearSystem n) (plan : Plan n) (run : Run n plan.channels.length),
      SomeSystem.read a b = .ok (.ofLinear S) ∧
      Selection.selectFor S.profile settings choice supplied supply = (.ok plan, after) ∧
      Run.start S settings plan = .ok run ∧ r = ⟨n, _, run⟩ := by
  unfold start at h
  split at h
  · cases h
  next S hread =>
    split at h
    · cases h
    next plan after' L hselect hcontents =>
      obtain ⟨hprofile, hS⟩ := SomeSystem.eq_ofLinear_of_read hread hcontents
      rw [Prod.mk.injEq] at h
      obtain ⟨hstart, rfl⟩ := h
      obtain ⟨run, hrun, rfl⟩ := Outcome.map_eq_ok.1 hstart
      rw [hprofile] at hselect
      exact ⟨S.size, L, plan, run, hread.trans (congrArg Except.ok hS), hselect, hrun, rfl⟩
    · cases h

/-! ## The steps of a run -/

/-- Every step of a run up to the last digit succeeds and emits the digits of the lift in exact
integers, and the residuals after it are the exact quotients. -/
theorem SomeRun.next_eq_digitsFor {a b : Nested} {settings : Settings} {choice : Selection.Choice}
    {supplied : List (ℤ × Nested)} {supply after : Supply} {r : SomeRun}
    (hsource : supply.source.IsGenuine)
    (hstart : SomeRun.start a b settings choice supplied supply = (.ok r, after)) :
    SomeSystem.read a b = .ok (.ofLinear r.run.system) ∧
    ∃ digits : List (List (Vector ℤ r.size)),
      Reference.digitsFor r.run.system.matrix r.run.system.right
        (r.run.plan.primes.map Int.ofNat) r.run.plan.iterations = .ok digits ∧
      digits.length = r.run.plan.iterations ∧
      ∀ t (ht : t < digits.length), ∃ emitted : Vector (Vector ℤ r.size) r.width,
        (r.run.after t).next.1 = .ok emitted ∧ emitted.toList = digits[t] ∧
        ∀ j i, r.run.primes.get j * ((r.run.after (t + 1)).residuals.get j).get i
          = ((r.run.after t).residuals.get j).get i
            - (r.run.system.matrix.mulVec (emitted.get j)).get i := by
  obtain ⟨n, S, plan, run, hread, hselect, hrun, rfl⟩ := SomeRun.start_eq_ok hstart
  have hplan := Selection.isFor_of_selectFor hsource hselect
  have hrun := Run.isStart_of_start hplan hrun
  have hdigits := Reference.digitsFor_eq_ok hplan.moduli.channels_for S.right plan.iterations
  have hchannels : plan.primes.map Int.ofNat
      = plan.channels.map fun c => (c.prime : ℤ) := by
    rw [Plan.primes, List.map_map]
    rfl
  refine ⟨hrun.system_eq ▸ hread, ?_⟩
  dsimp only
  rw [hrun.system_eq, hrun.plan_eq, hchannels]
  refine ⟨_, hdigits, by rw [List.length_map, List.length_range], fun t ht => ?_⟩
  rw [List.length_map, List.length_range] at ht
  have hposition : run.position + t < run.plan.iterations := by
    rw [hrun.position_eq, hrun.plan_eq]
    omega
  -- The state after `t` steps is the exact one, so one more step can be told.
  have hbefore := Run.isAfter_after hrun.set_up hposition.le
  obtain ⟨emitted, hemitted, hdigit, hafter⟩ := hbefore.next hposition
  refine ⟨emitted, hemitted, ?_, fun j i => ?_⟩
  · rw [List.getElem_map, List.getElem_range]
    refine toList_eq_map fun j => ?_
    rw [hdigit, hrun.system_eq, hrun.primes_eq, hrun.inverses_eq, hrun.residuals_eq]
  · have hstep := Run.isAfter_after hrun.set_up (t := t + 1) (by omega)
    rw [hstep.residual_eq, hbefore.residual_eq, hdigit, Reference.residualAt_succ,
      Reference.mul_residualOf (hrun.set_up.channel_for j), hrun.system_eq]
    rfl

/-- The system `2 x + y = 3`, `x + 3 y = 5`, lifted in base 7 with residues modulo 101. -/
theorem SomeRun.next_eq_digitsFor_two_unknowns : ∃ r after,
    SomeRun.start (.list [.list [.entry 2, .entry 1], .list [.entry 1, .entry 3]])
      (.list [.entry 3, .entry 5]) {} (.given [7]) [] (.ofSource (.listed 1 7 [101]))
      = (.ok r, after) ∧
    r.run.plan.iterations = 4 ∧
    ∀ t < 4, ∃ emitted, (r.run.after t).next.1 = .ok emitted := by
  have hsource : (Supply.ofSource (.listed 1 7 [101])).source.IsGenuine := by
    intro p hp
    rw [List.mem_singleton.1 hp]
    decide +kernel
  have hcount : (SomeRun.start (.list [.list [.entry 2, .entry 1], .list [.entry 1, .entry 3]])
      (.list [.entry 3, .entry 5]) {} (.given [7]) [] (.ofSource (.listed 1 7 [101]))).1.map
      (fun r => r.run.plan.iterations) = .ok 4 := by decide +kernel
  generalize hstart : SomeRun.start _ _ _ _ _ _ = outcome at hcount
  obtain ⟨result, after⟩ := outcome
  obtain ⟨r, rfl, hiterations⟩ := Outcome.map_eq_ok.1 hcount
  obtain ⟨-, digits, -, hlength, hsteps⟩ := SomeRun.next_eq_digitsFor hsource hstart
  refine ⟨r, after, rfl, hiterations, fun t ht => ?_⟩
  obtain ⟨emitted, hemitted, -⟩ := hsteps t (by omega)
  exact ⟨emitted, hemitted⟩

end PadicLift
