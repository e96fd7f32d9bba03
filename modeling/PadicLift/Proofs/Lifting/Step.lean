import PadicLift.Proofs.Lifting.Run

/-!
# What one step can do

A step looks at its corrections twice: it checks them, prime by prime, and it adds them to the
quotients. So what a step does is known from the corrections alone, wherever they come from
(`nextWith`). Either it fails, and nothing of the run has changed, or all checks have succeeded, and
the run has advanced.
-/

namespace PadicLift

variable {n l : ℕ}

/-- The fault says that the correction for the prime `p` in the step with the given position has
failed a check. -/
def Fault.IsFailedCheck (p position : ℕ) : Fault → Prop
  | .lifting (.correctionTooLarge q t _ _) => q = p ∧ t = position
  | .lifting (.indivisible q t) => q = p ∧ t = position
  | .lifting (.correctionMismatch q t) => q = p ∧ t = position
  | _ => False

namespace Run

variable {run : Run n l} {corrections : Mat n l}

/-! ## Checks -/

section Checks

variable {p : ℕ} {remainder digit correction : Vector ℤ n}

theorem isFailedCheck_of_checkSize {f : Fault} (h : run.checkSize p correction = .error f) :
    f.IsFailedCheck p run.position := by
  unfold checkSize at h
  split at h
  · dsimp only at h
    split at h
    · cases h
      exact ⟨rfl, rfl⟩
    · cases h
  · cases h

theorem isFailedCheck_of_checkExact {f : Fault}
    (h : run.checkExact p remainder digit correction = .error f) :
    f.IsFailedCheck p run.position := by
  unfold checkExact at h
  dsimp only at h
  split at h
  · cases h
    exact ⟨rfl, rfl⟩
  · split at h
    · cases h
      exact ⟨rfl, rfl⟩
    · cases h

theorem isFailedCheck_of_checkCorrection {f : Fault}
    (h : run.checkCorrection p remainder digit correction = .error f) :
    f.IsFailedCheck p run.position := by
  unfold checkCorrection at h
  rcases Outcome.bind_eq_error.1 h with hsize | ⟨u, hsize, hexact⟩
  · exact isFailedCheck_of_checkSize hsize
  · split at hexact
    · exact isFailedCheck_of_checkExact hexact
    · cases hexact

end Checks

/-! ## Steps with given corrections -/

/-- The checks of a step with the given corrections, prime by prime. -/
def checkAll (run : Run n l) (corrections : Mat n l) : Except Fault Unit :=
  (List.finRange l).forM fun j =>
    run.checkCorrection (run.primes.get j) (run.remainders.get j) (run.digits.get j)
      (corrections.column j)

/-- The next step, if the corrections are the given ones. -/
def nextWith (run : Run n l) (corrections : Mat n l) :
    Except Fault (Vector (Vector ℤ n) l) × Run n l :=
  match run.fault? with
  | some f => (.error f, run)
  | none =>
    match run.checkAll corrections with
    | .error f => (.error f, run)
    | .ok _ => (.ok run.digits, run.advance corrections)

theorem next_eq_nextWith (run : Run n l) :
    run.next = run.nextWith (run.corrections run.remainders run.digits) := rfl

/-- A step that returns has passed all checks. -/
theorem nextWith_eq_ok {digits : Vector (Vector ℤ n) l} {later : Run n l}
    (h : run.nextWith corrections = (.ok digits, later)) :
    run.fault? = none ∧
      (∀ j, run.checkCorrection (run.primes.get j) (run.remainders.get j) (run.digits.get j)
        (corrections.column j) = .ok ()) ∧
      digits = run.digits ∧ later = run.advance corrections := by
  unfold nextWith at h
  split at h
  · cases h
  next hfault =>
    split at h
    · cases h
    next u hchecked =>
      cases h
      exact ⟨hfault, fun j => Outcome.forM_eq_ok_iff.1 hchecked j (List.mem_finRange j), rfl, rfl⟩

/-- A step that fails leaves the run as it was. Either there is no next step, or a check fails. -/
theorem nextWith_eq_error {f : Fault} {later : Run n l}
    (h : run.nextWith corrections = (.error f, later)) :
    later = run ∧ (run.fault? = some f ∨
      run.fault? = none ∧ ∃ j, f.IsFailedCheck (run.primes.get j) run.position) := by
  unfold nextWith at h
  split at h
  next hfault =>
    cases h
    exact ⟨rfl, .inl hfault⟩
  next hfault =>
    split at h
    next hchecked =>
      cases h
      obtain ⟨j, -, hj⟩ := Outcome.exists_mem_of_forM_eq_error hchecked
      exact ⟨rfl, .inr ⟨hfault, j, isFailedCheck_of_checkCorrection hj⟩⟩
    · cases h

/-- There is a next step of an open run that has digits left. -/
theorem fault?_eq_none : run.fault? = none ↔
    run.isOpen = true ∧ run.position < run.plan.iterations := by
  unfold fault? exhausted
  cases run.isOpen <;> simp

/-- A step is refused after closing and after the last digits, with these faults. -/
theorem fault?_eq_some {f : Fault} (h : run.fault? = some f) :
    (run.isOpen = false ∧ f = .lifting .closed) ∨
      (run.isOpen = true ∧ run.plan.iterations ≤ run.position ∧
        f = .lifting (.digitsExhausted run.plan.iterations)) := by
  unfold fault? exhausted at h
  split at h
  next hclosed =>
    cases h
    exact .inl ⟨by simpa using hclosed, rfl⟩
  next hopen =>
    split at h
    next hexhausted =>
      cases h
      exact .inr ⟨by simpa using hopen, by simpa using hexhausted, rfl⟩
    next => cases h

end Run
end PadicLift
