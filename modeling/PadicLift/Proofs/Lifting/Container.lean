import PadicLift.Lifting.Container
import PadicLift.Proofs.Lifting.Step

/-!
# A container takes the steps of its run

What the arrays of a container hold before a step has no influence on it (`next_eq`). The first pass
writes everything that is read later: after it, each prime that it has been through has its places
filled from the run alone (`IsFilled`), and it goes through all primes. The second pass only writes
the new residuals, and these are read only if it goes through all primes as well.
-/

namespace PadicLift

variable {n l : ℕ}

theorem get_set {α : Type} (v : Vector α l) (j k : Fin l) (x : α) :
    (v.set j.val x j.isLt).get k = if k = j then x else v.get k := by
  show (v.set j.val x j.isLt)[k] = if k = j then x else v[k]
  rw [Fin.getElem_fin, Fin.getElem_fin, Vector.getElem_set j.isLt k.isLt]
  by_cases h : k = j
  · rw [if_pos h, if_pos (by rw [h])]
  · rw [if_neg h, if_neg fun hval => h (Fin.ext hval.symm)]

theorem Buffers.entry_setColumn {k m : ℕ} (X : Planes k m l) (j c : Fin l) (values : Vector ℤ m)
    (h : Fin k) (i : Fin m) : ((setColumn X j values).get h).entry i c
      = if c = j then values.get i else (X.get h).entry i c := by
  rw [setColumn, get_map, Mat.entry_ofFn]

namespace Container

variable {run : Run n l} {x : Buffers run.basis.size n l} {corrections : Mat n l}

/-! ## The first pass -/

/-- The places of the prime `k` are filled for the next step of the run. -/
structure IsFilled (run : Run n l) (x : Buffers run.basis.size n l) (k : Fin l) : Prop where
  quotient_eq : x.quotients.get k = run.quotients.get k
  remainder_eq : x.remainders.get k = run.remainders.get k
  digit_eq : x.digits.get k = run.digits.get k
  product_eq : ∀ h i, (x.product.get h).entry i k = (run.remainders.get k).get i
  factor_eq : ∀ h i, (x.factors.get h).entry i k = (run.digits.get k).get i

/-- One prime of the pass fills the places of that prime, and leaves those of the others. -/
theorem isFilled_prepare {j k : Fin l} (h : k = j ∨ IsFilled run x k) :
    IsFilled run (prepare run x j) k := by
  by_cases hk : k = j
  · subst hk
    constructor
    · simp only [prepare, get_set, Run.quotients, get_ofFn, if_true]
    · simp only [prepare, get_set, Run.remainders, get_ofFn, if_true]
    · simp only [prepare, get_set, Run.digits, Run.remainders, get_ofFn, if_true]
    · intro h i
      simp only [prepare, Buffers.entry_setColumn, get_set, Run.remainders, get_ofFn, if_true]
    · intro h i
      simp only [prepare, Buffers.entry_setColumn, get_set, Run.digits, Run.remainders, get_ofFn,
        if_true]
  · have hx := h.resolve_left hk
    constructor
    · simp [prepare, get_set, hk, hx.quotient_eq]
    · simp [prepare, get_set, hk, hx.remainder_eq]
    · simp [prepare, get_set, hk, hx.digit_eq]
    · intro h i
      simp [prepare, Buffers.entry_setColumn, hk, hx.product_eq]
    · intro h i
      simp [prepare, Buffers.entry_setColumn, hk, hx.factor_eq]

/-- Preparing a column fills it, and leaves filled columns filled. -/
theorem isFilled_foldl_prepare {k : Fin l} (js : List (Fin l)) (h : k ∈ js ∨ IsFilled run x k) :
    IsFilled run (js.foldl (prepare run) x) k := by
  induction js generalizing x with
  | nil => exact h.resolve_left List.not_mem_nil
  | cons j rest ih =>
    rw [List.mem_cons, or_assoc] at h
    rw [List.foldl_cons]
    rcases h with hk | hk | hk
    · exact ih (.inr (isFilled_prepare (.inl hk)))
    · exact ih (.inl hk)
    · exact ih (.inr (isFilled_prepare (.inr hk)))

/-- Arrays that are filled for all primes hold what a step of the run computes. -/
theorem eq_of_isFilled (h : ∀ k, IsFilled run x k) :
    x.quotients = run.quotients ∧ x.remainders = run.remainders ∧ x.digits = run.digits ∧
      x.product = run.basis.spread run.remainders ∧ x.factors = run.basis.spread run.digits := by
  refine ⟨ext_get fun k => (h k).quotient_eq, ext_get fun k => (h k).remainder_eq,
    ext_get fun k => (h k).digit_eq, ext_get fun g => Mat.ext_entry fun i k => ?_,
    ext_get fun g => Mat.ext_entry fun i k => ?_⟩
  · rw [(h k).product_eq, Basis.spread, get_replicate, Mat.entry_ofColumns]
  · rw [(h k).factor_eq, Basis.spread, get_replicate, Mat.entry_ofColumns]

/-! ## The second pass -/

/-- The residual that the second pass computes for the prime `k`. -/
def newResidual (corrections : Mat n l) (quotients : Vector (Vector ℤ n) l) (k : Fin l) :
    Vector ℤ n :=
  Vector.ofFn fun i => (quotients.get k).get i + corrections.entry i k

/-- The checks of the second pass, prime by prime. -/
def check (run : Run n l) (corrections : Mat n l) (x : Buffers run.basis.size n l) (j : Fin l) :
    Except Fault Unit :=
  run.checkCorrection (run.primes.get j) (x.remainders.get j) (x.digits.get j)
    (corrections.column j)

/-- A second pass that goes through its primes has written their new residuals, and nothing else. -/
theorem settle_of_ok (js : List (Fin l)) (x : Buffers run.basis.size n l)
    (h : ∀ j ∈ js, check run corrections x j = .ok ()) :
    ∃ spare, settle run corrections js x = (.ok (), { x with spare }) ∧
      ∀ k, spare.get k =
        if k ∈ js then newResidual corrections x.quotients k else x.spare.get k := by
  induction js generalizing x with
  | nil => exact ⟨x.spare, rfl, fun k => (if_neg List.not_mem_nil).symm⟩
  | cons j rest ih =>
    rw [List.forall_mem_cons] at h
    obtain ⟨hj, hrest⟩ := h
    unfold check at hj
    obtain ⟨spare, hsettle, hspare⟩ :=
      ih { x with spare := x.spare.set j.val (newResidual corrections x.quotients j) j.isLt } hrest
    refine ⟨spare, ?_, fun k => ?_⟩
    · rw [settle, hj]
      exact hsettle
    · rw [hspare]
      dsimp only
      rw [get_set]
      by_cases hk : k = j
      · subst hk
        simp
      · simp [hk]

/-- A second pass that fails has written new residuals at most. -/
theorem settle_of_error {f : Fault} (js : List (Fin l)) (x : Buffers run.basis.size n l)
    (h : js.forM (check run corrections x) = .error f) :
    ∃ spare, settle run corrections js x = (.error f, { x with spare }) := by
  induction js generalizing x with
  | nil => cases h
  | cons j rest ih =>
    rw [List.forM_eq_forM, List.forM_cons, Outcome.bind_eq_error, ← List.forM_eq_forM] at h
    rcases h with hj | ⟨u, hj, hrest⟩
    · unfold check at hj
      refine ⟨x.spare, ?_⟩
      rw [settle, hj]
    · unfold check at hj
      obtain ⟨spare, hsettle⟩ :=
        ih { x with spare := x.spare.set j.val (newResidual corrections x.quotients j) j.isLt }
          hrest
      refine ⟨spare, ?_⟩
      rw [settle, hj]
      exact hsettle

/-! ## The whole step -/

/-- A step of a container is a step of its run, whatever its arrays hold. -/
theorem next_eq (x : Container n l) : x.next.1 = x.run.next.1 ∧ x.next.2.run = x.run.next.2 := by
  set prepared := (List.finRange l).foldl (prepare x.run) x.buffers with hprepared
  obtain ⟨hquotients, hremainders, hdigits, hproduct, hfactors⟩ := eq_of_isFilled
    (x := prepared) fun k => isFilled_foldl_prepare _ (.inl (List.mem_finRange k))
  set corrections := x.run.corrections x.run.remainders x.run.digits with hcorrections
  -- All columns are filled before they are read, so nothing is left of the old arrays.
  have hdecoded : x.run.basis.decodeMat (multiply x.run prepared).product = corrections := by
    simp only [multiply, Basis.multiplyIn_fst, hproduct, hfactors, hcorrections, Run.corrections,
      Run.correctionsFor]
  have hcheck : (List.finRange l).forM (check x.run corrections (multiply x.run prepared))
      = x.run.checkAll corrections := by
    simp only [Run.checkAll, multiply, hremainders, hdigits]
    rfl
  rw [Run.next_eq_nextWith, ← hcorrections]
  unfold next Run.nextWith
  cases x.run.fault? with
  | some f => exact ⟨rfl, rfl⟩
  | none =>
    dsimp only
    rw [← hprepared, hdecoded]
    cases hall : x.run.checkAll corrections with
    | error f =>
      -- A failed check leaves the residuals in place; only the spare ones have been written.
      obtain ⟨spare, hsettle⟩ := settle_of_error _ (multiply x.run prepared) (hcheck.trans hall)
      rw [hsettle]
      exact ⟨rfl, rfl⟩
    | ok u =>
      obtain ⟨spare, hsettle, hspare⟩ := settle_of_ok (List.finRange l) (multiply x.run prepared)
        (Outcome.forM_eq_ok_iff.1 (hcheck.trans hall))
      rw [hsettle]
      have hresiduals : spare = (x.run.advance corrections).residuals := by
        refine ext_get fun k => ?_
        rw [hspare, if_pos (List.mem_finRange k), newResidual, Run.advance]
        dsimp only [multiply]
        rw [get_ofFn, hquotients]
      refine ⟨congrArg Except.ok hdigits, ?_⟩
      show (exchange x.run { multiply x.run prepared with spare }).run = _
      rw [exchange, hresiduals]
      rfl

end Container
end PadicLift
