import Mathlib.Data.Int.Notation
import Mathlib.Data.Nat.Notation
import PadicLift.Log.Journal

/-!
# Journals do not change what is solved

An observer is shown every step and may stop a solve. One that accepts every record, in all states
that it can come to, leaves the result as it is without any observer (`endsAs_solveWith`). An open
journal is such an observer, since every record of a step or of a solution can be written down.
-/

namespace PadicLift

variable {ρ σ : Type} {observe : Solution.Observer σ} {P : σ → Prop}

namespace Solution

/-- The observer accepts every record while the condition holds, and the condition stays. -/
def Accepts (observe : Observer σ) (P : σ → Prop) : Prop :=
  ∀ s record, P s → (observe s record).1 = .ok () ∧ P (observe s record).2

/-- The first ends as the second one does, and in a state with the condition. -/
def EndsAs {α : Type} (P : σ → Prop) (x : Except Fault α × σ) (y : Except Fault α) : Prop :=
  x.1 = y ∧ P x.2

variable (hobserve : Accepts observe P)
include hobserve

/-- The observer does not change what the loop over the digits collects, -/
theorem endsAs_collect (next : ρ → Except Fault (Step ρ)) (fuel : ℕ) (run : ρ) (acc : Accumulator)
    {s : σ} (hs : P s) :
    EndsAs P (collect observe next fuel run acc s) (collect noObserver next fuel run acc ()).1 := by
  induction fuel generalizing run acc s with
  | zero => exact ⟨rfl, hs⟩
  | succ fuel ih =>
    unfold collect
    cases next run with
    | error f => exact ⟨rfl, hs⟩
    | ok taken =>
      dsimp only
      cases taken.record? with
      | none =>
        dsimp only
        split
        · exact ⟨rfl, hs⟩
        · exact ih _ _ hs
      | some record =>
        obtain ⟨hverdict, hafter⟩ := hobserve s record hs
        dsimp only [noObserver]
        rw [hverdict]
        dsimp only
        split
        · exact ⟨rfl, hafter⟩
        · exact ih _ _ hafter

/-- nor how a run ends. -/
theorem endsAs_ofRun {n : ℕ} (next : ρ → Except Fault (Step ρ)) (plan : Plan n)
    (start : Except Fault ρ) {s : σ} (hs : P s) :
    EndsAs P (ofRun observe next plan start s) (ofRun noObserver next plan start ()).1 := by
  unfold ofRun
  cases start with
  | error f => exact ⟨rfl, hs⟩
  | ok run =>
    have hcollect := endsAs_collect hobserve next plan.iterations run
      (Accumulator.start (plan.primes.map Int.ofNat) n) hs
    dsimp only
    generalize collect observe next plan.iterations run _ s = seen,
      collect noObserver next plan.iterations run _ () = unseen at hcollect ⊢
    obtain ⟨result, after⟩ := seen
    obtain ⟨unseen, _⟩ := unseen
    obtain ⟨rfl, hafter⟩ := hcollect
    cases result with
    | error f => exact ⟨rfl, hafter⟩
    | ok acc => exact ⟨rfl, hafter⟩

/-- A solve before such an observer has the result of a solve before none. -/
theorem endsAs_solveWith (a b : Nested) (settings : Settings) (choice : Selection.Choice)
    (supplied : List (ℤ × Nested)) (supply : Supply) {s : σ} (hs : P s) :
    (solveWith observe a b settings choice supplied supply s).1
        = (solve a b settings choice supplied supply).1 ∧
      P (solveWith observe a b settings choice supplied supply s).2.2 := by
  unfold solve solveWith
  cases SomeSystem.read a b with
  | error f => exact ⟨rfl, hs⟩
  | ok S =>
    dsimp only
    split
    · exact ⟨rfl, hs⟩
    · dsimp only
      cases S.contents with
      | integers L => exact endsAs_ofRun hobserve _ _ _ hs
      | numbers M => exact endsAs_ofRun hobserve _ _ _ hs
      | other => exact ⟨rfl, hs⟩

end Solution

/-! ## Journals -/

namespace Journal

/-- The journal takes records. -/
structure IsReady (j : Journal) : Prop where
  is_open : j.isOpen = true
  flushEvery_ne : j.flushEvery ≠ 0

theorem isReady_new : ({} : Journal).IsReady := ⟨rfl, by decide⟩

/-- A mapping can be written down. -/
theorem addStep_of_isReady {j : Journal} (hj : j.IsReady) (fields : Document.Fields) :
    (j.addStep (.mapping fields)).1 = .ok () ∧ (j.addStep (.mapping fields)).2.IsReady := by
  unfold addStep
  rw [show recordWithout _ (.mapping fields) = .ok _ from rfl]
  dsimp only
  rw [hj.is_open, Bool.not_true, if_neg Bool.false_ne_true, if_neg hj.flushEvery_ne]
  split
  · exact ⟨rfl, rfl, hj.flushEvery_ne⟩
  · exact ⟨rfl, rfl, hj.flushEvery_ne⟩

/-- A ready journal takes the records of a run, and stays ready. -/
theorem accepts_observer : Solution.Accepts observer IsReady := by
  intro j record hj
  exact addStep_of_isReady hj _

/-- What an open journal is kept of ends as it ends without. -/
theorem solve_eq {j : Journal} (hj : j.IsReady) (a b : Nested) (settings : Settings)
    (choice : Selection.Choice) (supplied : List (ℤ × Nested)) (supply : Supply) :
    (j.solve a b settings choice supplied supply).1
      = (Solution.solve a b settings choice supplied supply).1 := by
  obtain ⟨hresult, hafter⟩ :=
    Solution.endsAs_solveWith accepts_observer a b settings choice supplied supply hj
  rw [← hresult]
  unfold Journal.solve
  generalize Solution.solveWith observer a b settings choice supplied supply j = outcome
    at hafter ⊢
  obtain ⟨result, after, seen⟩ := outcome
  cases result with
  | error f => rfl
  | ok x =>
    have hadd : (seen.addSolution x.toDocument).1 = .ok () := by
      unfold addSolution
      rw [show recordWithout _ x.toDocument = .ok _ from rfl]
      dsimp only
      rw [hafter.is_open, Bool.not_true, if_neg Bool.false_ne_true]
    dsimp only
    generalize seen.addSolution x.toDocument = added at hadd ⊢
    obtain ⟨added, last⟩ := added
    cases hadd
    rfl

end Journal
end PadicLift
