import PadicLift.Proofs.Plan.Faults
import PadicLift.Proofs.Prime.Draws

/-!
# How draws fail

Draws that can be made at all (`PrimePool.CanDraw`) end because no further prime comes, or because
the last prime that was handed out is too large (`PrimeSource.EndsIn`). An allowance that is no
number, or a source of primes of no size, lets nobody draw, and then the source is left as it is.
-/

namespace PadicLift

variable {f : Fault}

theorem two_le_of_isPrime {p : ℕ} (hp : isPrime p = true) : 2 ≤ p := by
  have hzero : isPrime 0 ≠ true := by decide
  have hone : isPrime 1 ≠ true := by decide
  by_contra hlt
  interval_cases p
  · exact hzero hp
  · exact hone hp

/-- A number from 2 up that is no modulus is too large. -/
theorem modulusTooLarge_of_two_le {p : ℕ} (hp : 2 ≤ p) (h : checkModulus p = .error f) :
    maxModulus < p ∧ f = .lifting (.modulusTooLarge p) := by
  unfold checkModulus at h
  rw [if_neg (by omega)] at h
  split at h <;> cases h
  exact ⟨by omega, rfl⟩

namespace PrimeSource

variable {source middle after : PrimeSource} {ps : List ℕ}

/-- The source promises primes of a size that no prime has. -/
def IsIdle : PrimeSource → Prop
  | .idle .. => True
  | _ => False

/-- A source that is not idle stays so, and fails only for want of primes. -/
theorem not_isIdle_of_next (hidle : ¬ source.IsIdle) {result : Except Fault ℕ}
    (h : source.next = (result, after)) :
    ¬ after.IsIdle ∧ ∀ f, result = .error f → f.LacksPrimes := by
  unfold next at h
  split at h
  · dsimp only at h
    split at h <;> cases h
    · exact ⟨not_false, nofun⟩
    · refine ⟨not_false, fun f hf => ?_⟩
      cases hf
      trivial
  · cases h
    refine ⟨not_false, fun f hf => ?_⟩
    cases hf
    trivial
  · cases h
    exact ⟨not_false, nofun⟩
  · exact absurd trivial hidle

/-- The source gives out, or hands out a prime that is too large. -/
def EndsIn (source : PrimeSource) (f : Fault) (after : PrimeSource) : Prop :=
  f.LacksPrimes ∨ ∃ handed v, source.HandsOut (handed ++ [v]) after ∧ maxModulus < v ∧
    f = .lifting (.modulusTooLarge v)

theorem HandsOut.endsIn (h : source.HandsOut ps middle) (hend : middle.EndsIn f after) :
    source.EndsIn f after := by
  rcases hend with hlacks | ⟨handed, v, hhanded, hlarge, rfl⟩
  · exact .inl hlacks
  · refine .inr ⟨ps ++ handed, v, ?_, hlarge, rfl⟩
    rw [List.append_assoc]
    exact h.append hhanded

theorem IsGenuine.of_handsOut (hsource : source.IsGenuine) (h : source.HandsOut ps after) :
    after.IsGenuine := by
  induction ps generalizing source with
  | nil =>
    rw [show after = source from h]
    exact hsource
  | cons p rest ih =>
    obtain ⟨last, hnext, h⟩ := h
    exact ih (hsource.next hnext).1 h

end PrimeSource

namespace PrimePool

open PrimeSource

variable {pool pool' : PrimePool} {source after : PrimeSource}

/-- There is an allowance, and a source that can be asked. -/
structure CanDraw (pool : PrimePool) (source : PrimeSource) : Prop where
  allowed : pool.allowance.count? ≠ none
  not_idle : ¬ source.IsIdle

/-- A draw fails because no prime comes, or one that is too large. -/
theorem DrawsTo.endsIn (h : pool.DrawsTo source (.error f) pool' after)
    (hsource : source.IsGenuine) (hidle : ¬ source.IsIdle) : source.EndsIn f after := by
  generalize hresult : Except.error f = result at h
  induction h with
  | usedUp =>
    cases hresult
    exact .inl trivial
  | fails hnext =>
    cases hresult
    exact .inl ((not_isIdle_of_next hidle hnext).2 _ rfl)
  | @refuses _ _ p _ hnext hmodulus =>
    cases hresult
    have htwo := two_le_of_isPrime ((hsource.next hnext).2 p rfl)
    obtain ⟨hlarge, rfl⟩ := modulusTooLarge_of_two_le htwo hmodulus
    exact .inr ⟨[], p, ⟨_, hnext, rfl⟩, hlarge, rfl⟩
  | takes => cases hresult
  | @passes source middle _ p _ _ hnext _ _ _ ih =>
    have hhanded : source.HandsOut [p] middle := ⟨middle, hnext, rfl⟩
    exact hhanded.endsIn (ih (hsource.next hnext).1 (not_isIdle_of_next hidle hnext).1 hresult)

/-- Whoever draws goes on to be able to. -/
theorem DrawsTo.canDraw {p : ℕ} (h : pool.DrawsTo source (.ok p) pool' after)
    (hidle : ¬ source.IsIdle) : pool'.allowance = pool.allowance ∧ ¬ after.IsIdle := by
  generalize hresult : Except.ok p = result at h
  induction h with
  | usedUp => cases hresult
  | fails => cases hresult
  | refuses => cases hresult
  | takes _ _ hnext => exact ⟨rfl, (not_isIdle_of_next hidle hnext).1⟩
  | passes hnext _ _ _ ih => exact ih (not_isIdle_of_next hidle hnext).1 hresult

theorem CanDraw.of_draw (hdraw : pool.CanDraw source) {p : ℕ}
    (h : pool.draw source = (.ok p, pool', after)) : pool'.CanDraw after := by
  rcases drawsTo_of_draw h with hdraws | ⟨-, hresult, -⟩
  · obtain ⟨hallowance, hidle⟩ := hdraws.canDraw hdraw.not_idle
    exact ⟨hallowance ▸ hdraw.allowed, hidle⟩
  · cases hresult

theorem CanDraw.endsIn_of_draw (hdraw : pool.CanDraw source) (hsource : source.IsGenuine)
    (h : pool.draw source = (.error f, pool', after)) : source.EndsIn f after := by
  rcases drawsTo_of_draw h with hdraws | ⟨hnone, -⟩
  · exact hdraws.endsIn hsource hdraw.not_idle
  · exact absurd hnone hdraw.allowed

/-- Who cannot draw leaves the source as it is. -/
theorem draw_eq_error_of_not_canDraw (hdraw : ¬ pool.CanDraw source) :
    ∃ f, pool.draw source = (.error f, pool, source) ∧ (f = .kindMismatch ∨ f.LacksPrimes) := by
  unfold draw
  cases hcount : pool.allowance.count? with
  | none => exact ⟨_, rfl, .inl rfl⟩
  | some count =>
    have hidle : source.IsIdle := by
      by_contra hidle
      exact hdraw ⟨by rw [hcount]; exact Option.some_ne_none count, hidle⟩
    cases source with
    | random => cases hidle
    | listed => cases hidle
    | idle bits seed =>
      dsimp only
      cases count.toNat with
      | zero => exact ⟨_, rfl, .inr trivial⟩
      | succ fuel => exact ⟨_, rfl, .inl rfl⟩

theorem CanDraw.of_drawUntil {done : List ℕ → Bool} (hdraw : pool.CanDraw source)
    (h : pool.drawUntil done source = (.ok (), pool', after)) : pool'.CanDraw after := by
  fun_induction drawUntil done pool source with
  | case1 =>
    cases h
    exact hdraw
  | case2 => cases h
  | case3 _ _ _ _ _ _ hfirst ih => exact ih (hdraw.of_draw hfirst) h

/-- So does a loop of draws, -/
theorem CanDraw.endsIn_of_drawUntil {done : List ℕ → Bool} (hdraw : pool.CanDraw source)
    (hsource : source.IsGenuine) (h : pool.drawUntil done source = (.error f, pool', after)) :
    source.EndsIn f after := by
  fun_induction drawUntil done pool source with
  | case1 => cases h
  | case2 _ _ _ _ _ _ hfirst =>
    cases h
    exact hdraw.endsIn_of_draw hsource hfirst
  | case3 _ _ _ _ _ _ hfirst ih =>
    obtain ⟨handed, htook⟩ := took_of_draw hfirst
    have hhanded := htook.hands_out
    exact hhanded.endsIn (ih (hdraw.of_draw hfirst) (hsource.of_handsOut hhanded) h)

/-- Who cannot draw has enough from the start or nothing. -/
theorem drawUntil_of_not_canDraw (hdraw : ¬ pool.CanDraw source) {done : List ℕ → Bool}
    {result : Except Fault Unit} (h : pool.drawUntil done source = (result, pool', after)) :
    pool' = pool ∧ after = source ∧
      ∀ f, result = .error f → f = .kindMismatch ∨ f.LacksPrimes := by
  cases hdone : done pool.primes with
  | true =>
    rw [drawUntil_of_done hdone] at h
    cases h
    exact ⟨rfl, rfl, nofun⟩
  | false =>
    obtain ⟨f, hfirst, hf⟩ := draw_eq_error_of_not_canDraw hdraw
    rw [drawUntil_of_draw_error hdone hfirst] at h
    cases h
    refine ⟨rfl, rfl, fun g hg => ?_⟩
    cases hg
    exact hf

/-- and a split. -/
theorem CanDraw.endsIn_of_split {count : ℕ} {extent : Extent} (hdraw : pool.CanDraw source)
    (hsource : source.IsGenuine)
    (h : pool.split count extent source = (.error f, pool', after)) : source.EndsIn f after := by
  rcases splitBy_eq_error h with hnear | ⟨middle, between, hnear, hcovers⟩
  · exact hdraw.endsIn_of_drawUntil hsource hnear
  · obtain ⟨handed, htook⟩ := took_of_drawUntil hnear
    have hbetween := hsource.of_handsOut htook.hands_out
    have hmiddle := hdraw.of_drawUntil hnear
    exact htook.hands_out.endsIn (hmiddle.endsIn_of_drawUntil hbetween hcovers)

/-- Without an allowance or numbers, a split fails and leaves the source as it is. -/
theorem split_eq_error_of_not_canDraw {count : ℕ} {extent : Extent} (hdraw : ¬ pool.CanDraw source)
    (h : pool.split count extent source = (.error f, pool', after)) :
    after = source ∧ (f = .kindMismatch ∨ f.LacksPrimes) := by
  rcases splitBy_eq_error h with hnear | ⟨middle, between, hnear, hcovers⟩
  · obtain ⟨-, hafter, hf⟩ := drawUntil_of_not_canDraw hdraw hnear
    exact ⟨hafter, hf f rfl⟩
  · obtain ⟨rfl, rfl, -⟩ := drawUntil_of_not_canDraw hdraw hnear
    obtain ⟨-, hafter, hf⟩ := drawUntil_of_not_canDraw hdraw hcovers
    exact ⟨hafter, hf f rfl⟩

/-- A split fails as its draws do. -/
theorem split_eq_error {count : ℕ} {extent : Extent} (hsource : source.IsGenuine)
    (h : pool.split count extent source = (.error f, pool', after)) :
    source.EndsIn f after ∨ (f = .kindMismatch ∧ after = source ∧ ¬ pool.CanDraw source) := by
  by_cases hdraw : pool.CanDraw source
  · exact .inl (hdraw.endsIn_of_split hsource h)
  · obtain ⟨hafter, hkind | hlacks⟩ := split_eq_error_of_not_canDraw hdraw h
    · exact .inr ⟨hkind, hafter, hdraw⟩
    · exact .inl (.inl hlacks)

/-- Nothing covers an extent without bound. -/
theorem extent_eq_bits_of_split {count : ℕ} {extent : Extent} {s : Split}
    (h : pool.split count extent source = (.ok s, pool', after)) : ∃ bits, extent = .bits bits := by
  cases extent with
  | bits value => exact ⟨value, rfl⟩
  | boundless g =>
    obtain ⟨middle, between, hnear, -⟩ := splitBy_eq_ok h
    cases done_of_drawUntil hnear

end PrimePool
end PadicLift
