import PadicLift.Proofs.Prime.Feed
import PadicLift.Proofs.Prime.Sixteenths

/-!
# Loops of draws

A loop of draws goes on until there are enough members. Each pass adds a modulus, of which there are
only so many, so the loop ends after a limited number of passes, with enough members or with the
fault of one more draw (`PrimePool.loopEnds_drawUntil`). What the loop waits for does not matter, it
may be something that never comes.

A split draws in two loops, the first of which ends no later than the other one would
(`PrimePool.splitBy_eq`): so it is one loop that waits for a rest that covers.
-/

namespace PadicLift
namespace PrimePool

open PrimeFeed

variable {σ : Type} [PrimeFeed σ] {source : σ} {pool : PrimePool} {done : List ℕ → Bool}

/-! ## Passes -/

/-- Draws that return, one after the other, each because there are not enough members before it. -/
inductive Passes (done : List ℕ → Bool) : ℕ → PrimePool → σ → PrimePool → σ → Prop
  | none (pool : PrimePool) (source : σ) : Passes done 0 pool source pool source
  | draw {n p : ℕ} {pool pool₁ pool₂ : PrimePool} {source source₁ source₂ : σ} :
      done pool.primes = false → pool.draw source = (.ok p, pool₁, source₁) →
      Passes done n pool₁ source₁ pool₂ source₂ → Passes done (n + 1) pool source pool₂ source₂

/-- Every pass adds a member. -/
theorem Passes.length_eq {n : ℕ} {pool' : PrimePool} {last : σ}
    (h : Passes done n pool source pool' last) :
    pool'.primes.length = pool.primes.length + n := by
  induction h with
  | none => rfl
  | draw _ hdraw _ ih =>
    rw [ih, length_of_draw hdraw]
    omega

/-- There are no more passes than there are moduli. -/
theorem Passes.add_length_le {n : ℕ} {pool' : PrimePool} {last : σ}
    (h : Passes done n pool source pool' last) : n + pool.primes.length ≤ maxModulus + 1 := by
  have hlength := h.length_eq
  have hle := pool'.length_le
  omega

/-! ## How a loop ends -/

/-- How a loop ends whose draws may ask `limit` times each, and what it leaves behind. -/
inductive LoopEnds (done : List ℕ → Bool) (limit : ℕ) (pool : PrimePool) (source : σ) :
    Except Fault Unit × PrimePool × σ → Prop
  /-- There are enough members. -/
  | enough (n asked : ℕ) {pool' : PrimePool} :
      Passes done n pool source pool' (after source asked) →
      n + pool.primes.length ≤ maxModulus + 1 → asked ≤ n * limit →
      done pool'.primes = true →
      LoopEnds done limit pool source (.ok (), pool', after source asked)
  /-- There are not, and no more can be drawn. -/
  | fails (n asked total : ℕ) {pool' : PrimePool} {f : Fault} :
      Passes done n pool source pool' (after source asked) →
      n + pool.primes.length ≤ maxModulus + 1 → asked ≤ n * limit →
      done pool'.primes = false →
      pool'.draw (after source asked) = (.error f, pool', after source total) →
      total ≤ asked + limit → f.LacksPrimes ∨ f.IsOversized →
      LoopEnds done limit pool source (.error f, pool', after source total)

/-- One pass more in front changes nothing about the end. -/
theorem LoopEnds.afterDraw {limit asked p : ℕ} {pool₁ : PrimePool}
    {r : Except Fault Unit × PrimePool × σ} (hdone : done pool.primes = false)
    (hdraw : pool.draw source = (.ok p, pool₁, after source asked)) (hasked : asked ≤ limit)
    (h : LoopEnds done limit pool₁ (after source asked) r) : LoopEnds done limit pool source r := by
  cases h with
  | enough n later hpasses _ hlater henough =>
    rw [after_after] at hpasses ⊢
    have hall := Passes.draw hdone hdraw hpasses
    refine .enough (n + 1) (asked + later) hall hall.add_length_le ?_ henough
    rw [Nat.add_one_mul]
    omega
  | fails n later total hpasses _ hlater hnot hlast htotal hf =>
    rw [after_after] at hpasses ⊢
    rw [after_after, after_after] at hlast
    have hall := Passes.draw hdone hdraw hpasses
    refine .fails (n + 1) (asked + later) (asked + total) hall hall.add_length_le ?_ hnot hlast
      (by omega) hf
    rw [Nat.add_one_mul]
    omega

/-- A loop of draws ends in one of these ways. -/
theorem loopEnds_drawUntil (hsource : IsSequence source) {count : ℤ}
    (hcount : pool.allowance.count? = some count) (done : List ℕ → Bool) :
    LoopEnds done count.toNat pool source (pool.drawUntil done source) := by
  -- The recursion ends because the members are few, so it may be followed whatever `done` is.
  fun_induction drawUntil done pool source with
  | case1 pool source hdone =>
    have hnone : Passes done 0 pool source pool source := .none pool source
    exact .enough 0 0 hnone hnone.add_length_le (Nat.zero_le _) hdone
  | case2 pool source hdone f pool₁ source₁ hdraw =>
    have hends := drawEnds_draw hsource hcount
    rw [hdraw] at hends
    obtain ⟨rfl, hf, asked, hasked, rfl⟩ := hends.of_error
    have hnone : Passes done 0 pool₁ source pool₁ source := .none pool₁ source
    exact .fails 0 0 asked hnone hnone.add_length_le (Nat.zero_le _) (Bool.not_eq_true _ ▸ hdone)
      hdraw (by omega) hf
  | case3 pool source hdone p pool₁ source₁ hdraw ih =>
    have hends := drawEnds_draw hsource hcount
    rw [hdraw] at hends
    obtain ⟨k, hk, -, rfl, haccepts, hmax, rfl⟩ := hends.of_ok
    exact (ih (hsource.later (k + 1)) hcount).afterDraw (Bool.not_eq_true _ ▸ hdone) hdraw hk

/-! ## A split is one loop -/

/-- Waiting for less first changes nothing. -/
theorem drawUntil_drawUntil (near : List ℕ → Bool)
    (h : ∀ pool : PrimePool, done pool.primes = true → near pool.primes = true) (pool : PrimePool)
    (source : σ) :
    (match pool.drawUntil near source with
      | (.error f, pool', last) => (.error f, pool', last)
      | (.ok _, pool', last) => pool'.drawUntil done last) = pool.drawUntil done source := by
  fun_induction drawUntil near pool source with
  | case1 => rfl
  | case2 pool source hnear f pool' last hdraw =>
    have hdone : done pool.primes = false := Bool.eq_false_iff.2 fun hdone => hnear (h pool hdone)
    rw [drawUntil_of_draw_error hdone hdraw]
  | case3 pool source hnear p pool' last hdraw ih =>
    have hdone : done pool.primes = false := Bool.eq_false_iff.2 fun hdone => hnear (h pool hdone)
    rw [drawUntil_of_draw_ok hdone hdraw, ih]

/-- A split is a loop of draws until the primes behind the cut cover the extent. -/
theorem splitBy_eq (pool : PrimePool) (cut : ℕ → ℕ) (extent : Extent) (source : σ) :
    pool.splitBy cut extent source =
      match pool.drawUntil (coversBehind cut extent) source with
      | (.error f, pool', last) => (.error f, pool', last)
      | (.ok _, pool', last) =>
        (.ok ⟨pool'.primes.take (cut pool'.primes.length),
          extent.trim (pool'.primes.drop (cut pool'.primes.length))⟩, pool', last) := by
  -- What covers by its rounded logarithms is near covering, so the first loop ends no later.
  have hnear (pool : PrimePool) (h : coversBehind cut extent pool.primes = true) :
      nearBehind cut extent pool.primes = true := by
    have hsublist := List.drop_sublist (cut pool.primes.length) pool.primes
    exact Extent.isNear_of_isCovered (pool.increasing.sublist hsublist)
      (fun p hp => pool.le_max p (hsublist.subset hp)) (coversBehind_eq_true.1 h).2
  rw [← drawUntil_drawUntil (nearBehind cut extent) hnear]
  unfold splitBy nearBehind
  dsimp only
  obtain ⟨first, pool₁, source₁⟩ :=
    pool.drawUntil (fun primes => extent.isNear (primes.drop (cut primes.length))) source
  cases first with
  | error f => rfl
  | ok => rfl

end PrimePool
end PadicLift
