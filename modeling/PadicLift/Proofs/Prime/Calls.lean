import PadicLift.Proofs.Prime.Loop

/-!
# What any calls leave of a pool

A pool is drawn from, filled, split, and loses members that are discarded, in any order and however
often a call fails. A call that draws adds members that the feed has handed out and that the pool
may take (`PrimePool.IsGrown`), whether it returns or not, and a discarded member is excluded from
then on. So the members stay what they are promised to be, and the next call comes to an end
(`PrimePool.Run.distinct_and_ends`).
-/

namespace PadicLift
namespace PrimePool

open PrimeFeed

variable {σ : Type} [PrimeFeed σ]

/-! ## Growing -/

/-- New members have been handed out by the feed, and may be taken. -/
structure IsGrown (pool : PrimePool) (source : σ) (pool' : PrimePool) (last : σ) : Prop where
  floor_eq : pool'.floor = pool.floor
  allowance_eq : pool'.allowance = pool.allowance
  excluded_eq : pool'.excluded = pool.excluded
  exists_asked : ∃ asked, last = after source asked ∧ ∀ p ∈ pool'.primes, p ∈ pool.primes ∨
    pool.floor < p ∧ p ∉ pool.excluded ∧ ∃ i < asked, answer source i = .ok p

section Growing

variable {source middle last : σ} {pool pool₁ pool' : PrimePool} {limit : ℕ}
  {count : ℤ}

theorem isGrown_after (pool : PrimePool) (source : σ) (asked : ℕ) :
    pool.IsGrown source pool (after source asked) :=
  ⟨rfl, rfl, rfl, asked, rfl, fun _ hp => .inl hp⟩

theorem IsGrown.trans (h : pool.IsGrown source pool₁ middle)
    (h' : pool₁.IsGrown middle pool' last) : pool.IsGrown source pool' last := by
  obtain ⟨asked, rfl, hmem⟩ := h.exists_asked
  obtain ⟨more, rfl, hmem'⟩ := h'.exists_asked
  refine ⟨h'.floor_eq.trans h.floor_eq, h'.allowance_eq.trans h.allowance_eq,
    h'.excluded_eq.trans h.excluded_eq, asked + more, after_after source asked more, fun p hp => ?_⟩
  -- A member is from before, or one of the first `asked` answers, or one of those behind them.
  rcases hmem' p hp with hp | ⟨hfloor, hexcluded, i, hi, hanswer⟩
  · rcases hmem p hp with hp | ⟨hfloor, hexcluded, i, hi, hanswer⟩
    · exact .inl hp
    · exact .inr ⟨hfloor, hexcluded, i, by omega, hanswer⟩
  · rw [answer_after] at hanswer
    exact .inr ⟨h.floor_eq ▸ hfloor, h.excluded_eq ▸ hexcluded, asked + i, by omega, hanswer⟩

/-- However a draw ends, the pool has only grown. -/
theorem DrawEnds.isGrown {r : Except Fault ℕ × PrimePool × σ} (h : DrawEnds pool source limit r) :
    pool.IsGrown source r.2.1 r.2.2 := by
  obtain ⟨result, pool', last⟩ := r
  cases result with
  | error f =>
    obtain ⟨rfl, -, asked, -, rfl⟩ := h.of_error
    exact isGrown_after pool' source asked
  | ok p =>
    obtain ⟨k, -, hanswer, rfl, haccepts, hmax, rfl⟩ := h.of_ok
    refine ⟨rfl, rfl, rfl, k + 1, rfl, fun q hq => ?_⟩
    rcases mem_insertOrdered.1 hq with rfl | hq
    · exact .inr ⟨haccepts.1, haccepts.2.1, k, Nat.lt_succ_self k, hanswer⟩
    · exact .inl hq

theorem isGrown_draw (hsource : IsSequence source) (hcount : pool.allowance.count? = some count) :
    pool.IsGrown source (pool.draw source).2.1 (pool.draw source).2.2 :=
  (drawEnds_draw hsource hcount).isGrown

theorem IsGrown.isSequence (h : pool.IsGrown source pool' last) (hsource : IsSequence source) :
    IsSequence last := by
  obtain ⟨asked, rfl, -⟩ := h.exists_asked
  exact hsource.later asked

/-- However often it draws, the pool has only grown. -/
theorem isGrown_drawUntil (hsource : IsSequence source)
    (hcount : pool.allowance.count? = some count) (done : List ℕ → Bool) :
    pool.IsGrown source (pool.drawUntil done source).2.1 (pool.drawUntil done source).2.2 := by
  fun_induction drawUntil done pool source with
  | case1 pool source => exact isGrown_after pool source 0
  | case2 pool source _ f pool₁ source₁ hdraw =>
    have hgrown := isGrown_draw hsource hcount
    rwa [hdraw] at hgrown
  | case3 pool source _ p pool₁ source₁ hdraw ih =>
    have hgrown := isGrown_draw hsource hcount
    rw [hdraw] at hgrown
    exact hgrown.trans (ih (hgrown.isSequence hsource) (hgrown.allowance_eq ▸ hcount))

/-- A split leaves the pool and the source as its loop does. -/
theorem splitBy_snd (pool : PrimePool) (cut : ℕ → ℕ) (extent : Extent) (source : σ) :
    Prod.map (Except.map fun _ => ()) id (pool.splitBy cut extent source)
      = pool.drawUntil (coversBehind cut extent) source := by
  rw [splitBy_eq]
  obtain ⟨result, pool', last⟩ := pool.drawUntil (coversBehind cut extent) source
  cases result with
  | error f => rfl
  | ok => rfl

end Growing

/-! ## Calls -/

/-- What can be done with a pool. -/
inductive Call
  | draw
  /-- Draws until there are `count` members. -/
  | fill (count : ℤ)
  /-- Removes a member for good. -/
  | discard (p : ℕ)
  | split (count : ℤ) (extent : Extent)

/-- The pool and the source after a call, whether it returns or fails. -/
def perform (pool : PrimePool) (source : σ) : Call → PrimePool × σ
  | .draw => (pool.draw source).2
  | .fill count => (pool.fill count source).2
  | .discard p => (pool.discard p, source)
  | .split count extent => (pool.splitAt count extent source).2

/-- Calls in order, from a pool and a source to what they leave behind. Only members are
discarded. -/
inductive Run (pool : PrimePool) (source : σ) : List Call → PrimePool → σ → Prop
  | none : Run pool source [] pool source
  | call {calls : List Call} {pool' : PrimePool} {last : σ} (c : Call) :
      Run pool source calls pool' last → (∀ p, c = .discard p → p ∈ pool'.primes) →
      Run pool source (calls ++ [c]) (pool'.perform last c).1 (pool'.perform last c).2

/-- What calls keep of a pool that takes numbers above `floor` only, and none of `excluded`. -/
structure IsKept (floor : ℤ) (allowance : Allowance) (excluded : List ℤ) (source : σ)
    (calls : List Call) (pool : PrimePool) (last : σ) : Prop where
  floor_eq : pool.floor = floor.toNat
  allowance_eq : pool.allowance = allowance
  excludes : ∀ v ∈ excluded, v.toNat ∈ pool.excluded
  excludes_discarded : ∀ p, Call.discard p ∈ calls → p ∈ pool.excluded
  admits : ∀ p ∈ pool.primes, pool.floor < p ∧ p ∉ pool.excluded
  exists_asked : ∃ asked, last = after source asked ∧
    ∀ p ∈ pool.primes, ∃ i < asked, answer source i = .ok p

section Keeping

variable {floor count : ℤ} {allowance : Allowance} {excluded : List ℤ} {source last last' : σ}
  {calls : List Call} {pool pool' : PrimePool}

theorem isKept_start (floor : ℤ) (allowance : Allowance) (excluded : List ℤ) (source : σ) :
    IsKept floor allowance excluded source [] (start floor allowance excluded) source where
  floor_eq := rfl
  allowance_eq := rfl
  excludes _ := List.mem_map_of_mem
  excludes_discarded _ hp := absurd hp List.not_mem_nil
  admits _ hp := absurd hp List.not_mem_nil
  exists_asked := ⟨0, rfl, fun _ hp => absurd hp List.not_mem_nil⟩

/-- A growing pool keeps what a run keeps. -/
theorem IsKept.grow (h : IsKept floor allowance excluded source calls pool last) {c : Call}
    (hc : ∀ p, c ≠ .discard p) (hgrown : pool.IsGrown last pool' last') :
    IsKept floor allowance excluded source (calls ++ [c]) pool' last' := by
  obtain ⟨asked, rfl, hmem⟩ := h.exists_asked
  obtain ⟨more, rfl, hmem'⟩ := hgrown.exists_asked
  refine ⟨hgrown.floor_eq.trans h.floor_eq, hgrown.allowance_eq.trans h.allowance_eq, ?_, ?_, ?_,
    asked + more, after_after source asked more, fun p hp => ?_⟩
  · rw [hgrown.excluded_eq]
    exact h.excludes
  · intro p hp
    rw [hgrown.excluded_eq]
    rcases List.mem_append.1 hp with hp | hp
    · exact h.excludes_discarded p hp
    · exact absurd (List.mem_singleton.1 hp).symm (hc p)
  · intro p hp
    rw [hgrown.floor_eq, hgrown.excluded_eq]
    rcases hmem' p hp with hp | ⟨hfloor, hexcluded, -⟩
    · exact h.admits p hp
    · exact ⟨hfloor, hexcluded⟩
  · rcases hmem' p hp with hp | ⟨-, -, i, hi, hanswer⟩
    · obtain ⟨i, hi, hanswer⟩ := hmem p hp
      exact ⟨i, by omega, hanswer⟩
    · rw [answer_after] at hanswer
      exact ⟨asked + i, by omega, hanswer⟩

/-- So does a pool that discards a prime. -/
theorem IsKept.discard (h : IsKept floor allowance excluded source calls pool last) (p : ℕ) :
    IsKept floor allowance excluded source (calls ++ [.discard p]) (pool.discard p) last := by
  obtain ⟨asked, hlast, hmem⟩ := h.exists_asked
  refine ⟨h.floor_eq, h.allowance_eq, fun v hv => List.mem_cons_of_mem p (h.excludes v hv), ?_, ?_,
    asked, hlast, fun q hq => hmem q (mem_discard.1 hq).1⟩
  · intro q hq
    rcases List.mem_append.1 hq with hq | hq
    · exact List.mem_cons_of_mem p (h.excludes_discarded q hq)
    · cases List.mem_singleton.1 hq
      exact List.mem_cons_self
  · intro q hq
    obtain ⟨hq, hne⟩ := mem_discard.1 hq
    obtain ⟨hfloor, hexcluded⟩ := h.admits q hq
    exact ⟨hfloor, List.not_mem_cons_of_ne_of_not_mem hne hexcluded⟩

theorem IsKept.isSequence (h : IsKept floor allowance excluded source calls pool last)
    (hsource : IsSequence source) : IsSequence last := by
  obtain ⟨asked, rfl, -⟩ := h.exists_asked
  exact hsource.later asked

/-- Every call keeps it. -/
theorem IsKept.perform (h : IsKept floor allowance excluded source calls pool last)
    (hsource : IsSequence source) (hcount : allowance.count? = some count) (c : Call) :
    IsKept floor allowance excluded source (calls ++ [c]) (pool.perform last c).1
      (pool.perform last c).2 := by
  have hlast := h.isSequence hsource
  have hpool : pool.allowance.count? = some count := h.allowance_eq ▸ hcount
  cases c with
  | draw => exact h.grow nofun (isGrown_draw hlast hpool)
  | fill size => exact h.grow nofun (isGrown_drawUntil hlast hpool _)
  | discard p => exact h.discard p
  | split size extent =>
    -- Of its two loops a split is the second one alone.
    have hgrown := isGrown_drawUntil hlast hpool (coversBehind (cutAt size) extent)
    rw [← splitBy_snd] at hgrown
    exact h.grow nofun hgrown

/-- So do calls in any order. -/
theorem Run.isKept (h : Run (start floor allowance excluded) source calls pool last)
    (hsource : IsSequence source) (hcount : allowance.count? = some count) :
    IsKept floor allowance excluded source calls pool last := by
  -- The last call is the outermost step, so what holds in front of it is the hypothesis.
  induction h with
  | none => exact isKept_start floor allowance excluded source
  | call c _ _ ih => exact ih.perform hsource hcount c

end Keeping

/-! ## Members and ends -/

/-- Whatever has been done with a pool, and whatever has failed: its members increase, lie above the
floor and are moduli, are neither excluded nor discarded, and have been handed out by the source. A
draw that fails leaves the pool as it is, one that returns adds a member, and a call that fills or
splits ends after a limited number of draws, with what was asked for, for want of primes, or at a
prime that is too large. -/
theorem Run.distinct_and_ends {floor count : ℤ} {allowance : Allowance} {excluded : List ℤ}
    {source last : σ} {calls : List Call} {pool : PrimePool} (hsource : IsSequence source)
    (hcount : allowance.count? = some count)
    (h : Run (start floor allowance excluded) source calls pool last) :
    pool.primes.Pairwise (· < ·) ∧
    (∀ p ∈ pool.primes, floor < p ∧ p ≤ maxModulus ∧ (p : ℤ) ∉ excluded ∧
      Call.discard p ∉ calls) ∧
    (∃ asked, last = after source asked ∧
      ∀ p ∈ pool.primes, ∃ i < asked, answer source i = .ok p) ∧
    DrawEnds pool last count.toNat (pool.draw last) ∧
    (∀ f pool' next, pool.draw last = (.error f, pool', next) →
      pool' = pool ∧ (f.LacksPrimes ∨ f.IsOversized)) ∧
    (∀ size : ℤ, LoopEnds (fun primes => decide (size ≤ primes.length)) count.toNat pool last
      (pool.fill size last)) ∧
    (∀ (size : ℤ) (extent : Extent),
      LoopEnds (coversBehind (cutAt size) extent) count.toNat pool last
        (Prod.map (Except.map fun _ => ()) id (pool.splitAt size extent last))) := by
  -- What a run keeps makes the members admissible and the feed a sequence of moduli.
  have hkept := h.isKept hsource hcount
  have hlast := hkept.isSequence hsource
  have hpool : pool.allowance.count? = some count := hkept.allowance_eq ▸ hcount
  refine ⟨pool.increasing, fun p hp => ?_, hkept.exists_asked, drawEnds_draw hlast hpool, ?_, ?_,
    ?_⟩
  · obtain ⟨hfloor, hexcluded⟩ := hkept.admits p hp
    refine ⟨?_, pool.le_max p hp, fun hv => ?_, fun hdiscard => ?_⟩
    · rw [hkept.floor_eq] at hfloor
      omega
    · exact hexcluded (hkept.excludes _ hv)
    · exact hexcluded (hkept.excludes_discarded p hdiscard)
  · intro f pool' next hdraw
    have hends := drawEnds_draw hlast hpool
    rw [hdraw] at hends
    obtain ⟨hsame, hf, -⟩ := hends.of_error
    exact ⟨hsame, hf⟩
  · intro size
    exact loopEnds_drawUntil hlast hpool _
  · intro size extent
    rw [splitAt, splitBy_snd]
    exact loopEnds_drawUntil hlast hpool _

/-- The sequence 5, 3, 5, 3, and so on, from the number at `position`. -/
def alternating (position : ℕ) : NumberSequence :=
  ⟨fun i => some (if i % 2 = 0 then 5 else 3), position⟩

/-- With two questions for each draw the third draw fails, and when 5 has been discarded, 3 is all
that is left to draw: a pool of two cannot be filled. -/
theorem Run.distinct_and_ends_alternating :
    let calls : List Call :=
      [.draw, .draw, .draw, .discard 5, .fill 2, .split (-1) (.bits 1)]
    ∃ pool, Run (start 2 (.ofInt 2) [7]) (alternating 0) calls pool (alternating 6) ∧
      IsSequence (alternating 0) ∧ (Allowance.ofInt 2).count? = some 2 ∧
      pool.primes = [3] ∧
      (∀ p ∈ pool.primes, (2 : ℤ) < p ∧ p ≤ maxModulus ∧ (p : ℤ) ∉ [7] ∧
        Call.discard p ∉ calls) ∧
      LoopEnds (fun primes => decide ((10 : ℤ) ≤ primes.length)) 2 pool (alternating 6)
        (pool.fill 10 (alternating 6)) := by
  intro calls
  have hsource : IsSequence (alternating 0) := by
    apply NumberSequence.isSequence
    intro i p hp
    cases hp
    split <;> decide
  obtain ⟨pool, hrun, hprimes, f, hdraw⟩ : ∃ pool,
      Run (start 2 (.ofInt 2) [7]) (alternating 0) [.draw, .draw, .draw, .discard 5] pool
        (alternating 4) ∧ pool.primes = [3] ∧
      ∃ f, pool.draw (alternating 4) = (.error f, pool, alternating 6) := by
    have hnone : Run (start 2 (.ofInt 2) [7]) (alternating 0) [] _ _ := .none
    have hdraws := ((hnone.call .draw nofun).call .draw nofun).call .draw nofun
    refine ⟨_, hdraws.call (.discard 5) ?_, rfl, _, rfl⟩
    intro p hp
    cases hp
    decide
  have hfill : pool.perform (alternating 4) (.fill 2) = (pool, alternating 6) :=
    congrArg Prod.snd (drawUntil_of_draw_error (by rw [hprimes]; rfl) hdraw)
  have hcovers : coversBehind (cutAt (-1)) (.bits 1) pool.primes = true := by
    rw [hprimes]
    decide +kernel
  have hsplit : pool.perform (alternating 6) (.split (-1) (.bits 1)) = (pool, alternating 6) := by
    show (pool.splitBy (cutAt (-1)) (.bits 1) (alternating 6)).2 = _
    rw [splitBy_eq, drawUntil_of_done hcovers]
  have hfilled := hrun.call (.fill 2) nofun
  rw [hfill] at hfilled
  have hall := hfilled.call (.split (-1) (.bits 1)) nofun
  rw [hsplit] at hall
  obtain ⟨-, hmembers, -, -, -, hends, -⟩ := Run.distinct_and_ends hsource rfl hall
  exact ⟨pool, hall, hsource, rfl, hprimes, hmembers, hends 10⟩

end PrimePool
end PadicLift
