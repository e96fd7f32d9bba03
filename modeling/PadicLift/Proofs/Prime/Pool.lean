import PadicLift.Prime.Pool
import PadicLift.Proofs.Number.Primality
import PadicLift.Proofs.Outcome

/-!
# What a pool draws

A genuine source hands out primes only. All sources are genuine that can be made, and stay so
(`PrimeSource.IsGenuine.next`). What a pool takes from a genuine source are primes above its floor,
so a split cuts primes in increasing order: the smallest for lifting, and some of the next ones as a
basis.

From any feed, a split draws in two loops, and it fails in one of them or cuts the pool that they
end with (`PrimePool.splitBy_eq_error`, `PrimePool.splitBy_eq_ok`).
-/

namespace PadicLift

/-! ## Genuine sources -/

namespace PrimeSource

/-- Whatever the source has listed is prime. -/
def IsGenuine : PrimeSource → Prop
  | .listed _ _ rest => ∀ p ∈ rest, isPrime p = true
  | .random .. => True
  | .idle .. => True

variable {source : PrimeSource}

theorem isGenuine_of_all {count bits : ℕ} {rest : List ℕ} (h : rest.all isPrime = true) :
    (listed count bits rest).IsGenuine :=
  List.all_eq_true.1 h

/-- A random source hands out primes only, -/
theorem isGenuine_of_ofSeed {bits seed limit : ℤ} (h : ofSeed bits seed limit = .ok source) :
    source.IsGenuine := by
  unfold ofSeed at h
  split at h
  · cases h
  · cases h
    trivial

theorem isGenuine_of_ofDocuments {bits seed limit : Document}
    (h : ofDocuments bits seed limit = .ok source) : source.IsGenuine := by
  obtain ⟨size, -, h⟩ := Outcome.bind_eq_ok.1 h
  split at h
  · cases h
  · obtain ⟨start, -, h⟩ := Outcome.bind_eq_ok.1 h
    split at h <;> cases h <;> trivial

/-- and so does a list that is accepted. -/
theorem isGenuine_of_ofList {primes : List ℤ} (h : ofList primes = .ok source) :
    source.IsGenuine := by
  unfold ofList at h
  split at h
  · cases h
  next hnone =>
    cases h
    intro p hp
    obtain ⟨v, hv, rfl⟩ := List.mem_map.1 hp
    have hprime := List.find?_eq_none.1 hnone v hv
    rw [Bool.not_eq_true, Bool.not_eq_false', isPrimeInt, Bool.and_eq_true] at hprime
    exact hprime.2

/-- The search returns candidates that pass the test. -/
theorem search_isPrime {bits fuel p : ℕ} {state after : UInt64}
    (h : search bits fuel state = (some p, after)) : isPrime p = true := by
  induction fuel generalizing state with
  | zero => simp [search] at h
  | succ fuel ih =>
    unfold search at h
    dsimp only at h
    split at h
    next hprime =>
      simp only [Prod.mk.injEq, Option.some.injEq] at h
      rwa [← h.1]
    next => exact ih h

/-- A genuine source stays genuine, and what it hands out is prime. -/
theorem IsGenuine.next (hsource : source.IsGenuine) {result : Except Fault ℕ} {after : PrimeSource}
    (h : source.next = (result, after)) :
    after.IsGenuine ∧ ∀ p, result = .ok p → isPrime p = true := by
  unfold PrimeSource.next at h
  split at h
  next bits seed limit state =>
    dsimp only at h
    split at h
    next p hp =>
      cases h
      refine ⟨trivial, fun q hq => ?_⟩
      cases hq
      exact search_isPrime (Prod.ext hp rfl)
    next =>
      cases h
      exact ⟨trivial, fun _ hq => by cases hq⟩
  next =>
    cases h
    exact ⟨hsource, fun _ hq => by cases hq⟩
  next p rest =>
    cases h
    have hall := List.forall_mem_cons.1 hsource
    refine ⟨hall.2, fun q hq => ?_⟩
    cases hq
    exact hall.1
  next =>
    cases h
    exact ⟨trivial, fun _ hq => by cases hq⟩

end PrimeSource

/-! ## Dropping primes -/

/-- `trim` keeps primes from the front. -/
theorem Extent.trim_isPrefix (extent : Extent) (basis : List ℕ) :
    extent.trim basis <+: basis := by
  have hfst := map_fst_withSums 0 basis
  unfold trim
  split
  · exact List.nil_prefix
  next first rest hsums =>
    rw [hsums, List.map_cons] at hfst
    have hkept : (rest.reverse.dropWhile fun x => extent.isReached x.2).reverse <+: rest := by
      rw [← List.reverse_suffix, List.reverse_reverse]
      exact List.dropWhile_suffix _
    rw [← hfst, List.cons_prefix_cons]
    exact ⟨rfl, hkept.map Prod.fst⟩

/-! ## Drawing -/

namespace PrimePool

variable {pool pool' : PrimePool}

section Until

variable {σ : Type} [PrimeFeed σ] {source after : σ} {done : List ℕ → Bool}

theorem drawUntil_of_done (h : done pool.primes = true) :
    pool.drawUntil done source = (.ok (), pool, source) := by
  rw [drawUntil, if_pos h]

theorem drawUntil_of_draw_ok {p : ℕ} (h : done pool.primes = false)
    (hdraw : pool.draw source = (.ok p, pool', after)) :
    pool.drawUntil done source = pool'.drawUntil done after := by
  rw [drawUntil, if_neg (Bool.not_eq_true _ ▸ h)]
  split
  next heq =>
    rw [hdraw] at heq
    cases heq
  next heq =>
    rw [hdraw] at heq
    cases heq
    rfl

theorem drawUntil_of_draw_error {f : Fault} (h : done pool.primes = false)
    (hdraw : pool.draw source = (.error f, pool', after)) :
    pool.drawUntil done source = (.error f, pool', after) := by
  rw [drawUntil, if_neg (Bool.not_eq_true _ ▸ h)]
  split
  next heq =>
    rw [hdraw] at heq
    cases heq
    rfl
  next heq =>
    rw [hdraw] at heq
    cases heq

/-- Drawing ends with members that satisfy the condition. -/
theorem done_of_drawUntil
    (h : pool.drawUntil done source = (.ok (), pool', after)) : done pool'.primes = true := by
  fun_induction drawUntil done pool source with
  | case1 pool source hdone =>
    cases h
    exact hdone
  | case2 => cases h
  | case3 pool source _ p pool₁ source₁ hdraw ih => exact ih h

end Until

/-! ## The loops of a split -/

section Loops

variable {σ : Type} [PrimeFeed σ] {source after : σ} {cut : ℕ → ℕ} {extent : Extent}

/-- Whether the rest behind a cut is near covering. -/
def nearBehind (cut : ℕ → ℕ) (extent : Extent) (primes : List ℕ) : Bool :=
  extent.isNear (primes.drop (cut primes.length))

/-- Whether the rest behind a cut is a basis that covers. -/
def coversBehind (cut : ℕ → ℕ) (extent : Extent) (primes : List ℕ) : Bool :=
  !(primes.drop (cut primes.length)).isEmpty && extent.isCovered (primes.drop (cut primes.length))

theorem coversBehind_eq_true {primes : List ℕ} : coversBehind cut extent primes = true ↔
    cut primes.length < primes.length ∧
      extent.isCovered (primes.drop (cut primes.length)) = true := by
  rw [coversBehind, Bool.and_eq_true, Bool.not_eq_true', List.isEmpty_eq_false_iff, ne_eq,
    List.drop_eq_nil_iff, not_le]

theorem splitBy_of_drawUntil {middle : PrimePool} {between : σ}
    (hnear : pool.drawUntil (nearBehind cut extent) source = (.ok (), middle, between))
    (hcovers : middle.drawUntil (coversBehind cut extent) between = (.ok (), pool', after)) :
    pool.splitBy cut extent source = (.ok ⟨pool'.primes.take (cut pool'.primes.length),
      extent.trim (pool'.primes.drop (cut pool'.primes.length))⟩, pool', after) := by
  unfold nearBehind at hnear
  unfold coversBehind at hcovers
  simp only [splitBy, hnear, hcovers]

/-- A split that returns has drawn in both loops, and cuts the pool that they end with. -/
theorem splitBy_eq_ok {s : Split} (h : pool.splitBy cut extent source = (.ok s, pool', after)) :
    ∃ middle between,
      pool.drawUntil (nearBehind cut extent) source = (.ok (), middle, between) ∧
      middle.drawUntil (coversBehind cut extent) between = (.ok (), pool', after) ∧
      s = ⟨pool'.primes.take (cut pool'.primes.length),
        extent.trim (pool'.primes.drop (cut pool'.primes.length))⟩ := by
  unfold splitBy at h
  dsimp only at h
  split at h
  · cases h
  next hnear =>
    split at h
    · cases h
    next hcovers =>
      cases h
      exact ⟨_, _, hnear, hcovers, rfl⟩

/-- A split fails in the first loop or in the second one. -/
theorem splitBy_eq_error {f : Fault}
    (h : pool.splitBy cut extent source = (.error f, pool', after)) :
    pool.drawUntil (nearBehind cut extent) source = (.error f, pool', after) ∨
    ∃ middle between,
      pool.drawUntil (nearBehind cut extent) source = (.ok (), middle, between) ∧
      middle.drawUntil (coversBehind cut extent) between = (.error f, pool', after) := by
  unfold splitBy at h
  dsimp only at h
  split at h
  next hnear =>
    cases h
    exact .inl hnear
  next hnear =>
    split at h
    next hcovers =>
      cases h
      exact .inr ⟨_, _, hnear, hcovers⟩
    next => cases h

end Loops

/-! ## One draw -/

section Draw

variable {σ : Type} [PrimeFeed σ]

/-- How a draw goes. It passes over primes that it cannot take, and ends at any other answer, or
when it may ask for no more. -/
inductive DrawsTo (pool : PrimePool) : σ → Except Fault ℕ → PrimePool → σ → Prop
  | usedUp {source : σ} : DrawsTo pool source
      (.error (.lifting (.noNewPrime pool.allowance.text pool.primes.length))) pool source
  | fails {source after : σ} {f : Fault} : PrimeFeed.next source = (.error f, after) →
      DrawsTo pool source (.error f) pool after
  | refuses {source after : σ} {v : ℕ} {f : Fault} : PrimeFeed.next source = (.ok v, after) →
      checkModulus v = .error f → DrawsTo pool source (.error f) pool after
  | takes {source after : σ} {p : ℕ} (haccepts : pool.Accepts p) (hmax : p ≤ maxModulus) :
      PrimeFeed.next source = (.ok p, after) → 2 ≤ p →
      DrawsTo pool source (.ok p) (pool.insert p haccepts hmax) after
  | passes {source middle after : σ} {p : ℕ} {result : Except Fault ℕ} {pool' : PrimePool} :
      PrimeFeed.next source = (.ok p, middle) → 2 ≤ p → ¬ pool.Accepts p →
      DrawsTo pool middle result pool' after → DrawsTo pool source result pool' after

/-- Whatever the number of answers it may ask for, a draw goes in one of these ways. -/
theorem drawsTo_of_drawWithin {fuel : ℕ} {source after : σ} {result : Except Fault ℕ}
    (h : pool.drawWithin fuel source = (result, pool', after)) :
    pool.DrawsTo source result pool' after := by
  induction fuel generalizing source with
  | zero =>
    cases h
    exact .usedUp
  | succ fuel ih =>
    unfold drawWithin at h
    split at h
    next hnext =>
      cases h
      exact .fails hnext
    next v middle hnext =>
      split at h
      next hmodulus =>
        cases h
        exact .refuses hnext hmodulus
      next q hmodulus =>
        obtain ⟨htwo, hmax, hcast⟩ := checkModulus_eq_ok hmodulus
        obtain rfl := Int.ofNat_inj.1 hcast
        split at h
        next haccepts =>
          cases h
          exact .takes haccepts hmax hnext htwo
        next hnot => exact .passes hnext htwo hnot (ih h)

/-- A draw goes so, or there is no allowance for it. -/
theorem drawsTo_of_draw {source after : σ} {result : Except Fault ℕ}
    (h : pool.draw source = (result, pool', after)) :
    pool.DrawsTo source result pool' after ∨ pool.allowance.count? = none ∧
      result = .error .kindMismatch ∧ pool' = pool ∧ after = source := by
  unfold draw at h
  split at h
  · exact .inl (drawsTo_of_drawWithin h)
  next hnone =>
    cases h
    exact .inr ⟨hnone, rfl, rfl, rfl⟩

end Draw

/-! ## Genuine members -/

variable {source after : PrimeSource}

/-- All members are primes above the floor. -/
def IsGenuine (pool : PrimePool) : Prop := ∀ p ∈ pool.primes, p.Prime ∧ pool.floor < p

theorem isGenuine_empty (floor : ℕ) (allowance : Allowance) : (empty floor allowance).IsGenuine :=
  fun _ hp => absurd hp List.not_mem_nil

theorem IsGenuine.discard (hpool : pool.IsGenuine) (p : ℕ) : (pool.discard p).IsGenuine :=
  fun q hq => hpool q (List.mem_of_mem_erase hq)

/-- What the draws of one operation leave behind. -/
structure Drawn (pool pool' : PrimePool) (after : PrimeSource) : Prop where
  pool_genuine : pool'.IsGenuine
  floor_eq : pool'.floor = pool.floor
  source_genuine : after.IsGenuine

theorem Drawn.trans {pool'' : PrimePool} {last : PrimeSource} (h : Drawn pool pool' after)
    (h' : Drawn pool' pool'' last) : Drawn pool pool'' last :=
  ⟨h'.pool_genuine, h'.floor_eq.trans h.floor_eq, h'.source_genuine⟩

/-- However a draw goes, it leaves a genuine pool and a genuine source. -/
theorem DrawsTo.drawn {result : Except Fault ℕ} (h : pool.DrawsTo source result pool' after)
    (hpool : pool.IsGenuine) (hsource : source.IsGenuine) : Drawn pool pool' after := by
  induction h with
  | usedUp => exact ⟨hpool, rfl, hsource⟩
  | fails hnext => exact ⟨hpool, rfl, (hsource.next hnext).1⟩
  | refuses hnext => exact ⟨hpool, rfl, (hsource.next hnext).1⟩
  | takes haccepts hmax hnext =>
    obtain ⟨hafter, hprime⟩ := hsource.next hnext
    refine ⟨fun r hr => ?_, rfl, hafter⟩
    -- A new member came from the source, so it is prime.
    rcases mem_insertOrdered.1 hr with rfl | hr
    · exact ⟨(isPrime_iff hmax).1 (hprime r rfl), haccepts.1⟩
    · exact hpool r hr
  | passes hnext _ _ _ ih => exact ih (hsource.next hnext).1

theorem drawn_of_draw {result : Except Fault ℕ} (hpool : pool.IsGenuine)
    (hsource : source.IsGenuine) (h : pool.draw source = (result, pool', after)) :
    Drawn pool pool' after := by
  rcases drawsTo_of_draw h with hdraws | ⟨-, -, rfl, rfl⟩
  · exact hdraws.drawn hpool hsource
  · exact ⟨hpool, rfl, hsource⟩

/-- Draws that end leave a genuine pool and source, and enough primes. -/
theorem drawn_of_drawUntil {done : List ℕ → Bool} (hpool : pool.IsGenuine)
    (hsource : source.IsGenuine) (h : pool.drawUntil done source = (.ok (), pool', after)) :
    Drawn pool pool' after ∧ done pool'.primes = true := by
  refine ⟨?_, done_of_drawUntil h⟩
  fun_induction drawUntil done pool source with
  | case1 pool source hdone =>
    cases h
    exact ⟨hpool, rfl, hsource⟩
  | case2 => cases h
  | case3 pool source _ p pool₁ source₁ hdraw ih =>
    have hdrawn := drawn_of_draw hpool hsource hdraw
    exact hdrawn.trans (ih hdrawn.pool_genuine hdrawn.source_genuine h)

/-! ## Genuine splits -/

section Splitting

variable {count : ℕ} {extent : Extent} {s : Split}

/-- A split cuts the pool that it ends with behind the first `count` members. -/
theorem cuts_of_split (h : pool.split count extent source = (.ok s, pool', after)) :
    count < pool'.primes.length ∧ s.lifting = pool'.primes.take count ∧
      s.basis <+: pool'.primes.drop count := by
  obtain ⟨middle, between, -, hcovers, rfl⟩ := splitBy_eq_ok h
  obtain ⟨hlength, -⟩ := coversBehind_eq_true.1 (done_of_drawUntil hcovers)
  exact ⟨hlength, rfl, extent.trim_isPrefix _⟩

/-- A split takes the smallest primes for lifting, and as its basis the next ones. -/
theorem split_eq_ok (hpool : pool.IsGenuine) (hsource : source.IsGenuine)
    (h : pool.split count extent source = (.ok s, pool', after)) :
    Drawn pool pool' after ∧ count < pool'.primes.length ∧
      s.lifting = pool'.primes.take count ∧ s.basis <+: pool'.primes.drop count := by
  refine ⟨?_, cuts_of_split h⟩
  obtain ⟨middle, between, hnear, hcovers, -⟩ := splitBy_eq_ok h
  obtain ⟨hfirst, -⟩ := drawn_of_drawUntil hpool hsource hnear
  obtain ⟨hsecond, -⟩ := drawn_of_drawUntil hfirst.pool_genuine hfirst.source_genuine hcovers
  exact hfirst.trans hsecond

end Splitting

end PrimePool
end PadicLift
