import PadicLift.Proofs.Prime.Failures

/-!
# Draws from any feed

A feed is known by its answers, in order. If every answer is a number from 2 up, or that there are
no more, then a draw ends in one of four ways (`PrimePool.DrawEnds`): it passes over answers, no
more of them than it may ask for, until it meets one that it cannot pass over. So it fails for want
of primes or because of a prime that is too large, and then leaves the pool as it is, or it adds a
member. A pool does not ask whether a number is prime, and nothing here depends on it.
-/

namespace PadicLift

/-! ## Answers -/

namespace PrimeFeed

variable {σ : Type} [PrimeFeed σ] {source : σ}

/-- The feed after it has been asked `n` times. -/
def after (source : σ) (n : ℕ) : σ := (fun feed => (next feed).2)^[n] source

/-- What the feed answers after `i` other answers. -/
def answer (source : σ) (i : ℕ) : Except Fault ℕ := (next (after source i)).1

theorem after_after (source : σ) (m n : ℕ) : after (after source m) n = after source (m + n) := by
  rw [Nat.add_comm]
  exact (Function.iterate_add_apply _ n m source).symm

theorem answer_after (source : σ) (m i : ℕ) :
    answer (after source m) i = answer source (m + i) := by
  rw [answer, after_after, answer]

theorem next_eq (source : σ) : next source = (answer source 0, after source 1) := rfl

/-- Every answer is a number from 2 up, or that there are no more. -/
structure IsSequence (source : σ) : Prop where
  two_le : ∀ i p, answer source i = .ok p → 2 ≤ p
  lacksPrimes : ∀ i f, answer source i = .error f → f.LacksPrimes

theorem IsSequence.later (h : IsSequence source) (n : ℕ) : IsSequence (after source n) where
  two_le i p hi := h.two_le (n + i) p (answer_after source n i ▸ hi)
  lacksPrimes i f hi := h.lacksPrimes (n + i) f (answer_after source n i ▸ hi)

/-- It is enough that an invariant of the feed promises this of the next answer. -/
theorem isSequence_of_invariant (Inv : σ → Prop)
    (hnext : ∀ feed, Inv feed → Inv (next feed).2)
    (htwo : ∀ feed p, Inv feed → (next feed).1 = .ok p → 2 ≤ p)
    (hlacks : ∀ feed f, Inv feed → (next feed).1 = .error f → f.LacksPrimes) (h : Inv source) :
    IsSequence source := by
  have hafter (n : ℕ) : Inv (after source n) := by
    induction n generalizing source with
    | zero => exact h
    | succ n ih => exact ih (hnext source h)
  exact ⟨fun i p => htwo _ p (hafter i), fun i f => hlacks _ f (hafter i)⟩

end PrimeFeed

/-- The sources that can be made, and can be asked, are sequences. -/
theorem PrimeSource.IsGenuine.isSequence {source : PrimeSource} (hsource : source.IsGenuine)
    (hidle : ¬ source.IsIdle) : PrimeFeed.IsSequence source := by
  apply PrimeFeed.isSequence_of_invariant (fun s => s.IsGenuine ∧ ¬ s.IsIdle) _ _ _
    ⟨hsource, hidle⟩
  · intro s hs
    exact ⟨(hs.1.next rfl).1, (not_isIdle_of_next hs.2 rfl).1⟩
  · intro s p hs hp
    exact two_le_of_isPrime ((hs.1.next rfl).2 p hp)
  · intro s f hs hf
    exact (not_isIdle_of_next hs.2 rfl).2 f hf

/-- Numbers in order, infinitely many or up to a first gap, and how many have been handed out. -/
structure NumberSequence where
  term : ℕ → Option ℕ
  position : ℕ

namespace NumberSequence

/-- The next number. At a gap the sequence has come to its end. -/
def next (s : NumberSequence) : Except Fault ℕ × NumberSequence :=
  match s.term s.position with
  | some p => (.ok p, { s with position := s.position + 1 })
  | none => (.error (.lifting (.listExhausted s.position)), s)

instance : PrimeFeed NumberSequence := ⟨next⟩

theorem isSequence {s : NumberSequence} (h : ∀ i p, s.term i = some p → 2 ≤ p) :
    PrimeFeed.IsSequence s := by
  apply PrimeFeed.isSequence_of_invariant (fun t => ∀ i p, t.term i = some p → 2 ≤ p) _ _ _ h
  · intro t ht
    show ∀ i p, t.next.2.term i = some p → 2 ≤ p
    unfold next
    split <;> exact ht
  · intro t p ht hp
    change t.next.1 = .ok p at hp
    unfold next at hp
    split at hp
    next q hq =>
      cases hp
      exact ht _ _ hq
    next => cases hp
  · intro t f ht hf
    change t.next.1 = .error f at hf
    unfold next at hf
    split at hf
    next => cases hf
    next =>
      cases hf
      trivial

end NumberSequence

/-! ## One draw -/

namespace PrimePool

open PrimeFeed

variable {σ : Type} [PrimeFeed σ] {source last : σ} {pool pool' : PrimePool} {limit k : ℕ}

/-- The pool passes over a modulus that it cannot take. -/
def PassesOver (pool : PrimePool) (answer : Except Fault ℕ) : Prop :=
  ∃ p ≤ maxModulus, answer = .ok p ∧ ¬ pool.Accepts p

/-- How a draw ends that may ask `limit` times, and what it leaves behind. -/
inductive DrawEnds (pool : PrimePool) (source : σ) (limit : ℕ) :
    Except Fault ℕ × PrimePool × σ → Prop
  /-- It has passed over as many answers as it may ask for. -/
  | usedUp : (∀ i < limit, pool.PassesOver (answer source i)) →
      DrawEnds pool source limit
        (.error (.lifting (.noNewPrime pool.allowance.text pool.primes.length)), pool,
          after source limit)
  /-- There are no more numbers. -/
  | runsDry {k : ℕ} {f : Fault} : k < limit → (∀ i < k, pool.PassesOver (answer source i)) →
      answer source k = .error f → f.LacksPrimes →
      DrawEnds pool source limit (.error f, pool, after source (k + 1))
  /-- A number is too large for a modulus. -/
  | tooLarge {k p : ℕ} : k < limit → (∀ i < k, pool.PassesOver (answer source i)) →
      answer source k = .ok p → maxModulus < p →
      DrawEnds pool source limit
        (.error (.lifting (.modulusTooLarge p)), pool, after source (k + 1))
  /-- The pool takes a number. -/
  | takes {k p : ℕ} (haccepts : pool.Accepts p) (hmax : p ≤ maxModulus) : k < limit →
      (∀ i < k, pool.PassesOver (answer source i)) → answer source k = .ok p →
      DrawEnds pool source limit (.ok p, pool.insert p haccepts hmax, after source (k + 1))

theorem forall_lt_succ_passesOver (h : pool.PassesOver (answer source 0))
    (hrest : ∀ i < k, pool.PassesOver (answer (after source 1) i)) :
    ∀ i < k + 1, pool.PassesOver (answer source i) := by
  intro i hi
  cases i with
  | zero => exact h
  | succ i => exact hrest i (Nat.lt_of_succ_lt_succ hi)

/-- Passing over one answer more changes nothing about the end. -/
theorem DrawEnds.afterPassingOver {r : Except Fault ℕ × PrimePool × σ}
    (hfirst : pool.PassesOver (answer source 0)) (h : DrawEnds pool (after source 1) limit r) :
    DrawEnds pool source (limit + 1) r := by
  cases h with
  | usedUp hall => exact .usedUp (forall_lt_succ_passesOver hfirst hall)
  | runsDry hk hall hanswer hlacks =>
    exact .runsDry (Nat.succ_lt_succ hk) (forall_lt_succ_passesOver hfirst hall) hanswer hlacks
  | tooLarge hk hall hanswer hlarge =>
    exact .tooLarge (Nat.succ_lt_succ hk) (forall_lt_succ_passesOver hfirst hall) hanswer hlarge
  | takes haccepts hmax hk hall hanswer =>
    exact .takes haccepts hmax (Nat.succ_lt_succ hk) (forall_lt_succ_passesOver hfirst hall) hanswer

/-- A draw ends in one of these ways. -/
theorem drawEnds_drawWithin (hsource : IsSequence source) (pool : PrimePool) (limit : ℕ) :
    DrawEnds pool source limit (pool.drawWithin limit source) := by
  -- The pool is the same at every answer that is passed over: only the feed has moved on.
  induction limit generalizing source with
  | zero => exact .usedUp nofun
  | succ limit ih =>
    unfold drawWithin
    rw [next_eq]
    split
    next f feed hnext =>
      obtain ⟨hanswer, rfl⟩ := Prod.mk.inj hnext
      exact .runsDry (Nat.succ_pos _) nofun hanswer (hsource.lacksPrimes 0 f hanswer)
    next p feed hnext =>
      obtain ⟨hanswer, rfl⟩ := Prod.mk.inj hnext
      split
      next hmodulus =>
        obtain ⟨hlarge, rfl⟩ := modulusTooLarge_of_two_le (hsource.two_le 0 p hanswer) hmodulus
        exact .tooLarge (Nat.succ_pos _) nofun hanswer hlarge
      next q hmodulus =>
        obtain ⟨-, hmax, hcast⟩ := checkModulus_eq_ok hmodulus
        obtain rfl := Int.ofNat_inj.1 hcast
        split
        next haccepts => exact .takes haccepts hmax (Nat.succ_pos _) nofun hanswer
        next hnot => exact (ih (hsource.later 1)).afterPassingOver ⟨_, hmax, hanswer, hnot⟩

/-- The allowance is the number of answers it may ask for. -/
theorem drawEnds_draw (hsource : IsSequence source) {count : ℤ}
    (hcount : pool.allowance.count? = some count) :
    DrawEnds pool source count.toNat (pool.draw source) := by
  unfold draw
  rw [hcount]
  exact drawEnds_drawWithin hsource pool count.toNat

/-- A draw that fails changes nothing but the source. -/
theorem DrawEnds.of_error {f : Fault} (h : DrawEnds pool source limit (.error f, pool', last)) :
    pool' = pool ∧ (f.LacksPrimes ∨ f.IsOversized) ∧
      ∃ asked ≤ limit, last = after source asked := by
  cases h with
  | usedUp => exact ⟨rfl, .inl trivial, limit, le_rfl, rfl⟩
  | runsDry hk _ _ hlacks => exact ⟨rfl, .inl hlacks, _, hk, rfl⟩
  | tooLarge hk => exact ⟨rfl, .inr trivial, _, hk, rfl⟩

/-- A draw that returns adds the number that it has asked for last. -/
theorem DrawEnds.of_ok {p : ℕ} (h : DrawEnds pool source limit (.ok p, pool', last)) :
    ∃ k < limit, answer source k = .ok p ∧ last = after source (k + 1) ∧
      ∃ (haccepts : pool.Accepts p) (hmax : p ≤ maxModulus),
        pool' = pool.insert p haccepts hmax := by
  cases h with
  | takes haccepts hmax hk _ hanswer => exact ⟨_, hk, hanswer, rfl, haccepts, hmax, rfl⟩

end PrimePool
end PadicLift
