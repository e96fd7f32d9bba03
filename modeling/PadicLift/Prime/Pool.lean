import PadicLift.Modular.Reduce
import PadicLift.Prime.Extent
import PadicLift.Prime.Source

/-!
# A pool of distinct primes

A pool keeps the primes drawn from a source in increasing order, without repetition, above a floor
and apart from the primes that have been discarded. The source may be any feed of primes. Because
its members are distinct and at most `maxModulus`, a pool can only grow so far: `drawUntil` draws
until a condition on the members holds, and terminates because each draw either fails or adds a
member.

`split` cuts the pool into the smallest primes, for lifting, and the rest, from which it drops the
largest primes while the rest still covers what it has to. A call that fails leaves the pool with
whatever it had drawn by then.
-/

namespace PadicLift

theorem checkModulus_eq_ok {p : Int} {q : Nat} (h : checkModulus p = .ok q) :
    2 ≤ q ∧ q ≤ maxModulus ∧ (q : Int) = p := by
  unfold checkModulus at h
  split at h
  · cases h
  · split at h
    · cases h
    · cases h
      simp only [maxModulus] at *
      omega

/-- How many primes one draw may look at. -/
structure Allowance where
  /-- The number of primes. Where there is none, no draw can be made. -/
  count? : Option Int
  /-- The allowance as it was given. -/
  text : String
deriving DecidableEq, Repr

/-- An allowance of the given number of primes. -/
def Allowance.ofInt (count : Int) : Allowance := ⟨some count, toString count⟩

/-- Distinct primes in increasing order. -/
structure PrimePool where
  /-- Only primes above the floor are taken. -/
  floor : Nat
  allowance : Allowance
  /-- Primes that are never taken again. -/
  excluded : List Nat
  /-- The members. -/
  primes : List Nat
  increasing : primes.Pairwise (· < ·)
  le_max : ∀ p ∈ primes, p ≤ maxModulus

namespace PrimePool

/-- The pool without members that takes primes above `floor` only, and none of the given numbers. A
prime is above a negative floor as it is above 0. -/
def start (floor : Int) (allowance : Allowance) (excluded : List Int) : PrimePool where
  floor := floor.toNat
  allowance := allowance
  excluded := excluded.map Int.toNat
  primes := []
  increasing := .nil
  le_max := by simp

/-- The pool without members and without exclusions. -/
def empty (floor : Nat) (allowance : Allowance) : PrimePool := start floor allowance []

@[simp] theorem primes_empty (floor : Nat) (allowance : Allowance) :
    (empty floor allowance).primes = [] := rfl

@[simp] theorem excluded_empty (floor : Nat) (allowance : Allowance) :
    (empty floor allowance).excluded = [] := rfl

/-! ## Ordered insertion -/

/-- Puts `p` in front of the first larger number. -/
def insertOrdered (p : Nat) : List Nat → List Nat
  | [] => [p]
  | q :: rest => if p < q then p :: q :: rest else q :: insertOrdered p rest

theorem mem_insertOrdered {p q : Nat} {ps : List Nat} :
    q ∈ insertOrdered p ps ↔ q = p ∨ q ∈ ps := by
  induction ps with
  | nil => simp [insertOrdered]
  | cons r rest ih =>
    unfold insertOrdered
    split
    · simp
    · simp only [List.mem_cons, ih]
      grind

theorem length_insertOrdered (p : Nat) (ps : List Nat) :
    (insertOrdered p ps).length = ps.length + 1 := by
  induction ps with
  | nil => rfl
  | cons r rest ih =>
    unfold insertOrdered
    split
    · simp
    · simp [ih]

theorem pairwise_insertOrdered {p : Nat} {ps : List Nat} (h : ps.Pairwise (· < ·))
    (hp : p ∉ ps) : (insertOrdered p ps).Pairwise (· < ·) := by
  induction ps with
  | nil => simp [insertOrdered]
  | cons r rest ih =>
    rw [List.pairwise_cons] at h
    simp only [List.mem_cons, not_or] at hp
    unfold insertOrdered
    split
    · rename_i hlt
      rw [List.pairwise_cons, List.pairwise_cons]
      refine ⟨fun q hq => ?_, h⟩
      rcases List.mem_cons.1 hq with rfl | hq
      · exact hlt
      · exact Nat.lt_trans hlt (h.1 q hq)
    · rw [List.pairwise_cons]
      refine ⟨fun q hq => ?_, ih h.2 hp.2⟩
      rcases mem_insertOrdered.1 hq with rfl | hq
      · omega
      · exact h.1 q hq

/-- Increasing numbers between `low` and `high` are few. -/
theorem length_le_of_increasing {ps : List Nat} (low high : Nat) (h : ps.Pairwise (· < ·))
    (hl : ∀ p ∈ ps, low ≤ p) (hh : ∀ p ∈ ps, p ≤ high) : ps.length ≤ high + 1 - low := by
  induction ps generalizing low with
  | nil => simp
  | cons p rest ih =>
    rw [List.pairwise_cons] at h
    have h1 := ih (p + 1) h.2 (fun q hq => h.1 q hq) (fun q hq => hh q (by simp [hq]))
    have h2 := hl p (by simp)
    have h3 := hh p (by simp)
    simp only [List.length_cons]
    omega

theorem length_le (pool : PrimePool) : pool.primes.length ≤ maxModulus + 1 := by
  have := length_le_of_increasing 0 maxModulus pool.increasing (fun _ _ => Nat.zero_le _)
    pool.le_max
  omega

/-! ## Drawing -/

variable {σ : Type} [PrimeFeed σ]

/-- Whether a prime that passed the check of moduli can be taken. -/
def Accepts (pool : PrimePool) (p : Nat) : Prop :=
  pool.floor < p ∧ p ∉ pool.excluded ∧ p ∉ pool.primes

instance (pool : PrimePool) (p : Nat) : Decidable (pool.Accepts p) :=
  inferInstanceAs (Decidable (_ ∧ _ ∧ _))

/-- The pool with one more member. -/
def insert (pool : PrimePool) (p : Nat) (h : pool.Accepts p) (hp : p ≤ maxModulus) : PrimePool :=
  { pool with
    primes := insertOrdered p pool.primes
    increasing := pairwise_insertOrdered pool.increasing h.2.2
    le_max := by
      intro q hq
      rcases mem_insertOrdered.1 hq with rfl | hq
      · exact hp
      · exact pool.le_max q hq }

/-- Looks at no more than `fuel` primes of the source and takes the first acceptable one. -/
def drawWithin (pool : PrimePool) : Nat → σ → Except Fault Nat × PrimePool × σ
  | 0, source =>
    (.error (.lifting (.noNewPrime pool.allowance.text pool.primes.length)), pool, source)
  | fuel + 1, source =>
    match PrimeFeed.next source with
    | (.error f, after) => (.error f, pool, after)
    | (.ok p, after) =>
      match hq : checkModulus p with
      | .error f => (.error f, pool, after)
      | .ok q =>
        if h : pool.Accepts q then (.ok q, pool.insert q h (checkModulus_eq_ok hq).2.1, after)
        else drawWithin pool fuel after

/-- Adds one new prime from the source. -/
def draw (pool : PrimePool) (source : σ) : Except Fault Nat × PrimePool × σ :=
  match pool.allowance.count? with
  | some count => pool.drawWithin count.toNat source
  | none => (.error .kindMismatch, pool, source)

theorem length_of_drawWithin {pool pool' : PrimePool} {fuel p : Nat} {source after : σ}
    (h : pool.drawWithin fuel source = (.ok p, pool', after)) :
    pool'.primes.length = pool.primes.length + 1 := by
  induction fuel generalizing source with
  | zero => simp [drawWithin] at h
  | succ fuel ih =>
    unfold drawWithin at h
    split at h
    · simp at h
    · split at h
      · simp at h
      · split at h
        · simp only [Prod.mk.injEq, Except.ok.injEq] at h
          rw [← h.2.1]
          simp [insert, length_insertOrdered]
        · exact ih h

theorem length_of_draw {pool pool' : PrimePool} {p : Nat} {source after : σ}
    (h : pool.draw source = (.ok p, pool', after)) :
    pool'.primes.length = pool.primes.length + 1 := by
  unfold draw at h
  split at h
  · exact length_of_drawWithin h
  · simp at h

/-- Draws until the members satisfy `done`. -/
def drawUntil (done : List Nat → Bool) (pool : PrimePool) (source : σ) :
    Except Fault Unit × PrimePool × σ :=
  if done pool.primes then (.ok (), pool, source)
  else
    match _h : pool.draw source with
    | (.error f, pool', after) => (.error f, pool', after)
    | (.ok _, pool', after) => drawUntil done pool' after
termination_by maxModulus + 1 - pool.primes.length
decreasing_by
  have h1 := length_of_draw _h
  have h2 := pool'.length_le
  omega

/-- Draws until there are at least `count` members. -/
def fill (pool : PrimePool) (count : Int) (source : σ) : Except Fault Unit × PrimePool × σ :=
  pool.drawUntil (fun primes => decide (count ≤ primes.length)) source

/-- Removes a member for good. -/
def discard (pool : PrimePool) (p : Nat) : PrimePool :=
  { pool with
    excluded := p :: pool.excluded
    primes := pool.primes.erase p
    increasing := pool.increasing.sublist List.erase_sublist
    le_max := fun q hq => pool.le_max q (List.mem_of_mem_erase hq) }

/-! ## Splitting -/

/-- Lifting primes and basis primes. -/
structure Split where
  lifting : List Nat
  basis : List Nat
deriving DecidableEq, Repr

/-- Cuts the members in two, where `cut` tells how many of them are in front, and takes a basis that
covers from the rest. It draws as long as the rest is too small for one, and first as long as that
is certain. -/
def splitBy (pool : PrimePool) (cut : Nat → Nat) (extent : Extent) (source : σ) :
    Except Fault Split × PrimePool × σ :=
  let near (primes : List Nat) : Bool := extent.isNear (primes.drop (cut primes.length))
  let enough (primes : List Nat) : Bool :=
    let rest := primes.drop (cut primes.length)
    !rest.isEmpty && extent.isCovered rest
  match pool.drawUntil near source with
  | (.error f, pool, source) => (.error f, pool, source)
  | (.ok _, pool, source) =>
    match pool.drawUntil enough source with
    | (.error f, pool, source) => (.error f, pool, source)
    | (.ok _, pool, source) =>
      let front := cut pool.primes.length
      (.ok ⟨pool.primes.take front, extent.trim (pool.primes.drop front)⟩, pool, source)

/-- Cuts off the `count` smallest primes. -/
def split (pool : PrimePool) (count : Nat) (extent : Extent) (source : σ) :
    Except Fault Split × PrimePool × σ :=
  pool.splitBy (fun _ => count) extent source

/-- How many of `size` members a count puts in front. A negative count says how many are left
behind them. -/
def cutAt (count : Int) (size : Nat) : Nat :=
  match count with
  | .ofNat k => k
  | .negSucc k => size - (k + 1)

/-- Cuts off primes by a count of either sign. -/
def splitAt (pool : PrimePool) (count : Int) (extent : Extent) (source : σ) :
    Except Fault Split × PrimePool × σ :=
  pool.splitBy (cutAt count) extent source

theorem splitAt_natCast (pool : PrimePool) (count : Nat) (extent : Extent) (source : σ) :
    pool.splitAt count extent source = pool.split count extent source := rfl

end PrimePool
end PadicLift
