import PadicLift.Bound
import PadicLift.Modular.Elimination
import PadicLift.Prime.Pool
import PadicLift.Settings
import PadicLift.System

/-!
# Plans

A plan fixes everything about a solve before the first digit: the lifting primes with the inverse of
the matrix modulo each, the primes of the residue basis, the size bounds, and the number of digits.

Lifting primes are either given, or the smallest primes of a pool. A drawn prime that divides the
determinant is discarded and replaced, a limited number of times. All basis primes are larger than
all lifting primes, so digits and remainders are residues in every plane as they are. The number of
digits `k` satisfies `2 * N * D < P ^ k`, where `P` is the product of the lifting primes, `N` bounds
the numerators and `D` the denominator.

The source of primes and the notices about replaced primes are threaded through as a `Supply`, which
a failed selection leaves as it stands.
-/

-- Powers take their instance from the core library, whatever else is in scope.
attribute [local instance (high)] instPowNat

namespace PadicLift

/-- A lifting prime and the inverse of the matrix modulo it. -/
structure Channel (n : Nat) where
  prime : Nat
  inverse : Mat n n
deriving DecidableEq, Repr

/-- Everything that is fixed before the first digit. -/
structure Plan (n : Nat) where
  /-- The lifting primes in increasing order, each with its inverse. -/
  channels : List (Channel n)
  /-- The primes of the residue basis in increasing order. -/
  basis : List Nat
  /-- The largest absolute value of an entry of the matrix. -/
  norm : Nat
  /-- The bits that the basis has to cover. -/
  basisBits : Rat
  bound : SolutionBound
  /-- The number of digits for each lifting prime. -/
  iterations : Nat
  /-- Replaced primes, in the order of their replacement. -/
  discarded : List Nat
deriving DecidableEq, Repr

namespace Plan

variable {n : Nat}

/-- The lifting primes. -/
def primes (p : Plan n) : List Nat := p.channels.map Channel.prime

/-- The product of the lifting primes. -/
def modulus (p : Plan n) : Nat := p.primes.foldl (· * ·) 1

end Plan

/-- The replacement of a prime that divides the determinant. -/
structure Replacement where
  prime : Nat
  number : Nat
  /-- The limit on replacements, as it was given. -/
  limit : String
deriving DecidableEq, Repr

/-- The wording of a notice about a replacement. -/
def Replacement.message (r : Replacement) : String :=
  s!"lifting prime {r.prime} divides det(A); redrawing (retry {r.number}/" ++ r.limit ++ ")"

/-- A source of primes and the replacements so far. -/
structure Supply where
  source : PrimeSource
  replacements : List Replacement
deriving DecidableEq, Repr

/-! ## What the basis has to cover -/

namespace Extent

/-- The bits that a residue basis has to cover, so that it holds the entries of a product with the
matrix and the sign. -/
def bitsFor (norm n : Nat) (margin : Rat) : Rat :=
  Binary64.add (Binary64.add (Binary64.log2Nat norm) (Binary64.log2Nat n)) margin

/-- What a basis has to cover with a margin. An integer has to be a double for this. -/
def ofMargin (norm n : Nat) (margin : Number) : Except Fault Extent :=
  match margin with
  | .infinite _ => .ok (.boundless .overflow)
  | .undefined => .ok (.boundless (.argument .undefinedInteger))
  | x =>
    let rounded := Binary64.round x.value
    if rounded < Number.doubleLimit then .ok (.bits (bitsFor norm n rounded))
    else .error .overflow

/-- The number of primes that cover an extent if each has one bit less than the source promises. -/
def share (extent : Extent) (source : PrimeSource) : Except Fault Int :=
  match extent with
  | .bits value =>
    let each := source.size - 1
    .ok (Binary64.div value (if 1 < each then each else 1)).ceil
  | .boundless f => .error f

end Extent

namespace Selection

variable {n : Nat}

/-- How the lifting primes are chosen. -/
inductive Choice
  /-- The smallest primes of the pool, as many as given; without a number, or with the number 0, as
  many as the settings say. -/
  | smallest (count : Option Int)
  /-- Exactly these primes. -/
  | given (primes : List Int)
deriving DecidableEq, Repr

/-! ## Inverses -/

/-- Inverses that the caller knows already, by prime. -/
abbrev Known (n : Nat) := List (Nat × Mat n n)

/-- Sets the entry of a prime: in place if there is one, at the end otherwise. -/
def setEntry {α : Type} (entries : List (Int × α)) (p : Int) (x : α) : List (Int × α) :=
  if entries.any fun e => e.1 == p then entries.map fun e => if e.1 == p then (p, x) else e
  else entries ++ [(p, x)]

/-- Entries by prime; a later one replaces an earlier one of the same prime. -/
def byPrime {α : Type} (entries : List (Int × α)) : List (Int × α) :=
  entries.foldl (fun done e => setEntry done e.1 e.2) []

/-- The residues of a matrix for a modulus. -/
abbrev Residues (n : Nat) := Nat → Except Fault (Mat n n)

/-- Admits a supplied inverse if it is one. Its places become words; a double loses its fraction,
and a text is read as an integer. -/
def admitInverse (residues : Residues n) (p : Int) (supplied : Nested) :
    Except Fault (Nat × Mat n n) := do
  let q ← checkModulus p
  let words ← toWords supplied
  let R ← residues q
  let refused : Except Fault (Nat × Mat n n) := .error (.argument (.wrongInverse q))
  if supplied.shape ≠ [n, n] then refused
  else
    let B := (Nested.matOfList words n n).reduce q
    if R.isInverseMod q B then return (q, B) else refused

/-- Admits all supplied inverses, in order. -/
def admitAll (residues : Residues n) (supplied : List (Int × Nested)) : Except Fault (Known n) :=
  (byPrime supplied).mapM fun e => admitInverse residues e.1 e.2

/-- The channel of a prime, with the known inverse or a computed one. -/
def channel (residues : Residues n) (known : Known n) (p : Nat) : Except Fault (Channel n) :=
  match known.lookup p with
  | some B => .ok ⟨p, B⟩
  | none => do
    match ← (← residues p).inverseMod p with
    | .inverse B => return ⟨p, B⟩
    | .singular k => .error (.lifting (.singular p k))

/-- The channels of several primes. -/
def channels (residues : Residues n) (known : Known n) (primes : List Nat) :
    Except Fault (List (Channel n)) :=
  primes.mapM (channel residues known)

/-! ## Lifting primes and basis -/

/-- Channels and a basis, with the primes discarded on the way. -/
structure Moduli (n : Nat) where
  channels : List (Channel n)
  basis : List Nat
  discarded : List Nat
deriving DecidableEq, Repr

/-- Given numbers in increasing order, without repetition. -/
def ordered (numbers : List Int) : List Int :=
  numbers.foldr
    (fun x done => if done.contains x then done else
      done.takeWhile (· < x) ++ x :: done.dropWhile (· < x)) []

/-- Admits given lifting primes, in order. -/
def admitPrimes : List Int → Except Fault (List Nat)
  | [] => .ok []
  | p :: rest => do
    let q ← checkModulus p
    if !isPrime q then .error (.argument (.liftingNotPrime p))
    let qs ← admitPrimes rest
    return q :: qs

/-- Given lifting primes, and a basis of larger primes from the source. -/
def fromGiven (residues : Residues n) (known : Known n) (settings : Settings) (primes : List Int)
    (extent : Extent) (supply : Supply) : Except Fault (Moduli n) × Supply :=
  let prepared : Except Fault (List (Channel n)) := do
    let distinct := ordered primes
    if distinct = [] then .error (.argument .noLiftingPrimes)
    let qs ← admitPrimes distinct
    channels residues known qs
  match prepared with
  | .error f => (.error f, supply)
  | .ok cs =>
    let floor := (cs.map Channel.prime).foldl max 0
    match (PrimePool.empty floor settings.allowance).split 0 extent supply.source with
    | (.error f, _, source) => (.error f, { supply with source })
    | (.ok s, _, source) => (.ok ⟨cs, s.basis, []⟩, { supply with source })

/-- Splits the pool until the smallest primes all have inverses. After an unlucky prime, and as long
as `retries` allows, that prime is discarded and one new prime is drawn. Notices count from the
number of retries that were allowed at first. -/
def settle (residues : Residues n) (known : Known n) (allowed : Nat) (limit : String) (count : Nat)
    (extent : Extent) : Nat → List Nat → PrimePool → Supply → Except Fault (Moduli n) × Supply
  | retries, discarded, pool, supply =>
    match pool.split count extent supply.source with
    | (.error f, _, source) => (.error f, { supply with source })
    | (.ok s, pool, source) =>
      match channels residues known s.lifting, retries with
      | .ok cs, _ => (.ok ⟨cs, s.basis, discarded⟩, { supply with source })
      | .error (.lifting (.singular p _)), retries + 1 =>
        let notice : Replacement := ⟨p, allowed - retries, limit⟩
        let replacements := supply.replacements ++ [notice]
        match (pool.discard p).draw source with
        | (.error f, _, source) => (.error f, ⟨source, replacements⟩)
        | (.ok _, pool, source) =>
          settle residues known allowed limit count extent retries (discarded ++ [p]) pool
            ⟨source, replacements⟩
      | .error f, _ => (.error f, { supply with source })

/-- The size of a pool with `count` primes beside `share` others. A count that is no integer is
added in doubles; no pool is large enough for an infinite one. -/
def poolSize (count : Quantity) (share : Int) : Option Int :=
  match count.integer?, count.toNumber with
  | some c, _ => some (c + share)
  | none, .infinite _ => none
  | none, .undefined => some 0
  | none, x => some (Binary64.add x.value (Binary64.roundInt share)).ceil

/-- Whether there are at least `size` primes, if that is a number of primes at all. -/
def isFilled (size : Option Int) (primes : List Nat) : Bool :=
  match size with
  | some k => decide (k ≤ primes.length)
  | none => false

/-- The smallest primes of a pool for lifting, and the others for the basis. The pool is filled with
the primes that are expected to do, before a count that is no integer is refused. -/
def fromPool (residues : Residues n) (known : Known n) (settings : Settings)
    (asked : Option Int) (extent : Extent) (supply : Supply) : Except Fault (Moduli n) × Supply :=
  let wanted := asked.getD 0
  let count := if wanted = 0 then settings.primesCount else .ofInt wanted
  if count.isBelow 1 then (.error (.argument (.primesCountTooSmall count.text)), supply)
  else
    match extent.share supply.source with
    | .error f => (.error f, supply)
    | .ok others =>
      let pool := PrimePool.empty 0 settings.allowance
      match pool.drawUntil (isFilled (poolSize count others)) supply.source, count.integer? with
      | (.error f, _, source), _ => (.error f, { supply with source })
      | (.ok _, _, source), none => (.error .kindMismatch, { supply with source })
      | (.ok _, pool, source), some c =>
        settle residues known settings.retries settings.maxRetries.text c.toNat extent
          settings.retries [] pool { supply with source }

/-! ## Number of digits -/

/-- The least `k ≥ start` with `limit < P ^ k`, for `P ≥ 2`. -/
def leastExponent (P limit k : Nat) : Nat :=
  if h : 2 ≤ P ∧ P ^ k ≤ limit then leastExponent P limit (k + 1) else k
termination_by limit + 1 - P ^ k
decreasing_by
  have h1 : P ^ k < P ^ (k + 1) := Nat.pow_lt_pow_right (by omega) (by omega)
  omega

/-- The number of digits for lifting primes `primes`: an estimate from logarithms, raised until
`2 * N * D < P ^ k` holds. -/
def digitCount (primes : List Nat) (bound : SolutionBound) : Nat :=
  let estimate := (Binary64.div bound.log (Binary64.log2Sum primes)).ceil
  leastExponent (primes.foldl (· * ·) 1) (2 * bound.numBound * bound.denBound)
    (max 1 estimate).toNat

/-! ## Selection -/

/-- Completes a plan: checks that the basis holds every correction, and counts the digits. -/
def complete (system : Profile n) (norm : Nat) (bits : Rat) (m : Moduli n) :
    Except Fault (Plan n) := do
  let product := m.basis.foldl (· * ·) 1
  let largest := n * norm + 1
  if product ≤ 2 * largest then
    .error (.lifting (.basisTooSmall (Binary64.log2Nat product) largest))
  let bound ← SolutionBound.ofPartial system.matrix (system.right.map Vector.toList)
  return {
    channels := m.channels
    basis := m.basis
    norm := norm
    basisBits := bits
    bound := bound
    iterations := digitCount (m.channels.map Channel.prime) bound
    discarded := m.discarded }

/-- Chooses lifting primes and a residue basis for a matrix with the given residues. -/
def chooseModuli (residues : Residues n) (known : Known n) (settings : Settings) (choice : Choice)
    (extent : Extent) (supply : Supply) : Except Fault (Moduli n) × Supply :=
  match choice with
  | .given primes => fromGiven residues known settings primes extent supply
  | .smallest count => fromPool residues known settings count extent supply

/-- Chooses lifting primes, a residue basis and the number of digits for the profile of a
system. -/
def selectFor (system : Profile n) (settings : Settings) (choice : Choice)
    (supplied : List (Int × Nested)) (supply : Supply) : Except Fault (Plan n) × Supply :=
  let norm := system.matrix.maxAbs
  if norm = 0 then (.error (.argument .zeroMatrix), supply)
  else
    let prepared : Except Fault (Extent × Known n) := do
      let extent ← Extent.ofMargin norm n settings.margin.toNumber
      let known ← admitAll system.residues supplied
      return (extent, known)
    match prepared with
    | .error f => (.error f, supply)
    | .ok (extent, known) =>
      match chooseModuli system.residues known settings choice extent supply, extent with
      | (.error f, after), _ => (.error f, after)
      | (.ok m, after), .bits value => (complete system norm value m, after)
      | (.ok _, after), .boundless f => (.error f, after)

/-- Chooses lifting primes, a residue basis and the number of digits for a system. -/
def select (S : LinearSystem n) (settings : Settings) (choice : Choice)
    (supplied : List (Int × Nested)) (supply : Supply) : Except Fault (Plan n) × Supply :=
  selectFor S.profile settings choice supplied supply

end Selection

/-- A plan with its number of unknowns. -/
structure SomePlan where
  size : Nat
  plan : Plan size

/-- Selection for a system given by nested lists. -/
def SomePlan.select (a b : Nested) (settings : Settings) (choice : Selection.Choice)
    (supplied : List (Int × Nested)) (supply : Supply) : Except Fault SomePlan × Supply :=
  match SomeSystem.read a b with
  | .error f => (.error f, supply)
  | .ok S =>
    let (plan, after) := Selection.selectFor S.profile settings choice supplied supply
    (plan.map fun p => ⟨S.size, p⟩, after)

end PadicLift
