import PadicLift.Document.Quantity
import PadicLift.Number.Primality

/-!
# Sources of primes

A source hands out primes one at a time. A random source runs a linear congruential generator
modulo `2 ^ 64`, forms an odd number with exactly `bits` bits from the top of each state and hands
out the candidates that are prime; a listed source hands out a given list. Neither promises distinct
primes. A source of which more was asked than it can do, such as primes of two and a half bits, is
idle: it promises a size and hands out nothing. The state after a failed call is an ordinary result,
because later calls go on from it; of an idle source only the calls are modelled, and no state.

Whoever only draws primes does not have to know where they come from: `PrimeFeed` is all that can be
asked of a source then, and a `PrimeSource` is one.
-/

-- Powers take their instance from the core library, whatever else is in scope.
attribute [local instance (high)] instPowNat

namespace PadicLift

/-- What hands out one prime after the other, or fails to. -/
class PrimeFeed (σ : Type) where
  /-- The next prime, and the feed from then on. -/
  next : σ → Except Fault Nat × σ

/-- Where primes come from. -/
inductive PrimeSource
  /-- Random primes of `bits` bits; `limit` candidates are tried for each. -/
  | random (bits : Nat) (seed : Quantity) (limit : Int) (state : UInt64)
  /-- The primes of a list of `count` primes, of at most `bits` bits, that are left. -/
  | listed (count bits : Nat) (rest : List Nat)
  /-- No primes, of a promised size. What the generator of such a source would be at is not kept: no
  call of it succeeds, so nothing that is handed out depends on it. -/
  | idle (bits seed : Quantity)
deriving DecidableEq, Repr

namespace PrimeSource

/-- The successor of a generator state. -/
def advance (state : UInt64) : UInt64 := state * 6364136223846793005 + 1442695040888963407

/-- The odd number with `bits` bits that the top of a state gives. -/
def candidate (bits : Nat) (state : UInt64) : Nat :=
  state.toNat >>> (64 - bits) ||| 2 ^ (bits - 1) ||| 1

/-- The state that a seed starts from. -/
def startState (seed : Int) : UInt64 := UInt64.ofNat (seed % 2 ^ (64 : Nat)).toNat

/-- A random source of primes with 3 to 62 bits. -/
def ofSeed (bits seed limit : Int) : Except Fault PrimeSource :=
  if bits < 3 ∨ 62 < bits then .error (.argument (.sourceBits (toString bits)))
  else .ok (.random bits.toNat (.ofInt seed) limit (startState seed))

/-- A random source whose size, seed and limit come from documents. The seed has to be an integer;
a source whose size or limit is none is idle. -/
def ofDocuments (bits seed limit : Document) : Except Fault PrimeSource := do
  let size ← Quantity.ofDocument bits
  if size.isBelow 3 || (Number.whole 62).before size.toNumber then
    .error (.argument (.sourceBits size.text))
  let start ← Quantity.ofDocument seed
  match size.integer?, start.integer?, limit.integer? with
  | some k, some v, some tries => return .random k.toNat start tries (startState v)
  | _, some _, _ => return .idle size start
  | _, none, _ => .error .kindMismatch

/-- The number of binary digits. -/
def bitLength (n : Nat) : Nat := if n = 0 then 0 else Nat.log2 n + 1

/-- The first number of a list that is no prime. -/
def firstComposite (numbers : List Int) : Option Int :=
  numbers.find? fun p => !isPrimeInt p

/-- A source that hands out the given primes. -/
def ofList (primes : List Int) : Except Fault PrimeSource :=
  match firstComposite primes with
  | some p => .error (.argument (.notPrime p))
  | none =>
    let ps := primes.map Int.toNat
    .ok (.listed ps.length (ps.foldl (fun s p => max s (bitLength p)) 0) ps)

/-- The size of the primes to expect, in bits. -/
def size : PrimeSource → Rat
  | .random bits .. => (bits : Rat)
  | .listed _ bits _ => (bits : Rat)
  | .idle bits _ => bits.toNumber.value

/-- How many primes a listed source has left. -/
def remaining : PrimeSource → Option Nat
  | .listed _ _ rest => some rest.length
  | _ => none

/-- The first prime among the next `fuel` candidates, and the state after the last one tried. -/
def search (bits : Nat) : Nat → UInt64 → Option Nat × UInt64
  | 0, state => (none, state)
  | fuel + 1, state =>
    let after := advance state
    let c := candidate bits after
    if isPrime c then (some c, after) else search bits fuel after

/-- The next prime. -/
def next : PrimeSource → Except Fault Nat × PrimeSource
  | .random bits seed limit state =>
    let (found, after) := search bits limit.toNat state
    let source := .random bits seed limit after
    match found with
    | some p => (.ok p, source)
    | none => (.error (.lifting (.noCandidate bits limit)), source)
  | .listed count bits [] => (.error (.lifting (.listExhausted count)), .listed count bits [])
  | .listed count bits (p :: rest) => (.ok p, .listed count bits rest)
  | .idle bits seed => (.error .kindMismatch, .idle bits seed)

instance : PrimeFeed PrimeSource := ⟨next⟩

/-- The next `n` primes. One prime more is drawn and dropped: the source is asked before the count
is. -/
def take (source : PrimeSource) : Nat → Except Fault (List Nat) × PrimeSource
  | 0 =>
    match source.next with
    | (.error f, after) => (.error f, after)
    | (.ok _, after) => (.ok [], after)
  | n + 1 =>
    match source.next with
    | (.error f, after) => (.error f, after)
    | (.ok p, after) =>
      match after.take n with
      | (.error f, last) => (.error f, last)
      | (.ok ps, last) => (.ok (p :: ps), last)

/-- A random source as text. -/
def text? : PrimeSource → Option String
  | .random bits seed .. => some (s!"PrimeGenerator(bits={bits}, seed=" ++ seed.text ++ ")")
  | .idle bits seed => some ("PrimeGenerator(bits=" ++ bits.text ++ ", seed=" ++ seed.text ++ ")")
  | .listed .. => none

end PrimeSource
end PadicLift
