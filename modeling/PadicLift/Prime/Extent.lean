import PadicLift.Fault
import PadicLift.Number.Logarithm

/-!
# What a basis has to cover

A basis is large enough if the sum of the logarithms of its primes, taken from the smallest prime
up, exceeds a number of bits. `trim` drops the largest primes of a basis as long as the others are
still enough; it adds up the logarithms once, because the sum in front of a prime is the sum without
that prime and the larger ones.
-/

-- Powers take their instance from the core library, whatever else is in scope.
attribute [local instance (high)] instPowNat

namespace PadicLift

/-- What a residue basis has to cover. -/
inductive Extent
  /-- A number of bits. -/
  | bits (value : Rat)
  /-- More than any basis has; the fault says why no number of primes can be expected to do. -/
  | boundless (fault : Fault)
deriving DecidableEq, Repr

namespace Extent

/-- Whether a sum of logarithms is enough. -/
def isReached : Extent → Rat → Bool
  | .bits value, sum => decide (value < sum)
  | .boundless _, _ => false

/-- Whether a basis is enough. -/
def isCovered (extent : Extent) (basis : List Nat) : Bool :=
  extent.isReached (Binary64.log2Sum basis)

/-! ## An estimate -/

/-- The logarithm of a number, rounded up to sixteenths. -/
def sixteenths (p : Nat) : Nat := Nat.log2 (p ^ (16 : Nat)) + 1

/-- Whether a basis may be enough: no logarithm is larger than in sixteenths, and a sum of
sixteenths needs no rounding. -/
def isNear (extent : Extent) (basis : List Nat) : Bool :=
  extent.isReached (mkRat (basis.foldl (fun s p => s + sixteenths p) 0 : Nat) 16)

/-! ## Dropping primes -/

/-- Primes, each with the sum of `sum` and the logarithms in front of it. -/
def withSums (sum : Rat) : List Nat → List (Nat × Rat)
  | [] => []
  | p :: rest => (p, sum) :: withSums (Binary64.add sum (Binary64.log2Nat p)) rest

theorem map_fst_withSums (sum : Rat) (basis : List Nat) :
    (withSums sum basis).map Prod.fst = basis := by
  induction basis generalizing sum with
  | nil => rfl
  | cons p rest ih => simp [withSums, ih]

/-- Drops the largest primes while the others are still enough; one prime stays. -/
def trim (extent : Extent) (basis : List Nat) : List Nat :=
  match withSums 0 basis with
  | [] => []
  | first :: rest =>
    first.1 :: (rest.reverse.dropWhile fun x => extent.isReached x.2).reverse.map Prod.fst

end Extent
end PadicLift
