import PadicLift.Modular.Reduce
import PadicLift.Number.Inverse
import PadicLift.Number.Logarithm

/-!
# Residue bases

A basis is a list of pairwise coprime moduli `q_h`. An integer is known by its residues as long as
it lies in the balanced range `(-M/2, M/2]`, where `M` is the product of the moduli; `decode` reads
it back from residues as a sum with fixed weights, each congruent to 1 for one modulus and to 0 for
the others.
-/

namespace PadicLift

/-- Moduli with the weights that combine residues. -/
structure Basis where
  size : Nat
  moduli : Vector Nat size
  weights : Vector Nat size
deriving DecidableEq, Repr

namespace Basis

/-- Product of some moduli. -/
def productOf (moduli : List Nat) : Nat := moduli.foldl (· * ·) 1

/-- The multiple of all other moduli that is congruent to 1 for `q`, below their common product. -/
def weight (product q : Nat) : Except Fault Nat :=
  let others := product / q
  match inverse? (others % q) q with
  | some b => .ok (others * b)
  | none => .error (.argument .notInvertible)

/-- The basis with the given moduli. -/
def ofModuli (moduli : List Nat) : Except Fault Basis := do
  let product := productOf moduli
  let weights ← moduli.mapM (weight product)
  return {
    size := moduli.length
    moduli := Vector.ofFn fun h => moduli.get h
    weights := Vector.ofFn fun h => weights.getD h.val 0 }

/-- Whether some number stands twice in a list. -/
def hasRepetition : List Nat → Bool
  | [] => false
  | q :: rest => rest.contains q || hasRepetition rest

/-- The basis with the given moduli, which must be distinct, pairwise coprime and not too large. -/
def ofList (moduli : List Int) : Except Fault Basis := do
  if moduli.isEmpty then .error (.argument .emptyBasis)
  let qs ← checkModuli moduli
  if hasRepetition qs then .error (.argument (.repeatedModuli qs))
  ofModuli qs

/-- The product of the moduli. -/
def product (b : Basis) : Nat := productOf b.moduli.toList

/-- Half the product, rounded down. -/
def half (b : Basis) : Nat := b.product / 2

/-- The number of products of residues that one double can sum in every plane. -/
def block (b : Basis) : Nat :=
  Machine.blockLength Machine.doubleCapacity (b.moduli.toList.foldl max 0 : Nat)

/-- The size of the product in bits. -/
def bits (b : Basis) : Rat := Binary64.log2Sum b.moduli.toList

/-- A basis as text. -/
def text (b : Basis) : String :=
  s!"RnsDomain(K={b.size}, bits=" ++ Decimal.fixed 1 b.bits ++ ")"

/-- The number congruent to `x` modulo `M` that lies in `(-M/2, M/2]`. -/
def balanceIn (M : Nat) (x : Int) : Int :=
  let r := Int.emod x M
  if ((M / 2 : Nat) : Int) < r then r - M else r

/-- The number congruent to `x` modulo the product that lies in the balanced range. -/
def balance (b : Basis) (x : Int) : Int := balanceIn b.product x

/-- Residues of an integer. -/
def encode (b : Basis) (x : Int) : Vector Int b.size :=
  b.moduli.map fun (q : Nat) => Int.emod x q

/-- The integer in the balanced range with the given residues; a shorter list of residues counts as
if zeros followed. -/
def decode (b : Basis) (residues : List Int) : Int :=
  b.balance ((residues.zip b.weights.toList).foldl (fun s (r, w) => s + r * (w : Int)) 0)

/-- The inverses of numbers modulo every modulus: one row for each modulus. -/
def inverseTable (b : Basis) (numbers : List Int) : Except Fault (List (List Int)) :=
  b.moduli.toList.mapM fun (q : Nat) =>
    numbers.mapM fun p => inverseMod (Int.emod p q) q

end Basis
end PadicLift
