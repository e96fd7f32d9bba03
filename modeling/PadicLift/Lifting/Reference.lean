import PadicLift.Modular.Elimination

/-!
# Digits in exact integers

The digits of the solution of `A x = b` in base `p`: each digit is the inverse of `A` modulo `p`
times the residual, and the residual with the digit's part taken out is divided by `p`.
-/

namespace PadicLift
namespace Reference

variable {n : Nat}

/-- One digit of a residual and the next residual. -/
def step (A B : Mat n n) (p : Nat) (r : Vector Int n) :
    Except Fault (Vector Int n × Vector Int n) :=
  let digit := B.mulVecMod p (r.map fun v => Int.fmod v p)
  let product := A.mulVec digit
  let rest : Vector Int n := Vector.ofFn fun i => r.get i - product.get i
  if rest.toList.all fun v => Int.fmod v p == 0 then
    .ok (digit, rest.map fun v => Int.fdiv v p)
  else .error (.precondition .divisible)

/-- The first `count` digits of a residual. -/
def lift (A B : Mat n n) (p : Nat) : Nat → Vector Int n → Except Fault (List (Vector Int n))
  | 0, _ => .ok []
  | count + 1, r => do
    let (digit, next) ← step A B p r
    let later ← lift A B p count next
    return digit :: later

/-- The first `count` digits of the solution of `A x = b` in base `p`. -/
def digits (A : Mat n n) (b : Vector Int n) (p : Int) (count : Nat) :
    Except Fault (List (Vector Int n)) := do
  let q ← checkModulus p
  match ← (A.reduce q).inverseMod q with
  | .singular k => .error (.lifting (.singular q k))
  | .inverse B => lift A B q count b

/-- Digits in several bases: for each place, one digit for each base. -/
def digitsFor (A : Mat n n) (b : Vector Int n) (primes : List Int) (count : Nat) :
    Except Fault (List (List (Vector Int n))) := do
  let each ← primes.mapM fun p => digits A b p count
  return (List.range count).map fun t => each.filterMap fun ds => ds[t]?

/-! ## Nested lists -/

/-- Digits for a system given by nested lists, as lists of numbers. -/
def digitLists (a b : Nested) (p : Int) (count : Int) : Except Fault (List (List Int)) := do
  let q ← checkModulus p
  let inversion ← invert false a p
  match inversion.outcome with
  | .singular k => .error (.lifting (.singular q k))
  | .inverse B =>
    let n := inversion.size
    let right := b.toList
    if 0 < count ∧ !b.isRegular then .error .kindMismatch
    if 0 < count ∧ !blocksMeet (wordBlock p) n right.length then .error .incompatibleShapes
    let ds ← lift (a.readMat n n) B q count.toNat (Nested.toVector right n)
    return ds.map Vector.toList

/-- Digits in several bases for a system given by nested lists. -/
def digitListsFor (a b : Nested) (primes : List Int) (count : Int) :
    Except Fault (List (List (List Int))) := do
  let each ← primes.mapM fun p => digitLists a b p count
  return (List.range count.toNat).map fun t => each.filterMap fun ds => ds[t]?

end Reference
end PadicLift
