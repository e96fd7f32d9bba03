import PadicLift.Number.Binary64

/-!
# Machine arithmetic

Inner products are computed in numbers of fixed width, split into blocks short enough that nothing
is lost. A `Machine` says what a product, a sum and a remainder come out as; `word` wraps modulo
`2 ^ 64`, `double` keeps 53 bits of a whole number, and `fraction` is a double that need not be
whole. A step of a block adds a product to a sum and rounds once. `blockedDot` is the product of two
vectors on each of these machines: every block is summed and reduced, then added to a running total
that is reduced again.
-/

-- Powers take their instance from the core library, whatever else is in scope.
attribute [local instance (high)] instPowNat

namespace PadicLift

/-- What products, sums and remainders come out as. -/
structure Machine (α : Type) where
  zero : α
  mul : α → α → α
  add : α → α → α
  /-- A sum and the product that is added to it. -/
  mulAdd : α → α → α → α
  /-- The remainder that a block is reduced to. -/
  rem : α → α → α
  /-- The remainder with the sign of the divisor. -/
  mod : α → α → α

/-- Whether a number is a signed 64-bit word. -/
def isWord (v : Int) : Bool := -2 ^ (63 : Nat) ≤ v && v < 2 ^ (63 : Nat)

namespace Machine

/-- The 64-bit signed number with the same residue modulo `2 ^ 64`. -/
def wrap (z : Int) : Int := Int.bmod z (2 ^ (64 : Nat))

/-- The word that a whole double becomes: itself, or the least word where it is none. -/
def truncate (v : Int) : Int := if isWord v then v else -2 ^ (63 : Nat)

/-- Signed 64-bit words. A remainder has the sign of the divisor; the remainder for the divisor 0
is 0. -/
def word : Machine Int where
  zero := 0
  mul x y := wrap (x * y)
  add x y := wrap (x + y)
  mulAdd s x y := wrap (s + x * y)
  rem x p := if p = 0 then 0 else Int.fmod x p
  mod x p := if p = 0 then 0 else Int.fmod x p

/-- Doubles that hold whole numbers. A block is reduced to a remainder with the sign of the
dividend. Nothing overflows: a product or a sum that is too large for a double is rounded to 53 bits
all the same, where a double would become infinite. That takes factors whose sizes in bits add up to
more than 1024, which residues of moduli never have. -/
def double : Machine Int where
  zero := 0
  mul x y := Binary64.roundInt (x * y)
  add x y := Binary64.roundInt (x + y)
  mulAdd s x y := Binary64.roundInt (s + x * y)
  rem x p := Int.tmod x p
  mod x p := Int.emod x p

/-- Doubles, whole or not. -/
def fraction : Machine Rat where
  zero := 0
  mul := Binary64.mul
  add := Binary64.add
  mulAdd s x y := Binary64.round (s + x * y)
  rem := Binary64.tmod
  mod := Binary64.fmod

variable {α : Type}

/-- The inner product of one block, summed from left to right. -/
def blockSum (M : Machine α) (terms : List (α × α)) : α :=
  terms.foldl (fun s t => M.mulAdd s t.1 t.2) M.zero

/-- Adds to `total` the products of all pairs, `length` of them at a time, modulo `p`. -/
def blockedDot (M : Machine α) (length : Nat) (p : α) (terms : List (α × α)) (total : α) : α :=
  match terms with
  | [] => total
  | t :: rest =>
    let part := M.rem (M.blockSum (t :: rest.take (length - 1))) p
    M.blockedDot length p (rest.drop (length - 1)) (M.rem (M.add total part) p)
termination_by terms.length
decreasing_by
  simp only [List.length_cons, List.length_drop]
  omega

/-- The longest block of products of residues below `p` whose sum stays within `capacity`. -/
def blockLength (capacity : Nat) (p : Int) : Nat :=
  max 1 (capacity / ((p - 1) * (p - 1) + 1).toNat)

/-- Largest signed 64-bit word. -/
def wordCapacity : Nat := 2 ^ (63 : Nat) - 1

/-- Doubles up to this size hold every whole number. -/
def doubleCapacity : Nat := 2 ^ (53 : Nat) - 1

end Machine
end PadicLift
