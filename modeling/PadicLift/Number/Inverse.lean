import PadicLift.Fault

/-!
# Inverses modulo an integer

`bezout` runs the Euclidean algorithm and keeps the coefficient of the second number, so that a
greatest common divisor of 1 comes with an inverse.
-/

namespace PadicLift

/-- Euclid's algorithm on two remainders with their coefficients: the last remainder other than 0
and its coefficient. -/
def bezout (r₀ r₁ : Nat) (s₀ s₁ : Int) : Nat × Int :=
  if _h : r₁ = 0 then (r₀, s₀)
  else bezout r₁ (r₀ % r₁) s₁ (s₀ - (r₀ / r₁ : Nat) * s₁)
termination_by r₁
decreasing_by exact Nat.mod_lt _ (Nat.pos_of_ne_zero _h)

/-- The inverse of `a` modulo `m` in `[0, m)`, if there is one. -/
def inverse? (a m : Nat) : Option Nat :=
  let (g, s) := bezout m (a % m) 0 1
  if g = 1 then some (s % m).toNat else none

/-- The inverse of an integer for a modulus other than 0, with the sign of the modulus. -/
def inverseMod (a m : Int) : Except Fault Int :=
  let size := m.natAbs
  match inverse? (a % size).toNat size with
  | none => .error (.argument .notInvertible)
  | some b => .ok (if m < 0 ∧ b ≠ 0 then (b : Int) - size else b)

end PadicLift
