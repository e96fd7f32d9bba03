import PadicLift.Fault

/-!
# Fractions from residues

A fraction `n / d` with `|n| ≤ N` and `0 < d ≤ D` is determined by `n * d⁻¹` modulo `m` once
`2 * N * D < m`. It is read off the Euclidean algorithm for `m` and the residue: the first remainder
that is at most `N` is the numerator, and its coefficient the denominator. Several residues are
brought to a common denominator.
-/

namespace PadicLift
namespace Fraction

theorem natAbs_fmod_lt (a : Int) {b : Int} (hb : b ≠ 0) : (Int.fmod a b).natAbs < b.natAbs := by
  rcases Int.lt_or_gt_of_ne hb with h | h
  · have h1 := Int.fmod_nonneg_of_pos (-a) (b := -b) (by omega)
    have h2 := Int.fmod_lt_of_pos (-a) (b := -b) (by omega)
    rw [Int.neg_fmod_neg] at h1 h2
    omega
  · have h1 := Int.fmod_nonneg_of_pos a h
    have h2 := Int.fmod_lt_of_pos a h
    omega

/-- The first remainder at most `bound` of Euclid's algorithm for `r₀` and `r₁`, with its
coefficient. -/
def firstSmall (bound r₀ r₁ t₀ t₁ : Int) : Except Fault (Int × Int) :=
  if r₁ ≤ bound then .ok (r₁, t₁)
  else if _h : r₁ = 0 then .error .divisionByZero
  else firstSmall bound r₁ (Int.fmod r₀ r₁) t₁ (t₀ - Int.fdiv r₀ r₁ * t₁)
termination_by r₁.natAbs
decreasing_by exact natAbs_fmod_lt r₀ _h

/-- The fraction with numerator up to `numBound` and denominator up to `denBound` that is congruent
to `y` modulo `m`. -/
def ofResidue (y m numBound denBound : Int) : Except Fault Rat :=
  if m = 0 then .error .divisionByZero
  else do
    let (n, d) ← firstSmall numBound m (Int.fmod y m) 0 1
    if d = 0 ∨ denBound < d.natAbs ∨ Int.gcd n d ≠ 1 then
      .error (.lifting (.noFraction numBound denBound y m))
    else if d < 0 then return mkRat (-n) d.natAbs
    else return mkRat n d.natAbs

/-- Numerators over a common denominator. -/
structure Common where
  numerators : List Int
  denominator : Nat
deriving DecidableEq, Repr

/-- Fractions over the least common multiple of their denominators. -/
def common (fractions : List Rat) : Common :=
  let den := fractions.foldl (fun d f => Nat.lcm d f.den) 1
  ⟨fractions.map fun f => f.num * (den / f.den : Nat), den⟩

/-- The fractions congruent to several residues, over a common denominator. -/
def ofResidues (residues : List Int) (m numBound denBound : Int) : Except Fault Common := do
  let fractions ← residues.mapM fun y => ofResidue y m numBound denBound
  return common fractions

/-- A fraction as text, with all digits of its integers, as in messages. -/
def text (f : Rat) : String :=
  if f.den = 1 then toString f.num else s!"{f.num}/{f.den}"

end Fraction
end PadicLift
