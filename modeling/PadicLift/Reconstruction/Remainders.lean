import PadicLift.Number.Inverse

/-!
# Chinese remainders

`combine` finds the number with given residues for pairwise coprime moduli, one modulus at a time:
from a solution `x` for moduli with product `M` it goes on to `x + M * t`, where `t` is determined
modulo the next modulus. `combineVectors` does so for every position of several vectors.
-/

namespace PadicLift
namespace Remainders

/-- Extends a solution `x` modulo `M` by further residues and moduli. Remainders have the sign of
their modulus. -/
def extend (x M : Int) : List Int → List Int → Except Fault Int
  | [], _ => .ok x
  | _ :: _, [] => .error .indexOutOfRange
  | r :: rs, m :: ms =>
    if m = 0 then .error .divisionByZero
    else do
      let difference := Int.fmod (r - x) m
      let inverse ← inverseMod (Int.fmod M m) m
      let t := Int.fmod (difference * inverse) m
      extend (x + M * t) (M * m) rs ms

/-- The number with the given residues, between 0 and the product of the moduli. -/
def combine (residues moduli : List Int) : Except Fault Int :=
  match residues, moduli with
  | [], _ => .error .indexOutOfRange
  | _ :: _, [] => .error .indexOutOfRange
  | r :: rs, m :: ms =>
    if m = 0 then .error .divisionByZero else extend (Int.fmod r m) m rs ms

/-- The residues at one position of several vectors. -/
def residuesAt (vectors : List (List Int)) (i : Nat) : Except Fault (List Int) :=
  vectors.mapM fun v =>
    match v[i]? with
    | some r => .ok r
    | none => .error .indexOutOfRange

/-- The numbers with the residues that several vectors give position by position; the first vector
says how many positions there are. -/
def combineVectors (vectors : List (List Int)) (moduli : List Int) : Except Fault (List Int) :=
  match vectors with
  | [] => .error .indexOutOfRange
  | first :: _ =>
    (List.range first.length).mapM fun i => do
      let residues ← residuesAt vectors i
      combine residues moduli

end Remainders
end PadicLift
