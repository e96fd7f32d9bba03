import PadicLift.Fault

/-!
# Positions in a list

A position from 0 counts from the front; a negative one counts from the end, with `-1` for the last
member.
-/

namespace PadicLift

/-- The place of a position in a list of `length` members. -/
def place (length : Nat) (position : Int) : Except Fault (Fin length) :=
  let i := if position < 0 then position + length else position
  if h : 0 ≤ i ∧ i < length then .ok ⟨i.toNat, by omega⟩ else .error .indexOutOfRange

end PadicLift
