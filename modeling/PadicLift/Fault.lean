import PadicLift.Number.Decimal

/-!
# Causes of failure

Every operation that can stop says why with a `Fault`. Faults of the lifting itself (an unlucky
modulus, a source of primes that runs dry, an inexact step) are a family of their own, because the
command line reports exactly that family and lets the others through. `message` gives the wording.
Numbers are written out in full, however many digits they have: it is assumed that nothing in the
surroundings limits the length of an integer that is turned into text.
-/

namespace PadicLift

/-- The shape of nested lists: the length at each level. -/
abbrev Shape := List Nat

/-- Numbers between brackets, separated by commas. -/
def listing (items : List String) : String :=
  "[" ++ String.intercalate ", " items ++ "]"

/-- A shape between parentheses; a single length keeps its comma. -/
def Shape.text : Shape → String
  | [n] => s!"({n},)"
  | ns => "(" ++ String.intercalate ", " (ns.map toString) ++ ")"

/-! ## The lifting family -/

/-- Failures of selection, lifting and reconstruction. -/
inductive LiftingFault
  /-- The run has been closed. -/
  | closed
  /-- The matrix has a kernel of dimension `nullity` modulo `prime`. -/
  | singular (prime nullity : Nat)
  /-- A whole allowance of draws gave no prime that the pool could take. -/
  | noNewPrime (draws : String) (held : Nat)
  /-- A source with a given list has handed out all of it. -/
  | listExhausted (count : Nat)
  /-- A random source met no prime among its candidates. -/
  | noCandidate (bits : Nat) (candidates : Int)
  /-- A modulus whose products do not fit a double. -/
  | modulusTooLarge (modulus : Int)
  /-- The residue basis cannot hold corrections up to `largest`. -/
  | basisTooSmall (bits : Rat) (largest : Nat)
  /-- A correction read back from residues is not the exact one. -/
  | correctionMismatch (prime position : Nat)
  /-- A correction is larger than any exact one can be. -/
  | correctionTooLarge (prime position worst bound : Nat)
  /-- A residual is not divisible by its prime. -/
  | indivisible (prime position : Nat)
  /-- All digits have been handed out. -/
  | digitsExhausted (count : Nat)
  /-- No fraction within the bounds has this residue. -/
  | noFraction (numBound denBound residue modulus : Int)
deriving DecidableEq, Repr

/-- The largest modulus that is admitted. The square of the largest residue stays below `2 ^ 53`, as
it would for the next number, but for no larger one. -/
def maxModulus : Nat := 94906265

/-- The start of every message about an inexact step. -/
def inexactAt (prime position : Nat) : String :=
  s!"inexact division by {prime} at iteration {position}"

/-- The wording of a lifting fault. -/
def LiftingFault.message : LiftingFault → String
  | .closed => "container is closed"
  | .singular p k => s!"A is singular mod {p} (nullity {k}); the prime divides det(A)"
  | .noNewPrime draws held => draws ++ s!" draws produced no new usable prime (have {held})"
  | .listExhausted count => s!"fixed prime list exhausted after {count} primes"
  | .noCandidate bits candidates => s!"no {bits}-bit prime found in {candidates} candidates"
  | .modulusTooLarge p => s!"prime {p} exceeds field capacity {maxModulus}"
  | .basisTooSmall bits largest =>
    "RNS modulus of " ++ Decimal.fixed 1 bits ++ s!" bits cannot hold corrections up to {largest}"
  | .correctionMismatch p position =>
    s!"RNS correction for prime {p} disagrees with exact value at iteration {position}"
  | .correctionTooLarge p position worst bound =>
    inexactAt p position ++ s!": correction {worst} exceeds bound {bound}"
  | .indivisible p position => inexactAt p position ++ ": R - A c not divisible"
  | .digitsExhausted count => s!"all {count} digits already produced"
  | .noFraction numBound denBound y m =>
    s!"no fraction with |num| <= {numBound}, den <= {denBound} matches {y} mod {m}"

/-! ## Unusable arguments -/

/-- Arguments that an operation refuses. -/
inductive ArgumentFault
  | modulusTooSmall (modulus : Int)
  /-- A number has no inverse for its modulus. -/
  | notInvertible
  /-- A matrix was expected and the nesting is too shallow. -/
  | tooShallow (levels : Nat)
  /-- A matrix was expected and the nesting is too deep. -/
  | tooDeep
  | notSquare (shape : Shape)
  | notMatrix (shape : Shape)
  | notSquareSystem (shape : Shape)
  | notPlanes (shape : Shape)
  | rightSideLength (got expected : Nat)
  | zeroMatrix
  | zeroRowOrColumn
  | wrongInverse (prime : Nat)
  | noLiftingPrimes
  | liftingNotPrime (number : Int)
  | notPrime (number : Int)
  | sourceBits (bits : String)
  | emptyBasis
  | repeatedModuli (moduli : List Nat)
  | digitVectorCount (expected got : Nat)
  | primesCountTooSmall (count : String)
  | primeBitsOutOfRange (bits : String)
  | negativeRetries
  | marginTooSmall
  /-- Keys of no field, as they are shown. -/
  | unknownKeys (keys : List String)
  /-- Characters, as they are shown, that are no integer in the given base. -/
  | noInteger (base : Nat) (shown : String)
  /-- The double that is no number, where an integer is needed. -/
  | undefinedInteger
  /-- Characters, as they are shown, that are no double. -/
  | noDouble (shown : String)
  /-- An escape beyond all code points. -/
  | noCodePoint
  /-- A part of a time of day or of a date that is not within its limits. -/
  | notWithin (part : String) (low high : Nat)
  /-- A day that the month does not have. -/
  | dayOfMonth
  | year (number : Nat)
  /-- A distance from universal time, as it is shown, of a day or more. -/
  | zoneTooFar (shown : String)
  | notASystem (path : String)
  /-- A member of a list of pairs with another length. -/
  | notPair (index length : Nat)
  | fileClosed
deriving DecidableEq, Repr

/-- The wording of a refused argument. -/
def ArgumentFault.message : ArgumentFault → String
  | .modulusTooSmall p => s!"modulus must be >= 2, got {p}"
  | .notInvertible => "base is not invertible for the given modulus"
  | .tooShallow levels => s!"not enough values to unpack (expected 2, got {levels})"
  | .tooDeep => "too many values to unpack (expected 2)"
  | .notSquare shape => "matrix must be square, got " ++ shape.text
  | .notMatrix shape => "expected a 2-D matrix, got shape " ++ shape.text
  | .notSquareSystem shape => "A must be a non-empty square matrix, got shape " ++ shape.text
  | .notPlanes shape => "RNS data must be 3-D (planes, rows, cols), got " ++ shape.text
  | .rightSideLength got expected => s!"b has length {got}, expected {expected}"
  | .zeroMatrix => "A is the zero matrix"
  | .zeroRowOrColumn => "matrix has a zero row or column; it is singular"
  | .wrongInverse p => s!"supplied inverse for prime {p} is not A^-1 mod {p}"
  | .noLiftingPrimes => "lifting_primes is empty"
  | .liftingNotPrime p => s!"lifting prime {p} is not prime"
  | .notPrime p => s!"{p} is not prime"
  | .sourceBits bits => "bits must be in [3, 62], got " ++ bits
  | .emptyBasis => "RNS basis needs at least one prime"
  | .repeatedModuli moduli => "RNS primes must be distinct: " ++ listing (moduli.map toString)
  | .digitVectorCount expected got => s!"expected {expected} digit vectors, got {got}"
  | .primesCountTooSmall count => "primes_count must be >= 1, got " ++ count
  | .primeBitsOutOfRange bits => "prime_bits must be in [3, 26], got " ++ bits
  | .negativeRetries => "max_bad_prime_retries must be >= 0"
  | .marginTooSmall => "rns_margin_bits must be >= 1 for signed residues"
  | .unknownKeys keys => "Unknown lifting config keys: " ++ listing keys
  | .noInteger base shown => s!"invalid literal for int() with base {base}: " ++ shown
  | .undefinedInteger => "cannot convert float NaN to integer"
  | .noDouble shown => "could not convert string to float: " ++ shown
  | .noCodePoint => "chr() arg not in range(0x110000)"
  | .notWithin part low high => part ++ s!" must be in {low}..{high}"
  | .dayOfMonth => "day is out of range for month"
  | .year number => s!"year {number} is out of range"
  | .zoneTooFar shown =>
    "offset must be a timedelta strictly between -timedelta(hours=24) and timedelta(hours=24), not "
      ++ shown ++ "."
  | .notASystem path => path ++ ": expected a mapping with keys 'A' and 'b'"
  | .notPair index length =>
    s!"dictionary update sequence element #{index} has length {length}; 2 is required"
  | .fileClosed => "I/O operation on closed file."

/-! ## Broken preconditions -/

/-- Conditions on residue matrices that callers promise. -/
inductive Precondition
  | row (i : Int) (rows : Nat)
  | column (j : Int) (cols : Nat)
  | plane (h : Int) (planes : Nat)
  | sameShape (got expected : Shape)
  | withinBound
  /-- The sizes of the operands do not fit together. -/
  | sizes
  /-- A residual leaves a remainder on division by its modulus. -/
  | divisible
deriving DecidableEq, Repr

/-- The wording of a broken precondition; the checks of sizes and of divisibility have none. -/
def Precondition.message : Precondition → String
  | .row i rows => s!"row {i} out of range [0, {rows})"
  | .column j cols => s!"col {j} out of range [0, {cols})"
  | .plane h planes => s!"plane {h} out of range [0, {planes})"
  | .sameShape got expected => "shape mismatch " ++ got.text ++ " vs " ++ expected.text
  | .withinBound => "value outside the declared RNS bound"
  | .sizes => ""
  | .divisible => ""

/-! ## Malformed documents -/

/-- At which stage the reading of a document ends. -/
inductive DocumentFault
  /-- A character that no document holds. -/
  | character
  /-- Characters that make no token. -/
  | token
  /-- Tokens that do not follow the grammar. -/
  | grammar
  /-- A name that nothing has or that is given twice, or a second document. -/
  | reference
  /-- Too many lists and mappings inside each other. -/
  | depth
  /-- A part that stands for no value. -/
  | value
  /-- Characters that are announced as a truth value and are none. -/
  | truth
  /-- Characters that are announced as a day or a point in time and are none. -/
  | moment
deriving DecidableEq, Repr

/-! ## All faults -/

/-- Why an operation stops. -/
inductive Fault
  | lifting (fault : LiftingFault)
  | argument (fault : ArgumentFault)
  | precondition (fault : Precondition)
  /-- Two arrays whose lengths do not fit together. -/
  | incompatibleShapes
  /-- A position past the end of a list. -/
  | indexOutOfRange
  /-- A value of another kind than the operation works on. -/
  | kindMismatch
  | divisionByZero
  /-- A number too large for the form that it has to take. -/
  | overflow
  | missingFile
  /-- A directory where a file is to be read. -/
  | notFile
  /-- A file where a directory is to be made. -/
  | notDirectory
  | malformedDocument (fault : DocumentFault)
deriving DecidableEq, Repr

/-- The wording of a fault; causes that carry no data of their own have none. -/
def Fault.message : Fault → String
  | .lifting f => f.message
  | .argument f => f.message
  | .precondition f => f.message
  | _ => ""

/-- Whether a fault belongs to the lifting family. -/
def Fault.isLifting : Fault → Bool
  | .lifting _ => true
  | _ => false

end PadicLift
