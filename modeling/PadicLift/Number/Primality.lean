/-!
# Primality

Numbers up to `trialLimit`, which covers every modulus the library computes with, are settled by
trial division. Larger ones go through strong probable prime tests: to the first twelve prime bases,
which leave no composite below `2 ^ 64`, and to base 2 together with a strong Lucas test past that.
-/

-- Powers take their instance from the core library, whatever else is in scope.
attribute [local instance (high)] instPowNat

namespace PadicLift
namespace Primality

/-! ## Trial division -/

/-- No odd `d' ≥ d` with `d' * d' ≤ n` divides `n`; `steps` bounds the number of candidates. -/
def noOddDivisor (n : Nat) : Nat → Nat → Bool
  | 0, _ => true
  | steps + 1, d =>
    if n < d * d then true
    else if n % d = 0 then false
    else noOddDivisor n steps (d + 2)

/-- Trial division by 2 and the odd numbers from 3. -/
def byTrial (n : Nat) : Bool :=
  if n < 2 then false
  else if n % 2 = 0 then n == 2
  else noOddDivisor n n 3

/-- Trial division is used up to here. -/
def trialLimit : Nat := 2 ^ (27 : Nat)

/-! ## Strong probable primes -/

/-- `b ^ e mod m`, by squaring. -/
def powMod (b e m : Nat) : Nat :=
  if h : e = 0 then 1 % m
  else
    let r := powMod (b * b % m) (e / 2) m
    if e % 2 = 1 then r * b % m else r
termination_by e
decreasing_by omega

/-- The exponent of 2 in `n` and the odd part, dividing at most `fuel` times. -/
def splitTwos : Nat → Nat → Nat × Nat
  | 0, n => (0, n)
  | fuel + 1, n =>
    if n % 2 = 0 then
      let (s, d) := splitTwos fuel (n / 2)
      (s + 1, d)
    else (0, n)

/-- Whether squaring `x` up to `s` times meets `n - 1`. -/
def meetsMinusOne (n : Nat) : Nat → Nat → Bool
  | 0, _ => false
  | s + 1, x => if x = n - 1 then true else meetsMinusOne n s (x * x % n)

/-- The odd number `n > 2` is a strong probable prime to base `a`. -/
def strongTo (n a : Nat) : Bool :=
  let (s, d) := splitTwos (Nat.log2 n) (n - 1)
  let x := powMod (a % n) d n
  a % n = 0 || x = 1 || meetsMinusOne n s x

/-! ## Strong Lucas test -/

/-- The Jacobi symbol `(a / n)` for odd `n`; `fuel` bounds the reduction steps. -/
def jacobi : Nat → Nat → Nat → Int
  | 0, _, _ => 0
  | fuel + 1, a, n =>
    if a = 0 then (if n = 1 then 1 else 0)
    else if a % 2 = 0 then
      let flip := n % 8 = 3 ∨ n % 8 = 5
      let rest := jacobi fuel (a / 2) n
      if flip then -rest else rest
    else
      let flip := a % 4 = 3 ∧ n % 4 = 3
      let rest := jacobi fuel (n % a) a
      if flip then -rest else rest

/-- The first of `5, -7, 9, -11, …` with Jacobi symbol `-1` for `n`. -/
def lucasParameter (n : Nat) : Nat → Nat → Option Int
  | 0, _ => none
  | fuel + 1, k =>
    let size := 2 * k + 5
    let d : Int := if k % 2 = 0 then size else -(size : Int)
    if jacobi (4 * Nat.log2 n + 64) (d % n).toNat n = -1 then some d
    else lucasParameter n fuel (k + 1)

/-- `x / 2` modulo the odd number `n`. -/
def halve (x n : Int) : Int :=
  let r := x % n
  if r % 2 = 0 then r / 2 else (r + n) / 2

/-- Members `U`, `V` of the Lucas sequences with parameters `1`, `q` and the power of `q`, at the
index whose binary digits, highest first, are `bits`. -/
def lucasPair (n d q : Int) (bits : List Bool) : Int × Int × Int :=
  bits.foldl
    (fun (u, v, qk) bit =>
      let u2 := u * v % n
      let v2 := (v * v - 2 * qk) % n
      let q2 := qk * qk % n
      if bit then (halve (u2 + v2) n, halve (d * u2 + v2) n, q2 * q % n) else (u2, v2, q2))
    (0, 2, 1)

/-- Whether one of `V, V at twice the index, …`, at most `s` of them, vanishes modulo `n`. -/
def vanishes (n : Int) : Nat → Int → Int → Bool
  | 0, _, _ => false
  | s + 1, v, qk => if v % n = 0 then true else vanishes n s ((v * v - 2 * qk) % n) (qk * qk % n)

/-- The strong Lucas test with the first suitable parameter. -/
def strongLucas (n : Nat) : Bool :=
  if Nat.sqrt n * Nat.sqrt n = n then false
  else
    match lucasParameter n 1000 0 with
    | none => false
    | some d =>
      let q := (1 - d) / 4
      let (s, odd) := splitTwos (Nat.log2 n + 1) (n + 1)
      let bits := (List.range (Nat.log2 odd + 1)).reverse.map odd.testBit
      let (u, v, qk) := lucasPair n d q bits
      u % n = 0 || vanishes n s v qk

end Primality

/-- The first twelve primes. -/
def firstPrimes : List Nat := [2, 3, 5, 7, 11, 13, 17, 19, 23, 29, 31, 37]

/-- Whether `n` is a prime number. -/
def isPrime (n : Nat) : Bool :=
  if n ≤ Primality.trialLimit then Primality.byTrial n
  else if n % 2 = 0 then false
  else if n < 2 ^ (64 : Nat) then firstPrimes.all (Primality.strongTo n)
  else firstPrimes.all (Primality.strongTo n) && Primality.strongLucas n

/-- Whether an integer is a prime number; negative ones are not. -/
def isPrimeInt (v : Int) : Bool := decide (0 ≤ v) && isPrime v.toNat

end PadicLift
