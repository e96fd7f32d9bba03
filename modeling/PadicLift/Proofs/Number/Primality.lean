import Mathlib.Data.Nat.Prime.Basic
import PadicLift.Fault
import PadicLift.Number.Primality

/-!
# Trial division

Up to `trialLimit`, and so for every modulus, `isPrime` answers exactly the prime numbers. The
invariant of the search is that no number below the current candidate divides `n`, apart from 1.
-/

namespace PadicLift
namespace Primality

/-- Every divisor of `n` other than 1 is at least `d`. -/
def NoDivisorBelow (n d : ℕ) : Prop := ∀ m, 2 ≤ m → m ∣ n → d ≤ m

/-- A number without a divisor up to its root is prime. -/
theorem NoDivisorBelow.prime {n d : ℕ} (h : NoDivisorBelow n d) (hn : 2 ≤ n) (hd : n < d * d) :
    n.Prime := by
  refine Nat.prime_def_le_sqrt.2 ⟨hn, fun m hm hle hdvd => ?_⟩
  have hmul : m * m ≤ n := Nat.le_sqrt.1 hle
  have hlow : d ≤ m := h m hm hdvd
  have := Nat.mul_le_mul hlow hlow
  omega

/-- From an odd candidate that does not divide `n` the search goes on to the next odd one: the even
number between them divides no odd number. -/
theorem NoDivisorBelow.add_two {n d : ℕ} (h : NoDivisorBelow n d) (hn : n % 2 = 1)
    (hd : d % 2 = 1) (hndvd : ¬ d ∣ n) : NoDivisorBelow n (d + 2) := by
  intro m hm hdvd
  have hlow := h m hm hdvd
  have hne : m ≠ d := by
    rintro rfl
    exact hndvd hdvd
  have hodd : m % 2 = 1 := by
    by_contra heven
    have htwo : 2 ∣ n := (Nat.dvd_of_mod_eq_zero (by omega)).trans hdvd
    omega
  omega

/-- The loop over the odd divisors from `d` on decides primality, as long as it has enough steps to
get past the number. -/
theorem noOddDivisor_iff {n steps d : ℕ} (hn : n % 2 = 1) (hd : d % 2 = 1) (hlow : 2 ≤ d)
    (htwo : 2 ≤ n) (hsteps : n < d + steps) (hbelow : NoDivisorBelow n d) :
    noOddDivisor n steps d = true ↔ n.Prime := by
  induction steps generalizing d with
  | zero =>
    have hsquare : d * 1 ≤ d * d := Nat.mul_le_mul_left d (by omega)
    exact ⟨fun _ => hbelow.prime htwo (by omega), fun _ => rfl⟩
  | succ steps ih =>
    unfold noOddDivisor
    split
    · exact ⟨fun _ => hbelow.prime htwo ‹_›, fun _ => rfl⟩
    · split
      next hsquare hdvd =>
        refine ⟨fun h => absurd h (by decide), fun hprime => ?_⟩
        rcases hprime.eq_one_or_self_of_dvd d (Nat.dvd_of_mod_eq_zero hdvd) with h | h
        · omega
        · have : d * 2 ≤ d * d := Nat.mul_le_mul_left d hlow
          omega
      next hndvd =>
        exact ih (by omega) (by omega) (by omega)
          (hbelow.add_two hn hd fun h => hndvd (Nat.mod_eq_zero_of_dvd h))

/-- Trial division decides primality. -/
theorem byTrial_iff {n : ℕ} : byTrial n = true ↔ n.Prime := by
  unfold byTrial
  split
  · refine ⟨fun h => absurd h (by decide), fun hprime => ?_⟩
    have := hprime.two_le
    omega
  · split
    next heven =>
      rw [beq_iff_eq]
      constructor
      · rintro rfl
        exact Nat.prime_two
      · intro hprime
        exact ((Nat.prime_dvd_prime_iff_eq Nat.prime_two hprime).1
          (Nat.dvd_of_mod_eq_zero heven)).symm
    next hsmall hodd =>
      have hthree : NoDivisorBelow n 3 := by
        intro m hm hdvd
        by_contra hlt
        obtain rfl : m = 2 := by omega
        exact hodd (Nat.mod_eq_zero_of_dvd hdvd)
      exact noOddDivisor_iff (by omega) (by omega) (by omega) (by omega) (by omega) hthree

end Primality

/-- For moduli `isPrime` is exact. -/
theorem isPrime_iff {n : ℕ} (hn : n ≤ maxModulus) : isPrime n = true ↔ n.Prime := by
  have hlimit : n ≤ Primality.trialLimit := by
    have : maxModulus ≤ Primality.trialLimit := by decide
    omega
  unfold isPrime
  rw [if_pos hlimit]
  exact Primality.byTrial_iff

end PadicLift
