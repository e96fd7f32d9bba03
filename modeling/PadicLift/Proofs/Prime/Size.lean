import PadicLift.Proofs.Prime.Failures

/-!
# Primes of one size

A candidate of a random source is odd and has exactly as many bits as the source was made for, so
every prime that is handed out lies strictly between two neighbouring powers of two
(`PrimeSource.IsRandom.of_handsOut`). Up to 26 bits all of them are moduli, and a draw then fails
for want of primes only, or because it cannot be made at all. A pool that is filled from nothing has
exactly as many members as it was filled for (`PrimePool.length_of_fill`).
-/

-- Powers take their instance from the core library, as they do beside the definitions.
attribute [local instance (high)] instPowNat

namespace PadicLift

/-! ## Candidates -/

/-- An odd number with `bits` bits lies strictly between these powers of two. -/
def HasBits (bits p : ℕ) : Prop := 2 ^ (bits - 1) < p ∧ p < 2 ^ bits

namespace PrimeSource

variable {bits : ℕ} {source after : PrimeSource}

/-- A candidate has no more bits than asked for. -/
theorem candidate_lt {bits : ℕ} (hlow : 1 ≤ bits) (hhigh : bits ≤ 64) (state : UInt64) :
    candidate bits state < 2 ^ bits := by
  have htop : state.toNat >>> (64 - bits) < 2 ^ bits := by
    rw [Nat.shiftRight_eq_div_pow, Nat.div_lt_iff_lt_mul (Nat.two_pow_pos _), ← Nat.pow_add,
      Nat.add_sub_cancel' hhigh]
    exact state.toNat_lt
  unfold candidate
  apply Nat.or_lt_two_pow
  · apply Nat.or_lt_two_pow htop
    exact Nat.pow_lt_pow_right (by omega) (by omega)
  · exact Nat.one_lt_two_pow (by omega)

/-- The leading bit alone is an even number, and a candidate is odd. -/
theorem lt_candidate {bits : ℕ} (hlow : 2 ≤ bits) (state : UInt64) :
    2 ^ (bits - 1) < candidate bits state := by
  have hle : 2 ^ (bits - 1) ≤ candidate bits state :=
    le_trans Nat.right_le_or Nat.left_le_or
  have hodd : candidate bits state % 2 = 1 := Nat.or_mod_two_eq_one.2 (.inr rfl)
  have heven : 2 ^ (bits - 1) % 2 = 0 := by
    obtain ⟨k, hk⟩ : ∃ k, bits - 1 = k + 1 := ⟨bits - 2, by omega⟩
    rw [hk, Nat.pow_succ, Nat.mul_mod_left]
  omega

/-- The primes that the search finds have the number of bits asked for. -/
theorem hasBits_of_search (hlow : 2 ≤ bits) (hhigh : bits ≤ 64) {fuel p : ℕ} {state last : UInt64}
    (h : search bits fuel state = (some p, last)) : HasBits bits p := by
  induction fuel generalizing state with
  | zero => cases h
  | succ fuel ih =>
    unfold search at h
    dsimp only at h
    split at h
    · cases h
      exact ⟨lt_candidate hlow _, candidate_lt (by omega) hhigh _⟩
    · exact ih h

/-! ## Random sources -/

/-- A random source of primes with `bits` bits, in any state. -/
def IsRandom (bits : ℕ) : PrimeSource → Prop
  | .random size .. => size = bits
  | _ => False

section Random

variable (hsource : source.IsRandom bits)
include hsource

theorem IsRandom.isGenuine : source.IsGenuine := by
  cases source with
  | random => trivial
  | listed => cases hsource
  | idle => cases hsource

theorem IsRandom.size_eq : source.size = bits := by
  cases source with
  | random size => exact congrArg (Nat.cast (R := ℚ)) hsource
  | listed => cases hsource
  | idle => cases hsource

/-- A random source stays random, of the same size. -/
theorem IsRandom.of_next (hlow : 2 ≤ bits) (hhigh : bits ≤ 64) {result : Except Fault ℕ}
    (h : source.next = (result, after)) :
    after.IsRandom bits ∧ ∀ p, result = .ok p → HasBits bits p := by
  cases source with
  | random size seed limit state =>
    obtain rfl : size = bits := hsource
    unfold next at h
    dsimp only at h
    split at h
    next p hp =>
      cases h
      refine ⟨rfl, fun q hq => ?_⟩
      cases hq
      exact hasBits_of_search hlow hhigh (Prod.ext hp rfl)
    next =>
      cases h
      exact ⟨rfl, nofun⟩
  | listed => cases hsource
  | idle => cases hsource

/-- A random source stays random, and hands out primes of its size. -/
theorem IsRandom.of_handsOut (hlow : 2 ≤ bits) (hhigh : bits ≤ 64) {ps : List ℕ}
    (h : source.HandsOut ps after) : after.IsRandom bits ∧ ∀ p ∈ ps, HasBits bits p := by
  induction ps generalizing source with
  | nil =>
    rw [show after = source from h]
    exact ⟨hsource, fun _ hp => absurd hp List.not_mem_nil⟩
  | cons p rest ih =>
    obtain ⟨last, hnext, h⟩ := h
    obtain ⟨hlast, hp⟩ := hsource.of_next hlow hhigh hnext
    obtain ⟨hafter, hrest⟩ := ih hlast h
    exact ⟨hafter, List.forall_mem_cons.2 ⟨hp p rfl, hrest⟩⟩

/-- Primes of up to 26 bits are moduli, so it is for want of primes that such a source ends. -/
theorem IsRandom.lacksPrimes_of_endsIn (hlow : 2 ≤ bits) (hhigh : bits ≤ 26) {f : Fault}
    (h : source.EndsIn f after) : f.LacksPrimes := by
  rcases h with hlacks | ⟨handed, v, hhanded, hlarge, rfl⟩
  · exact hlacks
  · exfalso
    obtain ⟨-, hbits⟩ := hsource.of_handsOut hlow (by omega) hhanded
    have hv : v < 2 ^ bits := (hbits v (by simp)).2
    have hle : 2 ^ bits ≤ 2 ^ 26 := Nat.pow_le_pow_right (by omega) hhigh
    unfold maxModulus at hlarge
    omega

end Random

end PrimeSource

/-! ## Drawing -/

theorem Fault.LacksPrimes.not_isOversized {f : Fault} (h : f.LacksPrimes) : ¬ f.IsOversized := by
  unfold LacksPrimes at h
  split at h
  · exact not_false
  · exact not_false
  · exact not_false
  · cases h

namespace PrimePool

open PrimeSource

variable {pool pool' : PrimePool} {source after : PrimeSource} {bits : ℕ}

section Small

variable {f : Fault} (hsource : source.IsRandom bits) (hlow : 2 ≤ bits) (hhigh : bits ≤ 26)
include hsource hlow hhigh

theorem not_isOversized_of_draw (h : pool.draw source = (.error f, pool', after)) :
    ¬ f.IsOversized := by
  by_cases hdraw : pool.CanDraw source
  · apply Fault.LacksPrimes.not_isOversized
    exact hsource.lacksPrimes_of_endsIn hlow hhigh (hdraw.endsIn_of_draw hsource.isGenuine h)
  · obtain ⟨f', hf', hkind⟩ := draw_eq_error_of_not_canDraw hdraw
    rw [hf'] at h
    cases h
    rcases hkind with rfl | hlacks
    · exact not_false
    · exact hlacks.not_isOversized

/-- Random primes of at most 26 bits are never too large. -/
theorem not_isOversized_of_drawUntil {done : List ℕ → Bool}
    (h : pool.drawUntil done source = (.error f, pool', after)) : ¬ f.IsOversized := by
  fun_induction drawUntil done pool source with
  | case1 => cases h
  | case2 _ _ _ _ _ _ hfirst =>
    cases h
    exact not_isOversized_of_draw hsource hlow hhigh hfirst
  | case3 _ _ _ _ _ _ hfirst ih =>
    obtain ⟨handed, htook⟩ := took_of_draw hfirst
    exact ih (hsource.of_handsOut hlow (by omega) htook.hands_out).1 h

end Small

/-! ## Filling -/

/-- Only the members of a pool matter to the question whether to go on. -/
theorem drawUntil_congr {done done' : List ℕ → Bool}
    (h : ∀ pool : PrimePool, done pool.primes = done' pool.primes) (pool : PrimePool)
    (source : PrimeSource) : pool.drawUntil done source = pool.drawUntil done' source := by
  fun_induction drawUntil done pool source with
  | case1 pool source hdone =>
    rw [drawUntil_of_done (h pool ▸ hdone)]
  | case2 pool source hdone f pool' after hfirst =>
    rw [Bool.not_eq_true, h] at hdone
    rw [drawUntil_of_draw_error hdone hfirst]
  | case3 pool source hdone p pool' after hfirst ih =>
    rw [Bool.not_eq_true, h] at hdone
    rw [ih, ← drawUntil_of_draw_ok hdone hfirst]

/-- Filling stops as soon as there are enough members. -/
theorem length_of_fill {count : ℤ} (hle : pool.primes.length ≤ count)
    (h : pool.fill count source = (.ok (), pool', after)) : pool'.primes.length = count := by
  unfold fill at h
  generalize hdone : (fun primes : List ℕ => decide (count ≤ primes.length)) = done at h
  fun_induction drawUntil done pool source with
  | case1 pool source henough =>
    cases h
    subst hdone
    exact le_antisymm hle (of_decide_eq_true henough)
  | case2 => cases h
  | case3 pool source hfew p pool₁ source₁ hfirst ih =>
    subst hdone
    apply ih _ h
    have hlength := length_of_draw hfirst
    rw [decide_eq_true_eq, not_le] at hfew
    rw [hlength]
    push_cast
    omega

end PrimePool
end PadicLift
