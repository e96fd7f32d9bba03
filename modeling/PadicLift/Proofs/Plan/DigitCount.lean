import Mathlib.Algebra.Order.Archimedean.Real.Basic
import Mathlib.Analysis.SpecialFunctions.Log.Base
import PadicLift.Proofs.Number.Machine
import PadicLift.Proofs.Plan
import PadicLift.Proofs.Prime.Draws

/-!
# The number of digits

The search for the number of digits (`Climbs`) ends for every estimate that it starts from, and it
ends above the bounds, so a wrong logarithm never costs the uniqueness of a fraction. Within the
range where the logarithm of the bounds is a double, twice their product is a power of two. There
an estimate from the exact quotient of logarithms starts no later than at the least exponent, which
is then found.
-/

namespace PadicLift

-- Powers take their instance from the core library, as they do beside the definitions.
attribute [local instance (high)] instPowNat

/-- Ceilings of fractions are the ones of an ordered field. -/
theorem rat_ceil_eq (x : ℚ) : x.ceil = ⌈x⌉ :=
  eq_of_forall_ge_iff fun _ => Rat.ceil_le_iff.trans Int.ceil_le.symm

/-- What a power of the modulus has to exceed: twice the product of both bounds. -/
def SolutionBound.limit (bound : SolutionBound) : ℕ := 2 * bound.numBound * bound.denBound

/-! ## The start of the search -/

namespace Selection

/-- The exponent at which the search starts for a quotient of logarithms. -/
noncomputable def firstExponent (quotient : ℝ) : ℕ := (max 1 ⌈quotient⌉).toNat

theorem one_le_firstExponent (quotient : ℝ) : 1 ≤ firstExponent quotient := by
  unfold firstExponent
  omega

/-- The quotient of logarithms in doubles. -/
def computedQuotient (primes : List ℕ) (bound : SolutionBound) : ℚ :=
  Binary64.div bound.log (Binary64.log2Sum primes)

/-- The digits are counted from the quotient in doubles. -/
theorem digitCount_eq (primes : List ℕ) (bound : SolutionBound) :
    digitCount primes bound = leastExponent (primes.foldl (· * ·) 1) bound.limit
      (firstExponent (computedQuotient primes bound)) := by
  rw [firstExponent, Rat.ceil_cast, ← rat_ceil_eq]
  rfl

/-- A quotient that is rounded up no further than the exact one for a power of two starts the search
no later than at the least exponent. -/
theorem firstExponent_le {P s i : ℕ} {quotient : ℝ} (hP : 2 ≤ P)
    (hquotient : ⌈quotient⌉ ≤ ⌈(s : ℝ) / Real.logb 2 P⌉) (hi : 1 ≤ i) (hlt : 2 ^ s < P ^ i) :
    firstExponent quotient ≤ i := by
  -- `2 ^ s < P ^ i` says that `s` is less than `i` logarithms of `P`.
  have hbits : 0 < Real.logb 2 P := Real.logb_pos one_lt_two (by exact_mod_cast hP)
  have hlog : (s : ℝ) < i * Real.logb 2 P := by
    have hcast : (2 : ℝ) ^ s < (P : ℝ) ^ i := by exact_mod_cast hlt
    have hlogb := Real.logb_lt_logb one_lt_two (by positivity) hcast
    rwa [Real.logb_pow, Real.logb_pow, Real.logb_self_eq_one one_lt_two, mul_one] at hlogb
  have hceil : ⌈(s : ℝ) / Real.logb 2 P⌉ ≤ (i : ℤ) :=
    Int.ceil_le.2 ((div_le_iff₀ hbits).2 (by exact_mod_cast hlog.le))
  unfold firstExponent
  omega

end Selection

/-! ## Twice the product of the bounds -/

namespace SolutionBound

/-- Both logarithms lie in the range where their sum is a double. -/
@[mk_iff]
structure IsInRange (bound : SolutionBound) : Prop where
  num_nonneg : 0 ≤ bound.numLog
  num_le : bound.numLog ≤ 2 ^ 51
  den_nonneg : 0 ≤ bound.denLog
  den_le : bound.denLog ≤ 2 ^ 51

instance (bound : SolutionBound) : Decidable bound.IsInRange :=
  decidable_of_iff' _ bound.isInRange_iff

/-- The whole number that the logarithm of twice the product is. -/
def wholeLog (bound : SolutionBound) : ℕ := bound.numLog.ceil.toNat + bound.denLog.ceil.toNat + 1

/-- What the number of digits is measured against is a power of two. -/
theorem limit_eq_two_pow (bound : SolutionBound) : bound.limit = 2 ^ bound.wholeLog := by
  rw [limit, numBound, denBound, powerAbove, powerAbove, wholeLog, mul_assoc, ← pow_add,
    ← pow_succ']

/-- As long as it is in range, the logarithm of the bounds is not rounded. -/
theorem IsInRange.log_eq {bound : SolutionBound} (h : bound.IsInRange) :
    bound.log = bound.wholeLog := by
  have hrange : ∀ x : ℚ, 0 ≤ x → x ≤ 2 ^ 51 → 0 ≤ x.ceil ∧ x.ceil ≤ 2 ^ 51 := by
    intro x hx hle
    rw [rat_ceil_eq]
    exact ⟨Int.ceil_nonneg hx, Int.ceil_le.2 (by exact_mod_cast hle)⟩
  have hnum := hrange bound.numLog h.num_nonneg h.num_le
  have hden := hrange bound.denLog h.den_nonneg h.den_le
  have hwhole : bound.numLog.ceil + bound.denLog.ceil + 1 = bound.wholeLog := by
    unfold wholeLog
    omega
  have hcapacity : ((Machine.doubleCapacity : ℕ) : ℤ) = 9007199254740991 := by decide
  rw [log, hwhole, Machine.roundInt_eq_self (by rw [abs_of_nonneg] <;> omega), Int.cast_natCast]

/-- Twice the product of both bounds is the power of two that the logarithm says. -/
theorem IsInRange.limit_eq {bound : SolutionBound} (h : bound.IsInRange) :
    (bound.limit : ℝ) = 2 ^ (bound.log : ℝ) := by
  rw [limit_eq_two_pow, h.log_eq, Rat.cast_natCast, Real.rpow_natCast, Nat.cast_pow, Nat.cast_ofNat]

/-- A search from a quotient that is rounded up no further than the exact one finds the least
exponent. -/
theorem IsInRange.isLeast {bound : SolutionBound} (h : bound.IsInRange) {P k : ℕ} {quotient : ℝ}
    (hP : 2 ≤ P) (hquotient : ⌈quotient⌉ ≤ ⌈bound.log / Real.logb 2 P⌉)
    (hclimbs : Climbs P bound.limit (Selection.firstExponent quotient) k) :
    IsLeast {i | 1 ≤ i ∧ bound.limit < P ^ i} k := by
  -- No exponent below the start is large enough, so the search passes over none that is.
  refine hclimbs.isLeast (Selection.one_le_firstExponent quotient) fun i hi hlt => ?_
  rw [limit_eq_two_pow] at hlt
  rw [h.log_eq, Rat.cast_natCast] at hquotient
  exact Selection.firstExponent_le hP hquotient hi hlt

end SolutionBound

/-! ## Lifting primes -/

/-- What a pool has taken are moduli, whatever the source hands out. -/
theorem PrimePool.Took.two_le_of_mem {pool pool' : PrimePool} {source after : PrimeSource}
    {handed : List ℕ} (h : pool.Took source handed pool' after) (hpool : ∀ q ∈ pool.primes, 2 ≤ q) :
    ∀ q ∈ pool'.primes, 2 ≤ q := by
  intro q hq
  rcases (h.mem_iff q).1 hq with hq | ⟨hq, -⟩
  · exact hpool q hq
  · exact h.two_le q hq

namespace Selection

section Lifting

variable {n : ℕ} {residues : Residues n} {known : Known n} {settings : Settings} {extent : Extent}
  {supply after : Supply} {m : Moduli n}

/-- A channel is made for the prime that was asked for. -/
theorem prime_of_channel {p : ℕ} {c : Channel n} (h : channel residues known p = .ok c) :
    c.prime = p := by
  unfold channel at h
  split at h
  · cases h
    rfl
  · obtain ⟨R, -, h⟩ := Outcome.bind_eq_ok.1 h
    obtain ⟨inversion, -, h⟩ := Outcome.bind_eq_ok.1 h
    split at h <;> cases h
    rfl

/-- Channels keep the order of their primes. -/
theorem map_prime_of_channels {primes : List ℕ} {cs : List (Channel n)}
    (h : channels residues known primes = .ok cs) : cs.map Channel.prime = primes := by
  rw [channels, Outcome.mapM_eq_ok_iff] at h
  induction h with
  | nil => rfl
  | cons hc _ ih => rw [List.map_cons, prime_of_channel hc, ih]

/-- The invariant of the rounds is that the members of the pool are moduli. -/
theorem two_le_of_settle {allowed count retries : ℕ} {limit : String} {discarded : List ℕ}
    {pool : PrimePool} (hpool : ∀ q ∈ pool.primes, 2 ≤ q) (hcount : 0 < count)
    (h : settle residues known allowed limit count extent retries discarded pool supply
      = (.ok m, after)) :
    m.channels.map Channel.prime ≠ [] ∧ ∀ p ∈ m.channels.map Channel.prime, 2 ≤ p := by
  obtain ⟨pool₁, pool₂, source₁, source₂, s, hpool₁, hsplit, hcs, -⟩ :=
    settle_eq_ok_of (fun pool _ => ∀ q ∈ pool.primes, 2 ≤ q)
      (fun hinv hsplit hdraw => by
        obtain ⟨_, htook⟩ := PrimePool.took_of_split hsplit
        obtain ⟨_, hdrawn⟩ := PrimePool.took_of_draw hdraw
        exact hdrawn.two_le_of_mem fun q hq =>
          htook.two_le_of_mem hinv q (PrimePool.mem_discard.1 hq).1)
      hpool h
  obtain ⟨hlength, hlifting, -⟩ := PrimePool.cuts_of_split hsplit
  obtain ⟨_, htook⟩ := PrimePool.took_of_split hsplit
  rw [map_prime_of_channels hcs, hlifting]
  refine ⟨List.ne_nil_of_length_pos ?_, fun p hp => ?_⟩
  · rw [List.length_take]
    omega
  · exact htook.two_le_of_mem hpool₁ p (List.mem_of_mem_take hp)

/-- The moduli that are chosen have lifting primes, each from 2 up. No source is trusted for
this. -/
theorem two_le_of_chooseModuli {choice : Choice}
    (h : chooseModuli residues known settings choice extent supply = (.ok m, after)) :
    m.channels.map Channel.prime ≠ [] ∧ ∀ p ∈ m.channels.map Channel.prime, 2 ≤ p := by
  cases choice with
  | given numbers =>
    obtain ⟨qs, _, _, _, hne, hqs, hcs, -, -⟩ := fromGiven_eq_ok h
    obtain ⟨hcast, hprime⟩ := admitPrimes_eq_ok hqs
    rw [map_prime_of_channels hcs]
    refine ⟨fun hnil => hne ?_, fun p hp => (hprime p hp).1.two_le⟩
    rw [← hcast, hnil, List.map_nil]
  | smallest asked =>
    obtain ⟨c, hpos, -, done, pool, source, hdrawn, h⟩ := fromPool_eq_settle h
    obtain ⟨_, htook⟩ := PrimePool.took_of_drawUntil hdrawn
    exact two_le_of_settle (htook.two_le_of_mem fun _ hq => absurd hq List.not_mem_nil) hpos h

/-- The modulus of a plan is large enough for the search, and the search counts the digits. -/
theorem digitCount_of_selectFor {system : Profile n} {choice : Choice}
    {supplied : List (ℤ × Nested)} {plan : Plan n}
    (h : selectFor system settings choice supplied supply = (.ok plan, after)) :
    2 ≤ plan.modulus ∧ plan.iterations = digitCount plan.primes plan.bound := by
  obtain ⟨known, bits, m, -, -, hchosen, hcomplete⟩ := selectFor_eq_ok h
  obtain ⟨bound, -, -, rfl⟩ := complete_eq_ok hcomplete
  obtain ⟨hne, htwo⟩ := two_le_of_chooseModuli hchosen
  exact ⟨two_le_foldl_mul hne htwo, rfl⟩

end Lifting

end Selection

/-! ## Plans -/

/-- The number of digits of a plan is enough, and it is where a search ends that finds no more
digits than necessary. -/
structure Plan.CountsDigits {n : ℕ} (plan : Plan n) : Prop where
  climbs : Climbs plan.modulus plan.bound.limit
    (Selection.firstExponent (Selection.computedQuotient plan.primes plan.bound)) plan.iterations
  one_le : 1 ≤ plan.iterations
  limit_lt : plan.bound.limit < plan.modulus ^ plan.iterations
  /-- A search for any bounds from any quotient ends, and ends with enough digits. -/
  climbs_from : ∀ (bound : SolutionBound) (quotient : ℝ), ∃ k,
    Climbs plan.modulus bound.limit (Selection.firstExponent quotient) k ∧ 1 ≤ k ∧
      bound.limit < plan.modulus ^ k
  /-- From the quotient of the exact logarithms it ends with the least number that is enough. -/
  isLeast : ∀ bound : SolutionBound, bound.IsInRange → ∀ k,
    Climbs plan.modulus bound.limit
      (Selection.firstExponent (bound.log / Real.logb 2 plan.modulus)) k →
    IsLeast {i | 1 ≤ i ∧ bound.limit < plan.modulus ^ i} k
  /-- Doubles that round no further up than the exact quotient cost no digit. -/
  isLeast_iterations : plan.bound.IsInRange →
    ⌈Selection.computedQuotient plan.primes plan.bound⌉
      ≤ ⌈plan.bound.log / Real.logb 2 plan.modulus⌉ →
    IsLeast {i | 1 ≤ i ∧ plan.bound.limit < plan.modulus ^ i} plan.iterations

/-- Every plan that is selected has enough digits, whatever its logarithms were computed to. Twice
the product of both bounds is the power of two that their logarithm says, over the whole range of
logarithms, so that the digits are counted exactly from an exact quotient. -/
theorem SomePlan.countsDigits_of_select {a b : Nested} {settings : Settings}
    {choice : Selection.Choice} {supplied : List (ℤ × Nested)} {supply after : Supply}
    {P : SomePlan} (h : SomePlan.select a b settings choice supplied supply = (.ok P, after)) :
    P.plan.CountsDigits ∧
      ∀ bound : SolutionBound, bound.IsInRange → (bound.limit : ℝ) = 2 ^ (bound.log : ℝ) := by
  obtain ⟨htwo, hiterations⟩ : 2 ≤ P.plan.modulus ∧
      P.plan.iterations = Selection.digitCount P.plan.primes P.plan.bound := by
    unfold SomePlan.select at h
    split at h
    · cases h
    · rw [Prod.mk.injEq] at h
      obtain ⟨plan, hplan, rfl⟩ := Outcome.map_eq_ok.1 h.1
      exact Selection.digitCount_of_selectFor (Prod.ext hplan rfl)
  have hclimbs : Climbs P.plan.modulus P.plan.bound.limit
      (Selection.firstExponent (Selection.computedQuotient P.plan.primes P.plan.bound))
      P.plan.iterations := by
    rw [hiterations, Selection.digitCount_eq]
    exact Selection.climbs_leastExponent htwo _ _
  refine ⟨⟨hclimbs, (Selection.one_le_firstExponent _).trans hclimbs.le, hclimbs.lt_pow,
    fun bound quotient => ?_, fun bound hrange k hk => hrange.isLeast htwo le_rfl hk,
    fun hrange hquotient => ?_⟩, fun bound hrange => hrange.limit_eq⟩
  · have hends := Selection.climbs_leastExponent htwo bound.limit (Selection.firstExponent quotient)
    exact ⟨_, hends, (Selection.one_le_firstExponent quotient).trans hends.le, hends.lt_pow⟩
  · rw [← Rat.ceil_cast (α := ℝ)] at hquotient
    exact hrange.isLeast htwo hquotient hclimbs

/-- The equation `3 x = 1` with the lifting prime 2. Three digits meet twice the product of the
bounds 1 and 4 exactly, so a fourth one is needed. -/
theorem SomePlan.countsDigits_of_select_boundary : ∃ (plan : Plan 1) (after : Supply),
    SomePlan.select (.list [.list [.entry 3]]) (.list [.entry 1]) {} (.given [2]) []
      ⟨.listed 6 7 [101, 103], []⟩ = (.ok ⟨1, plan⟩, after) ∧
    plan.modulus = 2 ∧ plan.bound.limit = 2 ^ 3 ∧ plan.iterations = 4 ∧ plan.bound.IsInRange ∧
    plan.CountsDigits := by
  have hcounts : (SomePlan.select (.list [.list [.entry 3]]) (.list [.entry 1]) {} (.given [2]) []
      ⟨.listed 6 7 [101, 103], []⟩).1.map (fun P => (P.plan.modulus, P.plan.bound.limit,
        P.plan.iterations, decide P.plan.bound.IsInRange)) = .ok (2, 2 ^ 3, 4, true) := by
    decide +kernel
  have hsize : (SomePlan.select (.list [.list [.entry 3]]) (.list [.entry 1]) {} (.given [2]) []
      ⟨.listed 6 7 [101, 103], []⟩).1.map SomePlan.size = .ok 1 := by
    decide +kernel
  have hselect := @SomePlan.countsDigits_of_select (.list [.list [.entry 3]]) (.list [.entry 1]) {}
    (.given [2]) [] ⟨.listed 6 7 [101, 103], []⟩
  generalize SomePlan.select _ _ _ _ _ _ = outcome at hcounts hsize hselect
  obtain ⟨result, after⟩ := outcome
  obtain ⟨⟨size, plan⟩, rfl, hplan⟩ := Outcome.map_eq_ok.1 hcounts
  cases hsize
  rw [Prod.mk.injEq, Prod.mk.injEq, Prod.mk.injEq, decide_eq_true_eq] at hplan
  obtain ⟨hmodulus, hlimit, hiterations, hrange⟩ := hplan
  exact ⟨plan, after, rfl, hmodulus, hlimit, hiterations, hrange, (hselect rfl).1⟩

end PadicLift
