import PadicLift.Proofs.Plan.Faults
import PadicLift.Proofs.Prime.Trim

/-!
# Well-formed plans

What every plan is like that a selection returns (`Plan.WellFormed`), whatever the pool went
through: draws of primes in any order, replaced primes, new splits. Everything is read off the last
split of the pool. It cuts increasing primes behind the lifting primes, and only for these lifting
primes the inverses are kept.
-/

namespace PadicLift

variable {n : ℕ}

/-- A plan for the matrix `A` under some settings that a lift can rely on. -/
structure Plan.WellFormed (settings : Settings) (A : Mat n n) (plan : Plan n) : Prop where
  primes_increasing : plan.primes.Pairwise (· < ·)
  primes_prime : ∀ p ∈ plan.primes, p.Prime
  primes_le_max : ∀ p ∈ plan.primes, p ≤ maxModulus
  /-- The bits to cover are those of the norm and of the size, and the margin. -/
  basisBits_eq : plan.basisBits
    = Extent.bitsFor A.maxAbs n (Binary64.round settings.margin.toNumber.value)
  /-- The basis covers the bits that it has to cover, and needs its largest prime for that. -/
  basis_for : IsBasisFor (.bits plan.basisBits) plan.basis
  lt_basis : ∀ p ∈ plan.primes, ∀ q ∈ plan.basis, p < q
  inverse_reduced : ∀ c ∈ plan.channels, c.inverse.IsReduced c.prime
  inverse_mul : ∀ c ∈ plan.channels, c.inverse.modulo c.prime * A.modulo c.prime = 1
  mul_inverse : ∀ c ∈ plan.channels, A.modulo c.prime * c.inverse.modulo c.prime = 1
  not_dvd_det : ∀ p ∈ plan.primes, ¬ (p : ℤ) ∣ A.toMatrix.det
  /-- The balanced range of the basis holds every correction. -/
  covers : 2 * (n * A.maxAbs + 1) < plan.basis.prod

/-- The plan has exactly the lifting primes that were asked for. -/
def Plan.Answers (settings : Settings) (plan : Plan n) : Selection.Choice → Prop
  | .smallest asked =>
    (Selection.requested settings asked).integer? = some (plan.primes.length : ℤ)
  | .given numbers => ∀ v : ℤ, v ∈ numbers ↔ ∃ p ∈ plan.primes, (p : ℤ) = v

namespace Selection

/-! ## Given primes -/

/-- Ordering keeps every given number. -/
theorem mem_ordered {numbers : List ℤ} {v : ℤ} : v ∈ ordered numbers ↔ v ∈ numbers := by
  induction numbers generalizing v with
  | nil => exact Iff.rfl
  | cons x rest ih =>
    have hcons : ordered (x :: rest) = if (ordered rest).contains x then ordered rest else
        (ordered rest).takeWhile (· < x) ++ x :: (ordered rest).dropWhile (· < x) := rfl
    rw [hcons, List.mem_cons]
    split
    next hx =>
      rw [List.contains_iff_mem, ih] at hx
      rw [ih]
      constructor
      · exact .inr
      · rintro (rfl | hv)
        · exact hx
        · exact hv
    next =>
      have hsplit : v ∈ ordered rest ↔
          v ∈ (ordered rest).takeWhile (· < x) ∨ v ∈ (ordered rest).dropWhile (· < x) := by
        rw [← List.mem_append, List.takeWhile_append_dropWhile]
      rw [List.mem_append, List.mem_cons, or_left_comm, ← hsplit, ih]

/-! ## Moduli -/

section Moduli

variable {A : Mat n n} {known : Known n} {settings : Settings} {extent : Extent}
  {supply after : Supply} {m : Moduli n}

/-- However the lifting primes are chosen, the basis covers what it has to, with no prime too many.
-/
theorem isBasisFor_of_chooseModuli (hsource : supply.source.IsGenuine) {choice : Choice}
    (h : chooseModuli (residuesOf A) known settings choice extent supply = (.ok m, after)) :
    IsBasisFor extent m.basis := by
  cases choice with
  | given numbers =>
    obtain ⟨qs, s, pool, source, -, -, -, hsplit, hbasis⟩ := fromGiven_eq_ok h
    rw [hbasis]
    exact PrimePool.isBasisFor_of_split (PrimePool.isGenuine_empty _ _) hsource hsplit
  | smallest asked =>
    obtain ⟨c, -, -, pool₁, pool₂, source₁, source₂, s, hpool⟩ := fromPool_eq_ok hsource h
    rw [hpool.basis_eq]
    exact PrimePool.isBasisFor_of_split hpool.pool_genuine hpool.source_genuine hpool.split_eq

/-- The lifting primes are exactly those asked for. -/
theorem answers_of_chooseModuli (hknown : AreInverses A known) (hsource : supply.source.IsGenuine)
    {choice : Choice}
    (h : chooseModuli (residuesOf A) known settings choice extent supply = (.ok m, after))
    {plan : Plan n} (hchannels : plan.channels = m.channels) : plan.Answers settings choice := by
  have hprimes : plan.primes = m.channels.map Channel.prime := by rw [Plan.primes, hchannels]
  cases choice with
  | given numbers =>
    obtain ⟨qs, s, pool, source, -, hqs, hcs, -, -⟩ := fromGiven_eq_ok h
    obtain ⟨hcast, hprime⟩ := admitPrimes_eq_ok hqs
    obtain ⟨hmap, -⟩ := channels_eq_ok hknown hprime hcs
    intro v
    rw [hprimes, hmap, ← mem_ordered, ← hcast, List.mem_map]
    rfl
  | smallest asked =>
    obtain ⟨c, hc, hrequested, pool₁, pool₂, source₁, source₂, s, hpool⟩ := fromPool_eq_ok hsource h
    rw [Plan.Answers, hprimes, List.length_map, (hpool.moduliFor hknown hc).2]
    exact hrequested

end Moduli

/-! ## Plans -/

/-- What is selected for a system of integers is well formed and answers the choice. -/
theorem wellFormed_of_selectFor {S : LinearSystem n} {settings : Settings} {choice : Choice}
    {supplied : List (ℤ × Nested)} {supply after : Supply} {plan : Plan n}
    (hsource : supply.source.IsGenuine)
    (h : selectFor S.profile settings choice supplied supply = (.ok plan, after)) :
    plan.WellFormed settings S.matrix ∧ plan.Answers settings choice := by
  obtain ⟨hmoduli, hnorm, hcovers, -, -⟩ := isFor_of_selectFor hsource h
  obtain ⟨known, bits, m, hadmitted, hbits, hchosen, hcomplete⟩ := selectFor_eq_ok h
  have hknown : AreInverses S.matrix known := areInverses_of_admitAll hadmitted
  obtain ⟨bound, -, -, rfl⟩ := complete_eq_ok hcomplete
  have hchannel : ∀ p ∈ m.channels.map Channel.prime, ∃ c ∈ m.channels, c.prime = p :=
    fun p hp => List.mem_map.1 hp
  refine ⟨⟨hmoduli.increasing, fun p hp => ?_, fun p hp => ?_, hbits,
    isBasisFor_of_chooseModuli hsource hchosen, fun p hp => ?_, fun c hc => ?_, fun c hc => ?_,
    fun c hc => ?_, fun p hp => ?_, ?_⟩, answers_of_chooseModuli hknown hsource hchosen rfl⟩
  · obtain ⟨c, hc, rfl⟩ := hchannel p hp
    exact (hmoduli.channels_for c hc).prime
  · obtain ⟨c, hc, rfl⟩ := hchannel p hp
    exact (hmoduli.channels_for c hc).le_max
  · obtain ⟨c, hc, rfl⟩ := hchannel p hp
    exact hmoduli.lt_basis c hc
  · exact (hmoduli.channels_for c hc).inverse.reduced
  · exact (hmoduli.channels_for c hc).inverse.mul_eq_one
  · exact mul_eq_one_comm.1 (hmoduli.channels_for c hc).inverse.mul_eq_one
  · obtain ⟨c, hc, rfl⟩ := hchannel p hp
    exact (hmoduli.channels_for c hc).not_dvd_det
  · rw [← hnorm, List.prod_eq_foldl]
    exact hcovers

end Selection

/-- Every plan that is selected for a system of integers is well formed, has exactly the lifting
primes that were asked for, and is for a nonsingular matrix. The bounds never fail for a zero row or
column. -/
theorem SomePlan.wellFormed_of_select {a b : Nested} {S : LinearSystem n}
    (hread : SomeSystem.read a b = .ok (.ofLinear S)) (settings : Settings)
    (choice : Selection.Choice) (supplied : List (ℤ × Nested)) (supply : Supply)
    (hsource : supply.source.IsGenuine) :
    (∀ P after, SomePlan.select a b settings choice supplied supply = (.ok P, after) →
      S.matrix.toMatrix.det ≠ 0 ∧ ∃ plan : Plan n, P = ⟨n, plan⟩ ∧
        plan.WellFormed settings S.matrix ∧ plan.Answers settings choice) ∧
    ∀ after, SomePlan.select a b settings choice supplied supply
      ≠ (.error (.argument .zeroRowOrColumn), after) := by
  refine ⟨fun P after hP => ?_, fun after hfault => ?_⟩
  · obtain ⟨plan, rfl, hplan⟩ := selectFor_of_select_eq_ok hread hP
    obtain ⟨hwell, hanswers⟩ := Selection.wellFormed_of_selectFor hsource hplan
    exact ⟨(Selection.isFor_of_selectFor hsource hplan).moduli.det_ne_zero, plan, rfl, hwell,
      hanswers⟩
  · exact Selection.ne_zeroLine_of_selectFor hsource (selectFor_of_select_eq_error hread hfault) rfl

/-- The system `2 x + y = 3`, `x + 3 y = 5` with two lifting primes from a list in no order. The
determinant is 5, so 5 is replaced, and one of the primes above 100 is enough for a basis. -/
theorem SomePlan.wellFormed_of_select_replaced : ∃ (plan : Plan 2) (after : Supply),
    SomePlan.select (.list [.list [.entry 2, .entry 1], .list [.entry 1, .entry 3]])
      (.list [.entry 3, .entry 5]) {} (.smallest (some 2)) []
      ⟨.listed 6 7 [11, 5, 7, 11, 101, 103], []⟩ = (.ok ⟨2, plan⟩, after) ∧
    plan.primes = [7, 11] ∧ plan.basis = [101] ∧ plan.discarded = [5] ∧
    plan.WellFormed {} ⟨#v[#v[2, 1], #v[1, 3]]⟩ ∧ plan.Answers {} (.smallest (some 2)) := by
  have hread : SomeSystem.read (.list [.list [.entry 2, .entry 1], .list [.entry 1, .entry 3]])
      (.list [.entry 3, .entry 5]) = .ok (.ofLinear ⟨⟨#v[#v[2, 1], #v[1, 3]]⟩, #v[3, 5]⟩) := rfl
  have hsource : (PrimeSource.listed 6 7 [11, 5, 7, 11, 101, 103]).IsGenuine :=
    PrimeSource.isGenuine_of_all (by decide +kernel)
  have hprimes : (SomePlan.select (.list [.list [.entry 2, .entry 1], .list [.entry 1, .entry 3]])
      (.list [.entry 3, .entry 5]) {} (.smallest (some 2)) []
      ⟨.listed 6 7 [11, 5, 7, 11, 101, 103], []⟩).1.map
      (fun P => (P.plan.primes, P.plan.basis, P.plan.discarded)) = .ok ([7, 11], [101], [5]) := by
    decide +kernel
  obtain ⟨hall, -⟩ := SomePlan.wellFormed_of_select hread {} (.smallest (some 2)) []
    ⟨.listed 6 7 [11, 5, 7, 11, 101, 103], []⟩ hsource
  generalize SomePlan.select _ _ _ _ _ _ = outcome at hprimes hall
  obtain ⟨result, after⟩ := outcome
  obtain ⟨P, rfl, hP⟩ := Outcome.map_eq_ok.1 hprimes
  obtain ⟨-, plan, rfl, hwell, hanswers⟩ := hall P after rfl
  rw [Prod.mk.injEq, Prod.mk.injEq] at hP
  exact ⟨plan, after, rfl, hP.1, hP.2.1, hP.2.2, hwell, hanswers⟩

end PadicLift
