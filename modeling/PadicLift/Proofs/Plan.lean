import PadicLift.Plan
import PadicLift.Proofs.Modular.Elimination
import PadicLift.Proofs.Prime.Pool

/-!
# What a plan guarantees

A plan that has been selected from a genuine source fits its system (`Plan.IsFor`): its lifting
primes are distinct, each with the inverse of the matrix, every basis prime is larger than all of
them, the basis holds every correction, and the number of digits is large enough to read fractions
within the bounds.
-/

namespace PadicLift

-- Powers take their instance from the core library, as they do beside the definitions.
attribute [local instance (high)] instPowNat

variable {n : ℕ}

/-- A prime with the inverse of `A`. -/
structure Channel.IsFor (A : Mat n n) (c : Channel n) : Prop where
  prime : c.prime.Prime
  le_max : c.prime ≤ maxModulus
  inverse : A.IsInverse c.prime c.inverse

/-- Lifting primes in increasing order, at least one, below all primes of a basis. -/
structure ModuliFor (A : Mat n n) (channels : List (Channel n)) (basis : List ℕ) : Prop where
  channels_for : ∀ c ∈ channels, c.IsFor A
  increasing : (channels.map Channel.prime).Pairwise (· < ·)
  lt_basis : ∀ c ∈ channels, ∀ q ∈ basis, c.prime < q
  nonempty : channels ≠ []

/-- A plan fits a system. -/
structure Plan.IsFor (S : LinearSystem n) (plan : Plan n) : Prop where
  moduli : ModuliFor S.matrix plan.channels plan.basis
  norm_eq : plan.norm = S.matrix.maxAbs
  covers : 2 * (n * plan.norm + 1) < plan.basis.foldl (· * ·) 1
  bound_eq : SolutionBound.ofSystem S.matrix S.right.toList = .ok plan.bound
  iterations_eq : plan.iterations = Selection.digitCount plan.primes plan.bound

/-! ## A search for an exponent -/

/-- A search that starts at the exponent `k`, goes on while the power is at most `limit`, and ends
at the exponent `j`. -/
inductive Climbs (P limit : ℕ) : ℕ → ℕ → Prop
  | stop {k : ℕ} (h : limit < P ^ k) : Climbs P limit k k
  | step {k j : ℕ} (h : P ^ k ≤ limit) (rest : Climbs P limit (k + 1) j) : Climbs P limit k j

namespace Climbs

variable {P limit k j : ℕ}

theorem lt_pow (h : Climbs P limit k j) : limit < P ^ j := by
  induction h with
  | stop hstop => exact hstop
  | step _ _ ih => exact ih

theorem le (h : Climbs P limit k j) : k ≤ j := by
  induction h with
  | stop _ => exact le_rfl
  | step _ _ ih => omega

/-- The search passes over no exponent that would do. -/
theorem pow_le (h : Climbs P limit k j) {i : ℕ} (hk : k ≤ i) (hj : i < j) : P ^ i ≤ limit := by
  induction h with
  | stop _ => omega
  | @step k j hstep _ ih =>
    rcases Nat.eq_or_lt_of_le hk with rfl | hlt
    · exact hstep
    · exact ih hlt hj

/-- A search that starts no later than at the least exponent ends there. -/
theorem isLeast (h : Climbs P limit k j) (hk : 1 ≤ k)
    (hstart : ∀ i, 1 ≤ i → limit < P ^ i → k ≤ i) :
    IsLeast {i | 1 ≤ i ∧ limit < P ^ i} j := by
  refine ⟨⟨hk.trans h.le, h.lt_pow⟩, fun i hi => ?_⟩
  by_contra hlt
  exact absurd hi.2 (not_lt.2 (h.pow_le (hstart i hi.1 hi.2) (not_le.1 hlt)))

end Climbs

namespace Selection

/-! ## Inverses -/

section Inverses

variable {A : Mat n n} {residues : Residues n} {known : Known n}

/-- The residues of a matrix of integers. -/
def residuesOf (A : Mat n n) : Residues n := fun p => .ok (A.reduce p)

/-- All inverses known are inverses of `A`. -/
def AreInverses (A : Mat n n) (known : Known n) : Prop := ∀ e ∈ known, A.IsInverse e.1 e.2

/-- A supplied inverse is admitted with its residues, and only if they are the inverse. -/
theorem admitInverse_eq_ok {p : ℤ} {supplied : Nested} {e : ℕ × Mat n n}
    (h : admitInverse (residuesOf A) p supplied = .ok e) :
    (e.1 : ℤ) = p ∧ e.1 ≤ maxModulus ∧ supplied.shape = [n, n] ∧ A.IsInverse e.1 e.2 ∧
      ∃ words, toWords supplied = .ok words ∧ e.2 = (Nested.matOfList words n n).reduce e.1 := by
  obtain ⟨q, hq, h⟩ := Outcome.bind_eq_ok.1 h
  obtain ⟨htwo, hmax, hcast⟩ := checkModulus_eq_ok hq
  obtain ⟨words, hwords, h⟩ := Outcome.bind_eq_ok.1 h
  obtain ⟨R, hR, h⟩ := Outcome.bind_eq_ok.1 h
  cases hR
  dsimp only at h
  split at h
  · cases h
  next hshape =>
    split at h
    next htest =>
      cases h
      rw [ne_eq, not_not] at hshape
      exact ⟨hcast, hmax, hshape, Mat.isInverse_of_isInverseMod (by omega) hmax
        (Mat.isReduced_reduce (by omega) _) htest, words, hwords, rfl⟩
    next => cases h

/-- What is admitted as an inverse is one. -/
theorem isInverse_of_admitInverse {p : ℤ} {supplied : Nested} {e : ℕ × Mat n n}
    (h : admitInverse (residuesOf A) p supplied = .ok e) : A.IsInverse e.1 e.2 :=
  (admitInverse_eq_ok h).2.2.2.1

/-- So are all that are admitted. -/
theorem areInverses_of_admitAll {supplied : List (ℤ × Nested)}
    (h : admitAll (residuesOf A) supplied = .ok known) : AreInverses A known := by
  intro e he
  have hall := Outcome.mapM_eq_ok_iff.1 h
  obtain ⟨i, hi⟩ := List.mem_iff_get.1 he
  rw [List.forall₂_iff_get] at hall
  have hadmitted := hall.2 i.val (by have := i.isLt; rw [hall.1]; exact this) i.isLt
  rw [← hi]
  exact isInverse_of_admitInverse hadmitted

/-- What is found for a prime is the inverse for that prime. -/
theorem isInverse_of_lookup (hknown : AreInverses A known) {p : ℕ} {B : Mat n n}
    (h : known.lookup p = some B) : A.IsInverse p B := by
  induction known with
  | nil => cases h
  | cons e rest ih =>
    rw [AreInverses, List.forall_mem_cons] at hknown
    rw [List.lookup_cons] at h
    split at h
    next heq =>
      cases h
      rw [eq_of_beq heq]
      exact hknown.1
    next => exact ih hknown.2 h

/-- The channel of a prime has the inverse of the matrix, known or computed. -/
theorem isFor_of_channel (hknown : AreInverses A known) {p : ℕ} (hp : p.Prime)
    (hmax : p ≤ maxModulus) {c : Channel n} (h : channel (residuesOf A) known p = .ok c) :
    c.prime = p ∧ c.IsFor A := by
  unfold channel at h
  split at h
  next B hB =>
    cases h
    exact ⟨rfl, hp, hmax, isInverse_of_lookup hknown hB⟩
  next =>
    obtain ⟨R, hR, h⟩ := Outcome.bind_eq_ok.1 h
    cases hR
    obtain ⟨inversion, hinversion, h⟩ := Outcome.bind_eq_ok.1 h
    split at h
    · cases h
      exact ⟨rfl, hp, hmax, Mat.isInverse_of_inverseMod hp.two_le hmax hinversion⟩
    · cases h

/-- Channels are made for exactly the given primes, and each has its inverse. -/
theorem channels_eq_ok (hknown : AreInverses A known) {primes : List ℕ}
    (hprimes : ∀ p ∈ primes, p.Prime ∧ p ≤ maxModulus) {cs : List (Channel n)}
    (h : channels (residuesOf A) known primes = .ok cs) :
    cs.map Channel.prime = primes ∧ ∀ c ∈ cs, c.IsFor A := by
  rw [channels, Outcome.mapM_eq_ok_iff] at h
  induction h with
  | nil => exact ⟨rfl, fun c hc => absurd hc List.not_mem_nil⟩
  | cons hc _ ih =>
    rw [List.forall_mem_cons] at hprimes
    obtain ⟨hprime, hfor⟩ := isFor_of_channel hknown hprimes.1.1 hprimes.1.2 hc
    obtain ⟨hmap, hall⟩ := ih hprimes.2
    rw [List.map_cons, hprime, hmap, List.forall_mem_cons]
    exact ⟨rfl, hfor, hall⟩

end Inverses

/-! ## Given lifting primes -/

/-- Putting a number in its place keeps the order. -/
theorem pairwise_takeWhile_append {x : ℤ} {done : List ℤ} (hdone : done.Pairwise (· < ·))
    (hx : x ∉ done) :
    (done.takeWhile (· < x) ++ x :: done.dropWhile (· < x)).Pairwise (· < ·) := by
  induction done with
  | nil => simp
  | cons d rest ih =>
    rw [List.pairwise_cons] at hdone
    rw [List.mem_cons, not_or] at hx
    by_cases hd : d < x
    · rw [List.takeWhile_cons_of_pos (by simpa using hd),
        List.dropWhile_cons_of_pos (by simpa using hd), List.cons_append, List.pairwise_cons]
      refine ⟨fun y hy => ?_, ih hdone.2 hx.2⟩
      rcases List.mem_append.1 hy with hy | hy
      · exact hdone.1 y ((List.takeWhile_sublist _).subset hy)
      · rcases List.mem_cons.1 hy with rfl | hy
        · exact hd
        · exact hdone.1 y ((List.dropWhile_sublist _).subset hy)
    · rw [List.takeWhile_cons_of_neg (by simpa using hd),
        List.dropWhile_cons_of_neg (by simpa using hd), List.nil_append, List.pairwise_cons]
      have hlt : x < d := by omega
      refine ⟨fun y hy => ?_, List.pairwise_cons.2 hdone⟩
      rcases List.mem_cons.1 hy with rfl | hy
      · exact hlt
      · exact hlt.trans (hdone.1 y hy)

/-- Given numbers are brought into strictly increasing order. -/
theorem pairwise_ordered (numbers : List ℤ) : (ordered numbers).Pairwise (· < ·) := by
  induction numbers with
  | nil => exact List.Pairwise.nil
  | cons x rest ih =>
    show (if (ordered rest).contains x then ordered rest else
      (ordered rest).takeWhile (· < x) ++ x :: (ordered rest).dropWhile (· < x)).Pairwise (· < ·)
    split
    · exact ih
    next hx => exact pairwise_takeWhile_append ih (by simpa using hx)

/-- Only primes within the range of moduli are admitted. -/
theorem admitPrimes_eq_ok {numbers : List ℤ} {primes : List ℕ}
    (h : admitPrimes numbers = .ok primes) :
    primes.map Int.ofNat = numbers ∧ ∀ p ∈ primes, p.Prime ∧ p ≤ maxModulus := by
  induction numbers generalizing primes with
  | nil =>
    cases h
    simp
  | cons v rest ih =>
    obtain ⟨q, hq, h⟩ := Outcome.bind_eq_ok.1 h
    obtain ⟨-, hmax, hcast⟩ := checkModulus_eq_ok hq
    split at h
    · cases h
    next hprime =>
      obtain ⟨qs, hqs, h⟩ := Outcome.bind_eq_ok.1 h
      cases h
      obtain ⟨hmap, hall⟩ := ih hqs
      rw [Bool.not_eq_true, Bool.not_eq_false'] at hprime
      rw [List.map_cons, hmap, List.forall_mem_cons]
      exact ⟨congrArg (· :: rest) hcast, ⟨(isPrime_iff hmax).1 hprime, hmax⟩, hall⟩

section Moduli

variable {A : Mat n n} {residues : Residues n} {known : Known n} {settings : Settings}
  {extent : Extent} {supply after : Supply} {m : Moduli n}

/-- How given primes and a basis succeed. -/
theorem fromGiven_eq_ok {primes : List ℤ}
    (h : fromGiven residues known settings primes extent supply = (.ok m, after)) :
    ∃ qs s pool source, ordered primes ≠ [] ∧ admitPrimes (ordered primes) = .ok qs ∧
      channels residues known qs = .ok m.channels ∧
      (PrimePool.empty ((m.channels.map Channel.prime).foldl max 0) settings.allowance).split 0
        extent supply.source = (.ok s, pool, source) ∧ m.basis = s.basis := by
  unfold fromGiven at h
  dsimp only at h
  split at h
  · cases h
  next cs hprepared =>
    split at hprepared
    · cases hprepared
    next hne =>
      obtain ⟨qs, hqs, hchannels⟩ := Outcome.bind_eq_ok.1 hprepared
      split at h
      · cases h
      next s pool source hsplit =>
        cases h
        exact ⟨qs, s, pool, source, hne, hqs, hchannels, hsplit, rfl⟩

/-- Given primes with a basis drawn above them are fit for the matrix. -/
theorem moduliFor_of_fromGiven (hknown : AreInverses A known) (hsource : supply.source.IsGenuine)
    {primes : List ℤ}
    (h : fromGiven (residuesOf A) known settings primes extent supply = (.ok m, after)) :
    ModuliFor A m.channels m.basis := by
  obtain ⟨qs, s, pool, source, hne, hqs, hchannels, hsplit, hbasisEq⟩ := fromGiven_eq_ok h
  obtain ⟨hcast, hprime⟩ := admitPrimes_eq_ok hqs
  obtain ⟨hmap, hall⟩ := channels_eq_ok hknown hprime hchannels
  obtain ⟨hdrawn, -, -, hbasis⟩ := PrimePool.split_eq_ok
    (PrimePool.isGenuine_empty _ settings.allowance) hsource hsplit
  refine ⟨hall, ?_, fun c hc q hq => ?_, fun hnil => ?_⟩
  · have hpairwise := pairwise_ordered primes
    rw [← hcast, List.pairwise_map] at hpairwise
    rw [hmap]
    exact hpairwise.imp Int.ofNat_lt.1
  -- The moduli of the basis are drawn above the largest lifting prime.
  · have hfloor : c.prime ≤ (m.channels.map Channel.prime).foldl max 0 :=
      (le_foldl_max id _ 0).2 _ (List.mem_map_of_mem hc)
    rw [hbasisEq] at hq
    have hmem : q ∈ pool.primes := List.mem_of_mem_drop (hbasis.subset hq)
    have hlt := (hdrawn.pool_genuine q hmem).2
    rw [hdrawn.floor_eq] at hlt
    exact hfloor.trans_lt hlt
  · rw [hnil, List.map_nil] at hmap
    rw [← hmap, List.map_nil] at hcast
    exact hne hcast.symm

/-! ## Lifting primes from a pool -/

/-- The moduli come from a split of a genuine pool behind the first `count` members. -/
structure IsFromPool (residues : Residues n) (known : Known n) (count : ℕ) (extent : Extent)
    (m : Moduli n) (pool pool' : PrimePool) (source after : PrimeSource)
    (s : PrimePool.Split) : Prop where
  pool_genuine : pool.IsGenuine
  source_genuine : source.IsGenuine
  split_eq : pool.split count extent source = (.ok s, pool', after)
  channels_eq : channels residues known s.lifting = .ok m.channels
  basis_eq : m.basis = s.basis

/-- Moduli that come from a pool are fit for the matrix, with as many channels as asked for. -/
theorem IsFromPool.moduliFor {pool pool' : PrimePool} {source last : PrimeSource} {count : ℕ}
    {s : PrimePool.Split} (hknown : AreInverses A known) (hcount : 0 < count)
    (h : IsFromPool (residuesOf A) known count extent m pool pool' source last s) :
    ModuliFor A m.channels m.basis ∧ m.channels.length = count := by
  obtain ⟨hdrawn, hlength, hlifting, hbasis⟩ :=
    PrimePool.split_eq_ok h.pool_genuine h.source_genuine h.split_eq
  have hsorted := pool'.increasing
  rw [← List.take_append_drop count pool'.primes, List.pairwise_append] at hsorted
  have hprime : ∀ p ∈ s.lifting, p.Prime ∧ p ≤ maxModulus := by
    intro p hp
    rw [hlifting] at hp
    have hmem := List.mem_of_mem_take hp
    exact ⟨(hdrawn.pool_genuine p hmem).1, pool'.le_max p hmem⟩
  obtain ⟨hmap, hall⟩ := channels_eq_ok hknown hprime h.channels_eq
  have hwidth : m.channels.length = count := by
    rw [← List.length_map Channel.prime, hmap, hlifting, List.length_take, min_eq_left hlength.le]
  refine ⟨⟨hall, ?_, fun c hc q hq => ?_, ?_⟩, hwidth⟩
  · rw [hmap, hlifting]
    exact hsorted.1
  · have hmem : c.prime ∈ s.lifting := hmap ▸ List.mem_map_of_mem hc
    rw [hlifting] at hmem
    rw [h.basis_eq] at hq
    exact hsorted.2.2 c.prime hmem q (hbasis.subset hq)
  · exact List.ne_nil_of_length_pos (by omega)

/-- The invariant of `settle`: what a split and the draw of one new prime keep is true of the pool
and the source before the last split. -/
theorem settle_eq_ok_of (Inv : PrimePool → PrimeSource → Prop) {allowed count retries : ℕ}
    {limit : String} {discarded : List ℕ} {pool : PrimePool}
    (hstep : ∀ {pool pool₁ pool₂ source source₁ source₂ s p q}, Inv pool source →
      pool.split count extent source = (.ok s, pool₁, source₁) →
      (pool₁.discard p).draw source₁ = (.ok q, pool₂, source₂) → Inv pool₂ source₂)
    (hinv : Inv pool supply.source)
    (h : settle residues known allowed limit count extent retries discarded pool supply
      = (.ok m, after)) :
    ∃ pool₁ pool₂ source₁ source₂ s, Inv pool₁ source₁ ∧
      pool₁.split count extent source₁ = (.ok s, pool₂, source₂) ∧
      channels residues known s.lifting = .ok m.channels ∧ m.basis = s.basis := by
  induction retries generalizing discarded pool supply with
  | zero =>
    unfold settle at h
    split at h
    · cases h
    next s pool' source' hsplit =>
      split at h
      next hcs =>
        cases h
        exact ⟨pool, pool', supply.source, source', s, hinv, hsplit, hcs, rfl⟩
      next heq => cases heq
      · cases h
  | succ retries ih =>
    unfold settle at h
    split at h
    · cases h
    next s pool' source' hsplit =>
      split at h
      next hcs =>
        cases h
        exact ⟨pool, pool', supply.source, source', s, hinv, hsplit, hcs, rfl⟩
      next hcs heq =>
        cases heq
        -- A prime that divides the determinant is discarded and another one drawn.
        dsimp only at h
        split at h
        · cases h
        next hdraw => exact ih (hstep hinv hsplit hdraw) h
      · cases h

/-- Replacements end with moduli that come from a pool of primes. -/
theorem settle_eq_ok {allowed count retries : ℕ} {limit : String} {discarded : List ℕ}
    {pool : PrimePool} (hpool : pool.IsGenuine) (hsource : supply.source.IsGenuine)
    (h : settle residues known allowed limit count extent retries discarded pool supply
      = (.ok m, after)) :
    ∃ pool₁ pool₂ source₁ source₂ s,
      IsFromPool residues known count extent m pool₁ pool₂ source₁ source₂ s := by
  obtain ⟨pool₁, pool₂, source₁, source₂, s, ⟨hpool₁, hsource₁⟩, hsplit, hcs, hbasis⟩ :=
    settle_eq_ok_of (fun pool source => pool.IsGenuine ∧ source.IsGenuine)
      (fun hinv hsplit hdraw => by
        obtain ⟨hdrawn, -⟩ := PrimePool.split_eq_ok hinv.1 hinv.2 hsplit
        have hnext := PrimePool.drawn_of_draw (hdrawn.pool_genuine.discard _)
          hdrawn.source_genuine hdraw
        exact ⟨hnext.pool_genuine, hnext.source_genuine⟩)
      ⟨hpool, hsource⟩ h
  exact ⟨pool₁, pool₂, source₁, source₂, s, hpool₁, hsource₁, hsplit, hcs, hbasis⟩

theorem one_le_of_not_isBelow {count : Quantity} {c : ℤ} (hcount : ¬ count.isBelow 1 = true)
    (hc : count.integer? = some c) : 1 ≤ c := by
  unfold Quantity.integer? at hc
  unfold Quantity.isBelow at hcount
  split at hc
  next v hv =>
    cases hc
    rw [hv, Number.before, decide_eq_true_eq, not_lt] at hcount
    · have hvalue : ((1 : ℤ) : ℚ) ≤ (c : ℚ) := hcount
      exact_mod_cast hvalue
    all_goals simp
  next => cases hc

/-- The number of lifting primes that is asked for; 0 and nothing ask for what the settings say. -/
def requested (settings : Settings) (asked : Option ℤ) : Quantity :=
  if asked.getD 0 = 0 then settings.primesCount else .ofInt (asked.getD 0)

/-- How the smallest primes of a pool succeed: draws fill the pool, and `settle` splits it. -/
theorem fromPool_eq_settle {asked : Option ℤ}
    (h : fromPool residues known settings asked extent supply = (.ok m, after)) :
    ∃ c : ℕ, 0 < c ∧ (requested settings asked).integer? = some (c : ℤ) ∧
      ∃ done pool source, (PrimePool.empty 0 settings.allowance).drawUntil done supply.source
          = (.ok (), pool, source) ∧
        settle residues known settings.retries settings.maxRetries.text c extent settings.retries []
          pool { supply with source } = (.ok m, after) := by
  have hcount : (if asked.getD 0 = 0 then settings.primesCount else .ofInt (asked.getD 0))
      = requested settings asked := rfl
  unfold fromPool at h
  dsimp only at h
  rw [hcount] at h
  split at h
  · cases h
  next hbelow =>
    split at h
    · cases h
    · split at h
      · cases h
      · cases h
      next c hdrawn hc =>
        have hone := one_le_of_not_isBelow hbelow hc
        refine ⟨c.toNat, by omega, ?_, _, _, _, hdrawn, h⟩
        rw [Int.toNat_of_nonneg (by omega)]
        exact hc

/-- Moduli come from a pool only for a positive number of lifting primes. -/
theorem fromPool_eq_ok (hsource : supply.source.IsGenuine) {asked : Option ℤ}
    (h : fromPool residues known settings asked extent supply = (.ok m, after)) :
    ∃ c : ℕ, 0 < c ∧ (requested settings asked).integer? = some (c : ℤ) ∧
      ∃ pool₁ pool₂ source₁ source₂ s,
        IsFromPool residues known c extent m pool₁ pool₂ source₁ source₂ s := by
  obtain ⟨c, hpos, hc, done, pool, source, hdrawn, h⟩ := fromPool_eq_settle h
  obtain ⟨hpool, -⟩ := PrimePool.drawn_of_drawUntil
    (PrimePool.isGenuine_empty 0 settings.allowance) hsource hdrawn
  exact ⟨c, hpos, hc, settle_eq_ok hpool.pool_genuine hpool.source_genuine h⟩

/-- However the lifting primes are chosen, the moduli are fit for the matrix. -/
theorem moduliFor_of_chooseModuli (hknown : AreInverses A known)
    (hsource : supply.source.IsGenuine) {choice : Choice}
    (h : chooseModuli (residuesOf A) known settings choice extent supply = (.ok m, after)) :
    ModuliFor A m.channels m.basis := by
  cases choice with
  | given primes => exact moduliFor_of_fromGiven hknown hsource h
  | smallest asked =>
    obtain ⟨c, hc, -, pool₁, pool₂, source₁, source₂, s, hpool⟩ := fromPool_eq_ok hsource h
    exact (hpool.moduliFor hknown hc).1

end Moduli

/-! ## The number of digits -/

/-- The search ends for every modulus from 2 up, and `leastExponent` is where it ends. -/
theorem climbs_leastExponent {P : ℕ} (hP : 2 ≤ P) (limit k : ℕ) :
    Climbs P limit k (leastExponent P limit k) := by
  fun_induction leastExponent P limit k with
  | case1 k hgo ih => exact .step hgo.2 ih
  | case2 k hstop => exact .stop (by omega)

/-- Numbers from 2 up, at least one, have a product from 2 up. -/
theorem two_le_foldl_mul {primes : List ℕ} (hne : primes ≠ []) (htwo : ∀ p ∈ primes, 2 ≤ p) :
    2 ≤ primes.foldl (· * ·) 1 := by
  obtain ⟨p, rest, rfl⟩ := List.exists_cons_of_ne_nil hne
  have hpos : 0 < (p :: rest).prod :=
    List.prod_pos fun q hq => (Nat.zero_lt_two).trans_le (htwo q hq)
  rw [← List.prod_eq_foldl]
  exact (htwo p List.mem_cons_self).trans (Nat.le_of_dvd hpos (List.dvd_prod List.mem_cons_self))

/-- There is a digit, and the digits reach past twice the product of both bounds. -/
theorem digitCount_spec {primes : List ℕ} (hP : 2 ≤ primes.foldl (· * ·) 1)
    (bound : SolutionBound) :
    2 * bound.numBound * bound.denBound < primes.foldl (· * ·) 1 ^ digitCount primes bound ∧
      1 ≤ digitCount primes bound := by
  have hclimbs := climbs_leastExponent hP (2 * bound.numBound * bound.denBound)
    (max 1 (Binary64.div bound.log (Binary64.log2Sum primes)).ceil).toNat
  exact ⟨hclimbs.lt_pow, le_trans (by omega) hclimbs.le⟩

/-! ## Selection -/

/-- How a plan is completed. -/
theorem complete_eq_ok {system : Profile n} {norm : ℕ} {bits : ℚ} {m : Moduli n} {plan : Plan n}
    (h : complete system norm bits m = .ok plan) :
    ∃ bound, SolutionBound.ofPartial system.matrix (system.right.map Vector.toList) = .ok bound ∧
      2 * (n * norm + 1) < m.basis.foldl (· * ·) 1 ∧
      plan = ⟨m.channels, m.basis, norm, bits, bound,
        digitCount (m.channels.map Channel.prime) bound, m.discarded⟩ := by
  unfold complete at h
  dsimp only at h
  split at h
  · cases h
  next hcovers =>
    obtain ⟨bound, hbound, h⟩ := Outcome.bind_eq_ok.1 h
    cases h
    exact ⟨bound, hbound, not_le.1 hcovers, rfl⟩

/-- The bits that a basis has to cover are those of the norm, the size and the rounded margin. -/
theorem eq_bitsFor_of_ofMargin {norm : ℕ} {margin : Number} {bits : ℚ}
    (h : Extent.ofMargin norm n margin = .ok (.bits bits)) :
    bits = Extent.bitsFor norm n (Binary64.round margin.value) := by
  unfold Extent.ofMargin at h
  split at h
  · cases h
  · cases h
  · dsimp only at h
    split at h
    · cases h
      rfl
    · cases h

/-- How a selection succeeds: all supplied inverses are admitted, the moduli are chosen for the bits
of the norm, the size and the margin, and the plan is completed. -/
theorem selectFor_eq_ok {system : Profile n} {settings : Settings} {choice : Choice}
    {supplied : List (ℤ × Nested)} {supply after : Supply} {plan : Plan n}
    (h : selectFor system settings choice supplied supply = (.ok plan, after)) :
    ∃ known bits m, admitAll system.residues supplied = .ok known ∧
      bits = Extent.bitsFor system.matrix.maxAbs n
        (Binary64.round settings.margin.toNumber.value) ∧
      chooseModuli system.residues known settings choice (.bits bits) supply = (.ok m, after) ∧
      complete system system.matrix.maxAbs bits m = .ok plan := by
  unfold selectFor at h
  dsimp only at h
  split at h
  · cases h
  · split at h
    · cases h
    next extent known hprepared =>
      obtain ⟨extent', hmargin, hprepared⟩ := Outcome.bind_eq_ok.1 hprepared
      obtain ⟨known', hadmitted, hprepared⟩ := Outcome.bind_eq_ok.1 hprepared
      cases hprepared
      split at h
      · cases h
      next m _ bits _ hchosen =>
        rw [Prod.mk.injEq] at h
        obtain ⟨hcomplete, rfl⟩ := h
        exact ⟨known, bits, m, hadmitted, eq_bitsFor_of_ofMargin hmargin, hchosen, hcomplete⟩
      · cases h

/-- A plan that is selected for a system of integers fits the system. -/
theorem isFor_of_selectFor {S : LinearSystem n} {settings : Settings} {choice : Choice}
    {supplied : List (ℤ × Nested)} {supply after : Supply} {plan : Plan n}
    (hsource : supply.source.IsGenuine)
    (h : selectFor S.profile settings choice supplied supply = (.ok plan, after)) :
    plan.IsFor S := by
  obtain ⟨known, bits, m, hadmitted, -, hchosen, hcomplete⟩ := selectFor_eq_ok h
  have hknown : AreInverses S.matrix known := areInverses_of_admitAll hadmitted
  obtain ⟨bound, hbound, hcovers, rfl⟩ := complete_eq_ok hcomplete
  exact ⟨moduliFor_of_chooseModuli hknown hsource hchosen, rfl, hcovers, hbound, rfl⟩

end Selection

namespace Plan.IsFor

variable {S : LinearSystem n} {plan : Plan n}

/-- The lifting primes are distinct primes. -/
theorem nodup (hplan : plan.IsFor S) : plan.primes.Nodup :=
  hplan.moduli.increasing.imp Nat.ne_of_lt

/-- Lifting primes are primes. -/
theorem prime_of_mem (hplan : plan.IsFor S) {p : ℕ} (hp : p ∈ plan.primes) : p.Prime := by
  obtain ⟨c, hc, rfl⟩ := List.mem_map.1 hp
  exact (hplan.moduli.channels_for c hc).prime

theorem two_le_modulus (hplan : plan.IsFor S) : 2 ≤ plan.modulus :=
  Selection.two_le_foldl_mul (fun h => hplan.moduli.nonempty (List.map_eq_nil_iff.1 h))
    fun _ hp => (hplan.prime_of_mem hp).two_le

theorem one_le_iterations (hplan : plan.IsFor S) : 1 ≤ plan.iterations := by
  rw [hplan.iterations_eq]
  exact (Selection.digitCount_spec hplan.two_le_modulus plan.bound).2

/-- The digits reach past twice the product of both bounds. -/
theorem lt_modulus_pow (hplan : plan.IsFor S) :
    2 * plan.bound.numBound * plan.bound.denBound < plan.modulus ^ plan.iterations := by
  rw [hplan.iterations_eq]
  exact (Selection.digitCount_spec hplan.two_le_modulus plan.bound).1

end Plan.IsFor
end PadicLift
