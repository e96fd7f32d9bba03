import PadicLift.Proofs.Bound
import PadicLift.Proofs.Modular.Inversion
import PadicLift.Proofs.Plan

/-!
# What a selection fails for

The stages that read the input or draw primes only refuse: the input is malformed, a prime is too
large, or no further prime comes (`Fault.IsRefusal`). A lifting prime fails for one reason, that it
divides the determinant (`Mat.IsUnlucky`). The bounds of a solution are the last thing that a
selection computes, and only for a matrix that has an inverse modulo a prime. Such a matrix has no
zero row and no zero column, so the bounds exist, and only a basis that is too small is left to fail
for.
-/

namespace PadicLift

variable {n : ℕ} {f : Fault}

/-! ## Determinants -/

/-- A prime with an inverse of the matrix does not divide the determinant. -/
theorem Channel.IsFor.not_dvd_det {A : Mat n n} {c : Channel n} (hc : c.IsFor A) :
    ¬ (c.prime : ℤ) ∣ A.toMatrix.det := by
  intro hdvd
  have hunit := hc.inverse.isCoprime_det.isUnit_of_dvd' hdvd dvd_rfl
  have hone := Int.isUnit_iff_natAbs_eq.1 hunit
  rw [Int.natAbs_natCast] at hone
  exact hc.prime.one_lt.ne' hone

/-- Only a nonsingular matrix has moduli that are fit for it. -/
theorem ModuliFor.det_ne_zero {A : Mat n n} {channels : List (Channel n)} {basis : List ℕ}
    (h : ModuliFor A channels basis) : A.toMatrix.det ≠ 0 := by
  obtain ⟨c, rest, hc⟩ := List.exists_cons_of_ne_nil h.nonempty
  have hndvd := (h.channels_for c (hc ▸ List.mem_cons_self)).not_dvd_det
  intro hzero
  rw [hzero] at hndvd
  exact hndvd (dvd_zero _)

/-- A prime that divides the determinant, with the dimension of the kernel modulo it. -/
structure Mat.IsUnlucky (A : Mat n n) (p k : ℕ) : Prop where
  prime : p.Prime
  dvd_det : (p : ℤ) ∣ A.toMatrix.det
  nullity_eq : k = n - (A.modulo p).rank
  nullity_pos : 0 < k

/-! ## Refusals -/

namespace Fault

/-- The input is out of its range, or of another kind or shape than asked for. -/
def IsMalformed : Fault → Prop
  | .argument (.modulusTooSmall _) => True
  | .argument .zeroMatrix => True
  | .argument (.wrongInverse _) => True
  | .argument .noLiftingPrimes => True
  | .argument (.liftingNotPrime _) => True
  | .argument (.primesCountTooSmall _) => True
  | .argument .undefinedInteger => True
  | .argument (.noInteger _ _) => True
  | .incompatibleShapes => True
  | .kindMismatch => True
  | .overflow => True
  | _ => False

/-- A prime is larger than the largest modulus. -/
def IsOversized : Fault → Prop
  | .lifting (.modulusTooLarge _) => True
  | _ => False

/-- No further prime comes. -/
def LacksPrimes : Fault → Prop
  | .lifting (.noNewPrime _ _) => True
  | .lifting (.listExhausted _) => True
  | .lifting (.noCandidate _ _) => True
  | _ => False

/-- The faults of the stages that read the input or draw primes. -/
def IsRefusal (f : Fault) : Prop := f.IsMalformed ∨ f.IsOversized ∨ f.LacksPrimes

/-- An unlucky prime is no refusal. -/
theorem not_isRefusal_singular (p k : ℕ) : ¬ (lifting (.singular p k)).IsRefusal := by
  rintro (h | h | h) <;> exact h

end Fault

/-- A modulus that is not admitted is refused. -/
theorem isRefusal_of_checkModulus {p : ℤ} (h : checkModulus p = .error f) : f.IsRefusal := by
  unfold checkModulus at h
  split at h
  · cases h
    exact .inl trivial
  · split at h <;> cases h
    exact .inr (.inl trivial)

/-! ## Drawing primes -/

/-- A source that fails refuses to go on. -/
theorem PrimeSource.isRefusal_of_next {source after : PrimeSource}
    (h : source.next = (.error f, after)) : f.IsRefusal := by
  unfold PrimeSource.next at h
  split at h
  · dsimp only at h
    split at h <;> cases h
    exact .inr (.inr trivial)
  · cases h
    exact .inr (.inr trivial)
  · cases h
  · cases h
    exact .inl trivial

namespace PrimePool

variable {pool pool' : PrimePool} {source after : PrimeSource}

/-- A draw fails for want of primes, or at an answer that is no modulus. -/
theorem DrawsTo.isRefusal (h : pool.DrawsTo source (.error f) pool' after) : f.IsRefusal := by
  generalize hresult : Except.error f = result at h
  induction h with
  | usedUp =>
    cases hresult
    exact .inr (.inr trivial)
  | fails hnext =>
    cases hresult
    exact PrimeSource.isRefusal_of_next hnext
  | refuses _ hmodulus =>
    cases hresult
    exact isRefusal_of_checkModulus hmodulus
  | takes => cases hresult
  | passes _ _ _ _ ih => exact ih hresult

/-- A pool that finds no new prime refuses. -/
theorem isRefusal_of_draw (h : pool.draw source = (.error f, pool', after)) : f.IsRefusal := by
  rcases drawsTo_of_draw h with hdraws | ⟨-, hresult, -⟩
  · exact hdraws.isRefusal
  · cases hresult
    exact .inl trivial

/-- A pool that cannot be filled has refused a draw. -/
theorem isRefusal_of_drawUntil {done : List ℕ → Bool}
    (h : pool.drawUntil done source = (.error f, pool', after)) : f.IsRefusal := by
  fun_induction drawUntil done pool source with
  | case1 => cases h
  | case2 pool source _ f pool' after hdraw =>
    cases h
    exact isRefusal_of_draw hdraw
  | case3 _ _ _ _ _ _ _ ih => exact ih h

/-- A pool that cannot be split has refused a draw. -/
theorem isRefusal_of_split {count : ℕ} {extent : Extent}
    (h : pool.split count extent source = (.error f, pool', after)) : f.IsRefusal := by
  rcases splitBy_eq_error h with hnear | ⟨middle, between, -, hcovers⟩
  · exact isRefusal_of_drawUntil hnear
  · exact isRefusal_of_drawUntil hcovers

end PrimePool

/-! ## Inverses -/

/-- Modulo a prime, elimination finds no inverse only where the prime is unlucky. -/
theorem Mat.isUnlucky_of_inverseMod {A : Mat n n} {p k : ℕ} (hp : p.Prime) (hmax : p ≤ maxModulus)
    (h : (A.reduce p).inverseMod p = .ok (.singular k)) : A.IsUnlucky p k := by
  have hnotInverse : ¬ ∃ B, (A.reduce p).inverseMod p = .ok (.inverse B) := by
    rintro ⟨B, hB⟩
    rw [h] at hB
    cases hB
  refine ⟨hp, ?_, ?_, ?_⟩
  · rwa [exists_inverseMod_eq_inverse_iff hp hmax, not_not] at hnotInverse
  · obtain ⟨o, ho, hnullity⟩ := exists_inverseMod hp hmax A
    rw [h] at ho
    cases ho
    exact hnullity
  · obtain ⟨s, -, h⟩ := Outcome.bind_eq_ok.1 h
    split at h
    next hlt =>
      cases h
      exact Nat.sub_pos_of_lt hlt
    next => cases h

namespace Selection

section Faults

variable {A : Mat n n} {known : Known n}

/-- A place that becomes no word is of another kind or out of range. -/
theorem isMalformed_of_toWords {x : Nested} (h : toWords x = .error f) : f.IsMalformed := by
  unfold toWords at h
  split at h
  · cases h
    trivial
  · obtain ⟨y, -, hfault⟩ := Outcome.exists_mem_of_mapM_eq_error h
    rcases Outcome.bind_eq_error.1 hfault with hinteger | ⟨v, -, hfault⟩
    · rcases Nested.integer_eq_error hinteger with rfl | rfl | rfl | ⟨shown, rfl⟩
      · trivial
      · trivial
      · trivial
      · trivial
    · split at hfault <;> cases hfault
      trivial

/-- A supplied inverse that is not admitted is refused. -/
theorem isRefusal_of_admitInverse {p : ℤ} {supplied : Nested}
    (h : admitInverse (residuesOf A) p supplied = .error f) : f.IsRefusal := by
  rcases Outcome.bind_eq_error.1 h with hmodulus | ⟨q, -, h⟩
  · exact isRefusal_of_checkModulus hmodulus
  rcases Outcome.bind_eq_error.1 h with hwords | ⟨words, -, h⟩
  · exact .inl (isMalformed_of_toWords hwords)
  rcases Outcome.bind_eq_error.1 h with hresidues | ⟨R, -, h⟩
  · cases hresidues
  dsimp only at h
  split at h
  · cases h
    exact .inl trivial
  · split at h <;> cases h
    exact .inl trivial

/-- Given primes that are not admitted are refused. -/
theorem isRefusal_of_admitPrimes {numbers : List ℤ} (h : admitPrimes numbers = .error f) :
    f.IsRefusal := by
  induction numbers with
  | nil => cases h
  | cons p rest ih =>
    rcases Outcome.bind_eq_error.1 h with hmodulus | ⟨q, -, h⟩
    · exact isRefusal_of_checkModulus hmodulus
    split at h
    · cases h
      exact .inl trivial
    · rcases Outcome.bind_eq_error.1 h with hrest | ⟨qs, -, h⟩
      · exact ih hrest
      · cases h

/-- A prime has no channel only if it divides the determinant. -/
theorem isUnlucky_of_channel {p : ℕ} (hp : p.Prime) (hmax : p ≤ maxModulus)
    (h : channel (residuesOf A) known p = .error f) :
    ∃ k, A.IsUnlucky p k ∧ f = .lifting (.singular p k) := by
  unfold channel at h
  split at h
  · cases h
  · rcases Outcome.bind_eq_error.1 h with hresidues | ⟨R, hR, h⟩
    · cases hresidues
    cases hR
    obtain ⟨o, ho, -⟩ := Mat.exists_inverseMod hp hmax A
    rw [ho] at h
    cases o with
    | inverse B => cases h
    | singular k =>
      cases h
      exact ⟨k, Mat.isUnlucky_of_inverseMod hp hmax ho, rfl⟩

/-- Channels fail for one of their primes. -/
theorem isUnlucky_of_channels {primes : List ℕ} (hprimes : ∀ p ∈ primes, p.Prime ∧ p ≤ maxModulus)
    (h : channels (residuesOf A) known primes = .error f) :
    ∃ p ∈ primes, ∃ k, A.IsUnlucky p k ∧ f = .lifting (.singular p k) := by
  obtain ⟨p, hp, h⟩ := Outcome.exists_mem_of_mapM_eq_error h
  exact ⟨p, hp, isUnlucky_of_channel (hprimes p hp).1 (hprimes p hp).2 h⟩

/-! ## Moduli -/

/-- The faults of a choice of moduli. -/
def IsChoiceFault (A : Mat n n) (f : Fault) : Prop :=
  f.IsRefusal ∨ ∃ p k, A.IsUnlucky p k ∧ f = .lifting (.singular p k)

/-- Of several primes one is unlucky, if there are no channels. -/
theorem isChoiceFault_of_channels {primes : List ℕ}
    (hprimes : ∀ p ∈ primes, p.Prime ∧ p ≤ maxModulus)
    (h : channels (residuesOf A) known primes = .error f) : IsChoiceFault A f := by
  obtain ⟨p, -, k, hunlucky, rfl⟩ := isUnlucky_of_channels hprimes h
  exact .inr ⟨p, k, hunlucky, rfl⟩

/-- Given primes fail by a refusal or by an unlucky prime. -/
theorem isChoiceFault_of_fromGiven {settings : Settings} {primes : List ℤ} {extent : Extent}
    {supply after : Supply}
    (h : fromGiven (residuesOf A) known settings primes extent supply = (.error f, after)) :
    IsChoiceFault A f := by
  unfold fromGiven at h
  dsimp only at h
  split at h
  next hprepared =>
    cases h
    split at hprepared
    · cases hprepared
      exact .inl (.inl trivial)
    · rcases Outcome.bind_eq_error.1 hprepared with hadmitted | ⟨qs, hqs, hchannels⟩
      · exact .inl (isRefusal_of_admitPrimes hadmitted)
      · exact isChoiceFault_of_channels (admitPrimes_eq_ok hqs).2 hchannels
  next =>
    split at h
    next hsplit =>
      cases h
      exact .inl (PrimePool.isRefusal_of_split hsplit)
    next => cases h

section Rounds

variable {allowed count retries : ℕ} {limit : String} {extent : Extent} {discarded : List ℕ}
  {pool pool₁ pool₂ : PrimePool} {source source₁ source₂ : PrimeSource} {supply after : Supply}
  {s : PrimePool.Split} {p q : ℕ} {result : Except Fault (Moduli n)}

/-- A lifting prime of a split comes from the pool. -/
theorem prime_of_mem_lifting (hpool : pool.IsGenuine) (hsource : source.IsGenuine)
    (hsplit : pool.split count extent source = (.ok s, pool₁, source₁)) :
    ∀ p ∈ s.lifting, p.Prime ∧ p ≤ maxModulus := by
  obtain ⟨hdrawn, -, hlifting, -⟩ := PrimePool.split_eq_ok hpool hsource hsplit
  intro p hp
  rw [hlifting] at hp
  have hmem := List.mem_of_mem_take hp
  exact ⟨(hdrawn.pool_genuine p hmem).1, pool₁.le_max p hmem⟩

/-- A round that is followed by another one: a lifting prime of a split is unlucky, and a new prime
is drawn in its place. -/
structure IsRetry (A : Mat n n) (count : ℕ) (extent : Extent) (pool : PrimePool)
    (source : PrimeSource) (p : ℕ) (pool₁ : PrimePool) (source₁ : PrimeSource) (pool₂ : PrimePool)
    (source₂ : PrimeSource) : Prop where
  split_eq : ∃ s, pool.split count extent source = (.ok s, pool₁, source₁) ∧ p ∈ s.lifting
  unlucky : ∃ k, A.IsUnlucky p k
  draw_eq : ∃ q, (pool₁.discard p).draw source₁ = (.ok q, pool₂, source₂)

/-- The last round: it refuses, or all lifting primes of a split have inverses, or one of them is
unlucky and no retry is left. -/
def IsLastRound (A : Mat n n) (known : Known n) (count : ℕ) (extent : Extent) (retries : ℕ)
    (discarded : List ℕ) (pool : PrimePool) (supply : Supply) (result : Except Fault (Moduli n))
    (after : Supply) : Prop :=
  (∃ f, result = .error f ∧ f.IsRefusal) ∨
  ∃ s pool₁ source₁, pool.split count extent supply.source = (.ok s, pool₁, source₁) ∧
    after = ⟨source₁, supply.replacements⟩ ∧
    ((∃ cs, channels (residuesOf A) known s.lifting = .ok cs ∧
      result = .ok ⟨cs, s.basis, discarded⟩) ∨
    ∃ p ∈ s.lifting, ∃ k, A.IsUnlucky p k ∧ retries = 0 ∧
      result = .error (.lifting (.singular p k)))

/-- A round is the last one, or another one follows. -/
theorem settle_cases (hpool : pool.IsGenuine) (hsource : supply.source.IsGenuine)
    (h : settle (residuesOf A) known allowed limit count extent retries discarded pool supply
      = (result, after)) :
    IsLastRound A known count extent retries discarded pool supply result after ∨
    ∃ left p pool₁ source₁ pool₂ source₂, retries = left + 1 ∧
      IsRetry A count extent pool supply.source p pool₁ source₁ pool₂ source₂ ∧
      settle (residuesOf A) known allowed limit count extent left (discarded ++ [p]) pool₂
        ⟨source₂, supply.replacements ++ [⟨p, allowed - left, limit⟩]⟩ = (result, after) := by
  -- The cases are those of the split, of the inverses, and of the draw for a replacement.
  unfold settle at h
  split at h
  next hsplit =>
    cases h
    exact .inl (.inl ⟨_, rfl, PrimePool.isRefusal_of_split hsplit⟩)
  next s pool₁ source₁ hsplit =>
    have hlifting := prime_of_mem_lifting hpool hsource hsplit
    split at h
    next cs hcs =>
      cases h
      exact .inl (.inr ⟨s, pool₁, source₁, hsplit, rfl, .inl ⟨cs, hcs, rfl⟩⟩)
    next p k left hchannels =>
      obtain ⟨p', hp', k', hunlucky, heq⟩ := isUnlucky_of_channels hlifting hchannels
      cases heq
      dsimp only at h
      split at h
      next hdraw =>
        cases h
        exact .inl (.inl ⟨_, rfl, PrimePool.isRefusal_of_draw hdraw⟩)
      next q pool₂ source₂ hdraw =>
        exact .inr ⟨left, p, pool₁, source₁, pool₂, source₂, rfl,
          ⟨⟨s, hsplit, hp'⟩, ⟨k, hunlucky⟩, ⟨q, hdraw⟩⟩, h⟩
    next f hchannels hnoRetry =>
      obtain ⟨p, hp, k, hunlucky, rfl⟩ := isUnlucky_of_channels hlifting hchannels
      cases h
      refine .inl (.inr ⟨s, pool₁, source₁, hsplit, rfl, .inr ⟨p, hp, k, hunlucky, ?_, rfl⟩⟩)
      by_contra hne
      obtain ⟨left, hleft⟩ := Nat.exists_eq_succ_of_ne_zero hne
      exact hnoRetry p k left hleft rfl

/-- A round leaves a genuine pool and a genuine source to the next one. -/
theorem IsRetry.genuine (h : IsRetry A count extent pool source p pool₁ source₁ pool₂ source₂)
    (hpool : pool.IsGenuine) (hsource : source.IsGenuine) :
    pool₂.IsGenuine ∧ source₂.IsGenuine := by
  obtain ⟨s, hsplit, -⟩ := h.split_eq
  obtain ⟨q, hdraw⟩ := h.draw_eq
  obtain ⟨hdrawn, -⟩ := PrimePool.split_eq_ok hpool hsource hsplit
  have hnext := PrimePool.drawn_of_draw (hdrawn.pool_genuine.discard p) hdrawn.source_genuine hdraw
  exact ⟨hnext.pool_genuine, hnext.source_genuine⟩

/-- What every retry keeps is true when the last round begins. -/
theorem exists_isLastRound (Inv : ℕ → List ℕ → PrimePool → Supply → Prop)
    (hstep : ∀ {retries discarded pool supply p pool₁ source₁ pool₂ source₂},
      Inv (retries + 1) discarded pool supply → pool.IsGenuine → supply.source.IsGenuine →
      IsRetry A count extent pool supply.source p pool₁ source₁ pool₂ source₂ →
      Inv retries (discarded ++ [p]) pool₂
        ⟨source₂, supply.replacements ++ [⟨p, allowed - retries, limit⟩]⟩)
    (hpool : pool.IsGenuine) (hsource : supply.source.IsGenuine)
    (hinv : Inv retries discarded pool supply)
    (h : settle (residuesOf A) known allowed limit count extent retries discarded pool supply
      = (result, after)) :
    ∃ retries' discarded' pool' supply', Inv retries' discarded' pool' supply' ∧
      pool'.IsGenuine ∧ supply'.source.IsGenuine ∧
      IsLastRound A known count extent retries' discarded' pool' supply' result after := by
  induction retries generalizing discarded pool supply with
  | zero =>
    rcases settle_cases hpool hsource h with hlast | ⟨left, p, _, _, _, _, hleft, -⟩
    · exact ⟨0, discarded, pool, supply, hinv, hpool, hsource, hlast⟩
    · cases hleft
  | succ retries ih =>
    rcases settle_cases hpool hsource h with
      hlast | ⟨left, p, pool₁, source₁, pool₂, source₂, hleft, hretry, h⟩
    · exact ⟨retries + 1, discarded, pool, supply, hinv, hpool, hsource, hlast⟩
    · cases hleft
      obtain ⟨hpool₂, hsource₂⟩ := hretry.genuine hpool hsource
      exact ih hpool₂ hsource₂ (hstep hinv hpool hsource hretry) h

/-- Replacements end by a refusal or with an unlucky prime. -/
theorem isChoiceFault_of_settle (hpool : pool.IsGenuine) (hsource : supply.source.IsGenuine)
    (h : settle (residuesOf A) known allowed limit count extent retries discarded pool supply
      = (.error f, after)) : IsChoiceFault A f := by
  obtain ⟨_, _, _, _, -, -, -, hlast⟩ :=
    exists_isLastRound (fun _ _ _ _ => True) (fun _ _ _ _ => trivial) hpool hsource trivial h
  rcases hlast with ⟨f', hf, hrefusal⟩ | ⟨s, pool₁, source₁, -, -, ⟨cs, -, hf⟩ |
    ⟨p, -, k, hunlucky, -, hf⟩⟩
  · cases hf
    exact .inl hrefusal
  · cases hf
  · cases hf
    exact .inr ⟨p, k, hunlucky, rfl⟩

end Rounds

/-- What cannot be shared among primes is boundless, and so refused. -/
theorem isRefusal_of_share {extent : Extent} {source : PrimeSource}
    (hextent : ∀ f, extent = .boundless f → f.IsMalformed)
    (h : extent.share source = .error f) : f.IsRefusal := by
  unfold Extent.share at h
  split at h
  · cases h
  · cases h
    exact .inl (hextent _ rfl)

/-- Filling the pool refuses, or the rounds begin with the primes drawn so far. -/
theorem fromPool_cases {settings : Settings} {asked : Option ℤ} {extent : Extent}
    {supply after : Supply} {result : Except Fault (Moduli n)}
    (hextent : ∀ f, extent = .boundless f → f.IsMalformed)
    (h : fromPool (residuesOf A) known settings asked extent supply = (result, after)) :
    (∃ f, result = .error f ∧ f.IsRefusal) ∨
    ∃ (done : List ℕ → Bool) (count : ℕ) (pool : PrimePool) (source : PrimeSource),
      (PrimePool.empty 0 settings.allowance).drawUntil done supply.source = (.ok (), pool, source) ∧
      settle (residuesOf A) known settings.retries settings.maxRetries.text count extent
        settings.retries [] pool ⟨source, supply.replacements⟩ = (result, after) := by
  unfold fromPool at h
  dsimp only at h
  generalize (if asked.getD 0 = 0 then settings.primesCount else .ofInt (asked.getD 0)) = count at h
  split at h
  · cases h
    exact .inl ⟨_, rfl, .inl trivial⟩
  · split at h
    next hshare =>
      cases h
      exact .inl ⟨_, rfl, isRefusal_of_share hextent hshare⟩
    next =>
      split at h
      next hdrawn =>
        cases h
        exact .inl ⟨_, rfl, PrimePool.isRefusal_of_drawUntil hdrawn⟩
      · cases h
        exact .inl ⟨_, rfl, .inl trivial⟩
      next hdrawn _ => exact .inr ⟨_, _, _, _, hdrawn, h⟩

/-- A pool fails by a refusal or with an unlucky prime. -/
theorem isChoiceFault_of_fromPool {settings : Settings} {asked : Option ℤ} {extent : Extent}
    {supply after : Supply} (hsource : supply.source.IsGenuine)
    (hextent : ∀ f, extent = .boundless f → f.IsMalformed)
    (h : fromPool (residuesOf A) known settings asked extent supply = (.error f, after)) :
    IsChoiceFault A f := by
  rcases fromPool_cases hextent h with ⟨f', hf, hrefusal⟩ | ⟨done, count, pool, source, hdrawn, h⟩
  · cases hf
    exact .inl hrefusal
  · obtain ⟨hpool, -⟩ := PrimePool.drawn_of_drawUntil
      (PrimePool.isGenuine_empty 0 settings.allowance) hsource hdrawn
    exact isChoiceFault_of_settle hpool.pool_genuine hpool.source_genuine h

/-- However the lifting primes are chosen, it fails by a refusal or with an unlucky prime. -/
theorem isChoiceFault_of_chooseModuli {settings : Settings} {choice : Choice} {extent : Extent}
    {supply after : Supply} (hsource : supply.source.IsGenuine)
    (hextent : ∀ f, extent = .boundless f → f.IsMalformed)
    (h : chooseModuli (residuesOf A) known settings choice extent supply = (.error f, after)) :
    IsChoiceFault A f := by
  cases choice with
  | given primes => exact isChoiceFault_of_fromGiven h
  | smallest asked => exact isChoiceFault_of_fromPool hsource hextent h

end Faults

/-! ## Selection -/

/-- A margin that is infinite, undefined or too large for a double is malformed. -/
theorem isMalformed_of_ofMargin {norm : ℕ} {margin : Number}
    (h : Extent.ofMargin norm n margin = .error f ∨
      Extent.ofMargin norm n margin = .ok (.boundless f)) : f.IsMalformed := by
  unfold Extent.ofMargin at h
  split at h
  · rcases h with h | h <;> cases h
    trivial
  · rcases h with h | h <;> cases h
    trivial
  · dsimp only at h
    split at h
    · rcases h with h | h <;> cases h
    · rcases h with h | h <;> cases h
      trivial

/-- A nonsingular matrix has bounds, so only the basis can be at fault, or the right side. -/
theorem complete_eq_error {P : Profile n} (hdet : P.matrix.toMatrix.det ≠ 0) {norm : ℕ} {bits : ℚ}
    {m : Moduli n} (h : complete P norm bits m = .error f) :
    (m.basis.foldl (· * ·) 1 ≤ 2 * (n * norm + 1) ∧
      f = .lifting (.basisTooSmall (Binary64.log2Nat (m.basis.foldl (· * ·) 1))
        (n * norm + 1))) ∨ P.right = .error f := by
  unfold complete at h
  dsimp only at h
  split at h
  next hsmall =>
    cases h
    exact .inl ⟨hsmall, rfl⟩
  · refine .inr ?_
    rcases Outcome.bind_eq_error.1 h with hbound | ⟨bound, -, h⟩
    · obtain ⟨bound, hok, -⟩ := SolutionBound.ofSystem_eq_ok hdet (Vector.replicate n 0)
      obtain ⟨hadamard, hhadamard, -⟩ := Outcome.bind_eq_ok.1 hok
      rcases Outcome.bind_eq_error.1 hbound with hbound | ⟨hadamard', -, hbound⟩
      · rw [hhadamard] at hbound
        cases hbound
      · rcases Outcome.bind_eq_error.1 hbound with hright | ⟨right, -, hbound⟩
        · exact Outcome.map_eq_error.1 hright
        · cases hbound
    · cases h

/-- How a selection fails: its input is refused, or no moduli can be chosen, or the chosen basis is
too small for the corrections. -/
theorem selectFor_eq_error {S : LinearSystem n} {settings : Settings} {choice : Choice}
    {supplied : List (ℤ × Nested)} {supply after : Supply} (hsource : supply.source.IsGenuine)
    (h : selectFor S.profile settings choice supplied supply = (.error f, after)) :
    f.IsRefusal ∨ S.matrix.maxAbs ≠ 0 ∧ ∃ extent known, AreInverses S.matrix known ∧
      Extent.ofMargin S.matrix.maxAbs n settings.margin.toNumber = .ok extent ∧
      (chooseModuli (residuesOf S.matrix) known settings choice extent supply = (.error f, after) ∨
      ∃ m bits, extent = .bits bits ∧
        chooseModuli (residuesOf S.matrix) known settings choice extent supply = (.ok m, after) ∧
        m.basis.foldl (· * ·) 1 ≤ 2 * (n * S.matrix.maxAbs + 1) ∧
        f = .lifting (.basisTooSmall (Binary64.log2Nat (m.basis.foldl (· * ·) 1))
          (n * S.matrix.maxAbs + 1))) := by
  unfold selectFor at h
  dsimp only at h
  split at h
  · cases h
    exact .inl (.inl trivial)
  -- The checks in front of the choice refuse; the choice and what follows it fail on their own.
  rename_i hnorm
  split at h
  next hprepared =>
    cases h
    rcases Outcome.bind_eq_error.1 hprepared with hmargin | ⟨extent, -, hprepared⟩
    · exact .inl (.inl (isMalformed_of_ofMargin (.inl hmargin)))
    rcases Outcome.bind_eq_error.1 hprepared with hadmitted | ⟨known, -, hprepared⟩
    · obtain ⟨e, -, he⟩ := Outcome.exists_mem_of_mapM_eq_error hadmitted
      exact .inl (isRefusal_of_admitInverse he)
    · cases hprepared
  next extent known hprepared =>
    obtain ⟨extent', hmargin, hprepared⟩ := Outcome.bind_eq_ok.1 hprepared
    obtain ⟨known', hadmitted, hprepared⟩ := Outcome.bind_eq_ok.1 hprepared
    cases hprepared
    have hknown : AreInverses S.matrix known := areInverses_of_admitAll hadmitted
    split at h
    next hchosen =>
      cases h
      exact .inr ⟨hnorm, _, known, hknown, hmargin, .inl hchosen⟩
    next m _ bits _ hchosen =>
      rw [Prod.mk.injEq] at h
      obtain ⟨hcomplete, rfl⟩ := h
      have hdet : S.matrix.toMatrix.det ≠ 0 :=
        (moduliFor_of_chooseModuli hknown hsource hchosen).det_ne_zero
      rcases complete_eq_error (P := S.profile) hdet hcomplete with ⟨hsmall, rfl⟩ | hright
      · exact .inr ⟨hnorm, _, known, hknown, hmargin, .inr ⟨m, bits, rfl, hchosen, hsmall, rfl⟩⟩
      · cases hright
    next =>
      cases h
      exact .inl (.inl (isMalformed_of_ofMargin (.inr hmargin)))

/-- No selection for a system of integers has the fault of a zero row or column. -/
theorem ne_zeroLine_of_selectFor {S : LinearSystem n} {settings : Settings} {choice : Choice}
    {supplied : List (ℤ × Nested)} {supply after : Supply} (hsource : supply.source.IsGenuine)
    (h : selectFor S.profile settings choice supplied supply = (.error f, after)) :
    f ≠ .argument .zeroRowOrColumn := by
  have hrefusal : ¬ (Fault.argument .zeroRowOrColumn).IsRefusal := by
    rintro (h | h | h) <;> exact h
  rintro rfl
  rcases selectFor_eq_error hsource h with
    hrefused | ⟨-, extent, known, -, hmargin, hchosen | hsmall⟩
  · exact hrefusal hrefused
  · have hextent : ∀ f, extent = .boundless f → f.IsMalformed := fun f hf =>
      isMalformed_of_ofMargin (.inr (hf ▸ hmargin))
    rcases isChoiceFault_of_chooseModuli hsource hextent hchosen with hrefused' | ⟨p, k, -, hf⟩
    · exact hrefusal hrefused'
    · cases hf
  · obtain ⟨m, bits, -, -, -, hf⟩ := hsmall
    cases hf

end Selection

/-! ## Systems -/

namespace SomePlan

variable {a b : Nested} {settings : Settings} {choice : Selection.Choice}
  {supplied : List (ℤ × Nested)} {supply after : Supply}

/-- Nested lists that are no system are refused before anything is selected. -/
theorem select_eq_error_of_read (hread : SomeSystem.read a b = .error f) (settings : Settings)
    (choice : Selection.Choice) (supplied : List (ℤ × Nested)) (supply : Supply) :
    SomePlan.select a b settings choice supplied supply = (.error f, supply) := by
  unfold SomePlan.select
  rw [hread]

section Read

variable {S : SomeSystem} (hread : SomeSystem.read a b = .ok S)
include hread

/-- The selection for nested lists is that for the system read from them. -/
theorem select_eq_of_read (settings : Settings) (choice : Selection.Choice)
    (supplied : List (ℤ × Nested)) (supply : Supply) :
    SomePlan.select a b settings choice supplied supply
      = ((Selection.selectFor S.profile settings choice supplied supply).1.map fun p => ⟨S.size, p⟩,
        (Selection.selectFor S.profile settings choice supplied supply).2) := by
  unfold SomePlan.select
  rw [hread]

theorem selectFor_eq_error_of_read
    (h : SomePlan.select a b settings choice supplied supply = (.error f, after)) :
    Selection.selectFor S.profile settings choice supplied supply = (.error f, after) := by
  rw [select_eq_of_read hread, Prod.mk.injEq] at h
  exact Prod.ext (Outcome.map_eq_error.1 h.1) h.2

/-- A plan that is returned for nested lists is one for the system read from them. -/
theorem selectFor_eq_ok_of_read {P : SomePlan}
    (h : SomePlan.select a b settings choice supplied supply = (.ok P, after)) :
    ∃ plan : Plan S.size, P = ⟨S.size, plan⟩ ∧
      Selection.selectFor S.profile settings choice supplied supply = (.ok plan, after) := by
  rw [select_eq_of_read hread, Prod.mk.injEq] at h
  obtain ⟨plan, hplan, rfl⟩ := Outcome.map_eq_ok.1 h.1
  exact ⟨plan, rfl, Prod.ext hplan h.2⟩

end Read

section Integers

variable {S : LinearSystem n} (hread : SomeSystem.read a b = .ok (.ofLinear S))
include hread

/-- The selection for the rows of a system of integers is that for the system. -/
theorem select_of_read (settings : Settings) (choice : Selection.Choice)
    (supplied : List (ℤ × Nested)) (supply : Supply) :
    SomePlan.select a b settings choice supplied supply
      = ((Selection.selectFor S.profile settings choice supplied supply).1.map fun p => ⟨n, p⟩,
        (Selection.selectFor S.profile settings choice supplied supply).2) :=
  select_eq_of_read hread settings choice supplied supply

/-- It fails as the selection for the system does. -/
theorem selectFor_of_select_eq_error
    (h : SomePlan.select a b settings choice supplied supply = (.error f, after)) :
    Selection.selectFor S.profile settings choice supplied supply = (.error f, after) :=
  selectFor_eq_error_of_read hread h

/-- It returns what the selection for the system does. -/
theorem selectFor_of_select_eq_ok {P : SomePlan}
    (h : SomePlan.select a b settings choice supplied supply = (.ok P, after)) :
    ∃ plan : Plan n, P = ⟨n, plan⟩ ∧
      Selection.selectFor S.profile settings choice supplied supply = (.ok plan, after) :=
  selectFor_eq_ok_of_read hread h

end Integers

end SomePlan
end PadicLift
