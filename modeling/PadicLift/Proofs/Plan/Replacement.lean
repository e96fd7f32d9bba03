import PadicLift.Proofs.Plan.WellFormed
import PadicLift.Proofs.Prime.Draws

/-!
# Replaced primes

A round of `settle` discards a prime only if it divides the determinant, and then goes on with one
new prime. What is true between two rounds (`IsReplaced`): the pool has all primes that the source
has handed out, except for the discarded ones, which never come back, and there is one notice for
each of them. The retries that are left and the discarded primes make up the retries allowed, so a
selection that fails for an unlucky prime has used all of them.
-/

namespace PadicLift

variable {n : ℕ}

/-- The notices about discarded primes, numbered from 1. -/
def noticesFor (limit : String) (discarded : List ℕ) : List Replacement :=
  discarded.zipIdx.map fun x => ⟨x.1, x.2 + 1, limit⟩

theorem noticesFor_concat (limit : String) (discarded : List ℕ) (p : ℕ) :
    noticesFor limit (discarded ++ [p])
      = noticesFor limit discarded ++ [⟨p, discarded.length + 1, limit⟩] := by
  simp [noticesFor, List.zipIdx_append]

namespace Selection

/-! ## Between two rounds -/

/-- What discarding primes has led to: from the supply `start` on, the source has handed out
`handed`. -/
structure IsReplaced (A : Mat n n) (limit : String) (start : Supply) (handed discarded : List ℕ)
    (pool : PrimePool) (supply : Supply) : Prop where
  hands_out : start.source.HandsOut handed supply.source
  two_le : ∀ q ∈ handed, 2 ≤ q
  floor_eq : pool.floor = 0
  mem_iff : ∀ q, q ∈ pool.primes ↔ q ∈ handed ∧ q ∉ discarded
  excluded_iff : ∀ q, q ∈ pool.excluded ↔ q ∈ discarded
  replacements_eq : supply.replacements = start.replacements ++ noticesFor limit discarded
  nodup : discarded.Nodup
  dvd_det : ∀ p ∈ discarded, (p : ℤ) ∣ A.toMatrix.det

section Rounds

variable {A : Mat n n} {limit : String} {start supply after : Supply}
  {handed later discarded : List ℕ} {pool pool' : PrimePool} {source source' : PrimeSource}

/-- Before the first draw nothing has been replaced. -/
theorem isReplaced_empty (A : Mat n n) (limit : String) (start : Supply) (allowance : Allowance) :
    IsReplaced A limit start [] [] (.empty 0 allowance) start :=
  ⟨rfl, by simp, rfl, by simp, by simp, by simp [noticesFor], .nil, by simp⟩

/-- Further draws. -/
theorem IsReplaced.took (h : IsReplaced A limit start handed discarded pool supply)
    (htook : pool.Took supply.source later pool' source') :
    IsReplaced A limit start (handed ++ later) discarded pool' ⟨source', supply.replacements⟩ := by
  refine ⟨h.hands_out.append htook.hands_out, ?_, htook.floor_eq.trans h.floor_eq, fun q => ?_,
    fun q => ?_, h.replacements_eq, h.nodup, h.dvd_det⟩
  · rw [List.forall_mem_append]
    exact ⟨h.two_le, htook.two_le⟩
  · rw [htook.mem_iff, h.mem_iff, h.floor_eq, h.excluded_iff, List.mem_append]
    constructor
    · rintro (⟨hq, hkept⟩ | ⟨hq, -, hkept⟩)
      · exact ⟨.inl hq, hkept⟩
      · exact ⟨.inr hq, hkept⟩
    · rintro ⟨hq | hq, hkept⟩
      · exact .inl ⟨hq, hkept⟩
      · have htwo := htook.two_le q hq
        exact .inr ⟨hq, by omega, hkept⟩
  · rw [htook.excluded_eq, h.excluded_iff]

/-- One more prime is discarded. -/
theorem IsReplaced.discard {p : ℕ} (h : IsReplaced A limit start handed discarded pool supply)
    (hp : p ∈ pool.primes) (hdvd : (p : ℤ) ∣ A.toMatrix.det) :
    IsReplaced A limit start handed (discarded ++ [p]) (pool.discard p)
      ⟨supply.source, supply.replacements ++ [⟨p, discarded.length + 1, limit⟩]⟩ := by
  refine ⟨h.hands_out, h.two_le, h.floor_eq, fun q => ?_, fun q => ?_, ?_, ?_, ?_⟩
  · rw [PrimePool.mem_discard, h.mem_iff, List.mem_append, List.mem_singleton]
    tauto
  · show q ∈ p :: pool.excluded ↔ _
    rw [List.mem_cons, h.excluded_iff, List.mem_append, List.mem_singleton, or_comm]
  · show supply.replacements ++ _ = _
    rw [h.replacements_eq, noticesFor_concat, List.append_assoc]
  · rw [List.nodup_append]
    refine ⟨h.nodup, List.nodup_singleton p, fun q hq r hr => ?_⟩
    rw [List.mem_singleton.1 hr]
    rintro rfl
    exact ((h.mem_iff q).1 hp).2 hq
  · rw [List.forall_mem_append]
    exact ⟨h.dvd_det, by simpa using hdvd⟩

/-- A retry discards its unlucky prime; until then it was a member. -/
theorem IsReplaced.retry {count allowed retries p : ℕ} {extent : Extent}
    {pool₁ pool₂ : PrimePool} {source₁ source₂ : PrimeSource}
    (h : IsReplaced A limit start handed discarded pool supply)
    (hallowed : allowed = discarded.length + (retries + 1)) (hpool : pool.IsGenuine)
    (hsource : supply.source.IsGenuine)
    (hretry : IsRetry A count extent pool supply.source p pool₁ source₁ pool₂ source₂) :
    ∃ later, IsReplaced A limit start (handed ++ later) (discarded ++ [p]) pool₂
      ⟨source₂, supply.replacements ++ [⟨p, allowed - retries, limit⟩]⟩ := by
  obtain ⟨s, hsplit, hp⟩ := hretry.split_eq
  obtain ⟨k, hunlucky⟩ := hretry.unlucky
  obtain ⟨q, hdraw⟩ := hretry.draw_eq
  obtain ⟨first, hfirst⟩ := PrimePool.took_of_split hsplit
  obtain ⟨second, hsecond⟩ := PrimePool.took_of_draw hdraw
  obtain ⟨-, -, hlifting, -⟩ := PrimePool.split_eq_ok hpool hsource hsplit
  rw [hlifting] at hp
  have hnumber : allowed - retries = discarded.length + 1 := by omega
  refine ⟨first ++ second, ?_⟩
  rw [hnumber, ← List.append_assoc]
  exact ((h.took hfirst).discard (List.mem_of_mem_take hp) hunlucky.dvd_det).took hsecond

/-! ## All rounds -/

/-- How the rounds end, if they do not end in a refusal: with inverses for the smallest primes of
the pool, or at an unlucky one among them when all retries are used. -/
def HasSettled (A : Mat n n) (limit : String) (allowed : ℕ) (start after : Supply)
    (result : Except Fault (Moduli n)) : Prop :=
  (∃ f, result = .error f ∧ f.IsRefusal) ∨
  ∃ handed discarded pool, IsReplaced A limit start handed discarded pool after ∧
    ((∃ cs basis, result = .ok ⟨cs, basis, discarded⟩ ∧ discarded.length ≤ allowed ∧
      cs.map Channel.prime = pool.primes.take cs.length ∧
      basis <+: pool.primes.drop cs.length) ∨
    ∃ p ∈ pool.primes, ∃ k, A.IsUnlucky p k ∧ result = .error (.lifting (.singular p k)) ∧
      discarded.length = allowed)

/-- The rounds end in one of these ways, after replacing one unlucky prime in each of them but the
last. -/
theorem hasSettled_of_settle {known : Known n} (hknown : AreInverses A known) {allowed count : ℕ}
    {extent : Extent} {result : Except Fault (Moduli n)} (hpool : pool.IsGenuine)
    (hsource : supply.source.IsGenuine)
    (hreplaced : IsReplaced A limit start handed [] pool supply)
    (h : settle (residuesOf A) known allowed limit count extent allowed [] pool supply
      = (result, after)) : HasSettled A limit allowed start after result := by
  -- The primes discarded and the retries left add up to the retries allowed.
  obtain ⟨retries, discarded, pool₁, supply₁, ⟨handed₁, hinv, hallowed⟩, hpool₁, hsource₁, hlast⟩ :=
    exists_isLastRound (fun retries discarded pool supply => ∃ handed,
        IsReplaced A limit start handed discarded pool supply ∧
          allowed = discarded.length + retries)
      (by
        rintro retries discarded pool supply p _ _ _ _ ⟨handed, hround, hallowed⟩ hpool hsource
          hretry
        obtain ⟨later, hnext⟩ := hround.retry hallowed hpool hsource hretry
        refine ⟨handed ++ later, hnext, ?_⟩
        rw [List.length_append, List.length_singleton]
        omega)
      hpool hsource ⟨handed, hreplaced, by simp⟩ h
  rcases hlast with hrefused | ⟨s, pool₂, source₂, hsplit, rfl, hend⟩
  · exact .inl hrefused
  obtain ⟨later, htook⟩ := PrimePool.took_of_split hsplit
  obtain ⟨-, hcount, hlifting, hbasis⟩ := PrimePool.split_eq_ok hpool₁ hsource₁ hsplit
  refine .inr ⟨handed₁ ++ later, discarded, pool₂, hinv.took htook, ?_⟩
  rcases hend with ⟨cs, hcs, hresult⟩ | ⟨p, hp, k, hunlucky, hzero, hresult⟩
  · obtain ⟨hprimes, -⟩ := channels_eq_ok hknown (prime_of_mem_lifting hpool₁ hsource₁ hsplit) hcs
    have hlength : cs.length = count := by
      rw [← List.length_map Channel.prime, hprimes, hlifting, List.length_take,
        min_eq_left hcount.le]
    rw [← hlength] at hlifting hbasis
    exact .inl ⟨cs, s.basis, hresult, by omega, hprimes.trans hlifting, hbasis⟩
  · rw [hlifting] at hp
    exact .inr ⟨p, List.mem_of_mem_take hp, k, hunlucky, hresult, by omega⟩

/-- So does the choice from a pool, which begins with its first draws. -/
theorem hasSettled_of_fromPool {known : Known n} (hknown : AreInverses A known)
    {settings : Settings} {asked : Option ℤ} {extent : Extent} {result : Except Fault (Moduli n)}
    (hsource : supply.source.IsGenuine) (hextent : ∀ f, extent = .boundless f → f.IsMalformed)
    (h : fromPool (residuesOf A) known settings asked extent supply = (result, after)) :
    HasSettled A settings.maxRetries.text settings.retries supply after result := by
  rcases fromPool_cases hextent h with hrefused | ⟨done, count, pool, source, hfilled, h⟩
  · exact .inl hrefused
  · obtain ⟨hdrawn, -⟩ := PrimePool.drawn_of_drawUntil
      (PrimePool.isGenuine_empty 0 settings.allowance) hsource hfilled
    obtain ⟨handed, htook⟩ := PrimePool.took_of_drawUntil hfilled
    have hempty := isReplaced_empty A settings.maxRetries.text supply settings.allowance
    exact hasSettled_of_settle hknown hdrawn.pool_genuine hdrawn.source_genuine
      (hempty.took htook) h

end Rounds

end Selection

/-! ## Plans -/

/-- An integer limit allows as many retries. -/
theorem Settings.retries_eq (settings : Settings) {limit : ℤ}
    (h : settings.maxRetries.integer? = some limit) : settings.retries = limit.toNat := by
  unfold Quantity.integer? at h
  split at h
  next v hv =>
    cases h
    simp [Settings.retries, hv, Number.value]
  next => cases h

/-- What the discarded primes of a plan are, when the lifting primes were not given. -/
structure Plan.Replaces (A : Mat n n) (settings : Settings) (supply after : Supply)
    (plan : Plan n) : Prop where
  nodup : plan.discarded.Nodup
  dvd_det : ∀ p ∈ plan.discarded, (p : ℤ) ∣ A.toMatrix.det
  not_mem : ∀ p ∈ plan.discarded, p ∉ plan.primes ∧ p ∉ plan.basis
  length_le : plan.discarded.length ≤ settings.retries
  replacements_eq : after.replacements
    = supply.replacements ++ noticesFor settings.maxRetries.text plan.discarded
  /-- The last pool holds what was handed out and not discarded; the lifting primes are the smallest
  of these primes, and the basis begins behind them. -/
  from_pool : ∃ handed pool : List ℕ, supply.source.HandsOut handed after.source ∧
    pool.Pairwise (· < ·) ∧ (∀ q, q ∈ pool ↔ q ∈ handed ∧ q ∉ plan.discarded) ∧
    plan.primes = pool.take plan.primes.length ∧ plan.basis <+: pool.drop plan.primes.length

/-- What an unlucky prime says that a selection fails for. -/
structure Mat.RunsOut (A : Mat n n) (settings : Settings) (supply after : Supply) (p k : ℕ) :
    Prop where
  unlucky : A.IsUnlucky p k
  /-- All retries have been used for other primes. -/
  exhausted : ∃ discarded : List ℕ, discarded.length = settings.retries ∧ discarded.Nodup ∧
    (∀ q ∈ discarded, (q : ℤ) ∣ A.toMatrix.det) ∧ p ∉ discarded ∧
    after.replacements
      = supply.replacements ++ noticesFor settings.maxRetries.text discarded

namespace Selection

section Plans

variable {S : LinearSystem n} {settings : Settings} {asked : Option ℤ}
  {supplied : List (ℤ × Nested)} {supply after : Supply}

/-- A plan tells which primes were replaced, and the notices tell the same. -/
theorem replaces_of_selectFor (hsource : supply.source.IsGenuine) {plan : Plan n}
    (h : selectFor S.profile settings (.smallest asked) supplied supply = (.ok plan, after)) :
    plan.Replaces S.matrix settings supply after := by
  obtain ⟨known, bits, m, hadmitted, -, hchosen, hcomplete⟩ := selectFor_eq_ok h
  obtain ⟨bound, -, -, rfl⟩ := complete_eq_ok hcomplete
  have hchosen : fromPool (residuesOf S.matrix) known settings asked (.bits bits) supply
      = (.ok m, after) := hchosen
  have hextent : ∀ f, Extent.bits bits = .boundless f → f.IsMalformed := by
    intro f hf
    cases hf
  rcases hasSettled_of_fromPool (areInverses_of_admitAll hadmitted) hsource hextent hchosen with
    ⟨f, hf, -⟩ | ⟨handed, discarded, pool, hreplaced, ⟨cs, basis, hm, hlength, hprimes, hbasis⟩ |
      ⟨p, -, k, -, hf, -⟩⟩
  · cases hf
  · cases hm
    -- A prime of the plan is in the last pool, and no discarded prime is.
    have hlengthPrimes : (cs.map Channel.prime).length = cs.length := List.length_map _
    refine ⟨hreplaced.nodup, hreplaced.dvd_det, fun p hp => ⟨fun hmem => ?_, fun hmem => ?_⟩,
      hlength, hreplaced.replacements_eq, handed, pool.primes, hreplaced.hands_out,
      pool.increasing, hreplaced.mem_iff, ?_, ?_⟩
    · have hlifting : p ∈ cs.map Channel.prime := hmem
      rw [hprimes] at hlifting
      exact ((hreplaced.mem_iff p).1 (List.mem_of_mem_take hlifting)).2 hp
    · have hpool : p ∈ pool.primes := List.mem_of_mem_drop (hbasis.subset hmem)
      exact ((hreplaced.mem_iff p).1 hpool).2 hp
    · show cs.map Channel.prime = pool.primes.take (cs.map Channel.prime).length
      rw [hlengthPrimes, hprimes]
    · show basis <+: pool.primes.drop (cs.map Channel.prime).length
      rw [hlengthPrimes]
      exact hbasis
  · cases hf

/-- A selection that ends with an unlucky prime has used all of its replacements. -/
theorem runsOut_of_selectFor (hsource : supply.source.IsGenuine) {p k : ℕ}
    (h : selectFor S.profile settings (.smallest asked) supplied supply
      = (.error (.lifting (.singular p k)), after)) :
    S.matrix.RunsOut settings supply after p k := by
  rcases selectFor_eq_error hsource h with
    hrefused | ⟨-, extent, known, hknown, hmargin, hchosen | ⟨m, bits, -, -, -, hf⟩⟩
  · exact absurd hrefused (Fault.not_isRefusal_singular p k)
  · have hextent : ∀ f, extent = .boundless f → f.IsMalformed := fun f hf =>
      isMalformed_of_ofMargin (.inr (hf ▸ hmargin))
    rcases hasSettled_of_fromPool hknown hsource hextent hchosen with
      ⟨f, hf, hrefused⟩ | ⟨handed, discarded, pool, hreplaced, ⟨cs, basis, hm, -⟩ |
        ⟨q, hq, k', hunlucky, hf, hlength⟩⟩
    · cases hf
      exact absurd hrefused (Fault.not_isRefusal_singular p k)
    · cases hm
    · cases hf
      exact ⟨hunlucky, discarded, hlength, hreplaced.nodup, hreplaced.dvd_det,
        ((hreplaced.mem_iff p).1 hq).2, hreplaced.replacements_eq⟩
  · cases hf

end Plans

end Selection

/-! ## Systems -/

namespace SomePlan

variable {a b : Nested} {S : LinearSystem n}

/-- What is replaced in a selection for a system of integers whose lifting primes are not given:
only primes that divide the determinant, as many as there are notices and never more than the
retries allowed. If the selection fails for an unlucky prime, all retries have been used. A singular
matrix never has a plan. -/
theorem replaces_of_select (hread : SomeSystem.read a b = .ok (.ofLinear S)) (settings : Settings)
    (asked : Option ℤ) (supplied : List (ℤ × Nested)) (supply : Supply)
    (hsource : supply.source.IsGenuine) :
    (∀ P after, SomePlan.select a b settings (.smallest asked) supplied supply = (.ok P, after) →
      ∃ plan : Plan n, P = ⟨n, plan⟩ ∧ plan.Replaces S.matrix settings supply after) ∧
    (∀ p k after, SomePlan.select a b settings (.smallest asked) supplied supply
        = (.error (.lifting (.singular p k)), after) →
      S.matrix.RunsOut settings supply after p k) ∧
    (S.matrix.toMatrix.det = 0 → ∃ f after,
      SomePlan.select a b settings (.smallest asked) supplied supply = (.error f, after)) ∧
    ∀ limit, settings.maxRetries.integer? = some limit → settings.retries = limit.toNat := by
  refine ⟨fun P after hP => ?_, fun p k after hfault => ?_, fun hdet => ?_,
    fun limit => settings.retries_eq⟩
  · obtain ⟨plan, rfl, hplan⟩ := selectFor_of_select_eq_ok hread hP
    exact ⟨plan, rfl, Selection.replaces_of_selectFor hsource hplan⟩
  · exact Selection.runsOut_of_selectFor hsource (selectFor_of_select_eq_error hread hfault)
  · generalize hresult : SomePlan.select a b settings (.smallest asked) supplied supply = result
    obtain ⟨outcome, after⟩ := result
    cases outcome with
    | error f => exact ⟨f, after, rfl⟩
    | ok P =>
      obtain ⟨plan, -, hplan⟩ := selectFor_of_select_eq_ok hread hresult
      exact absurd hdet (Selection.isFor_of_selectFor hsource hplan).moduli.det_ne_zero

/-- The system `2 x + y = 3`, `x + 3 y = 5` has the determinant 5. With one retry 5 is replaced;
with none the selection fails for it. -/
theorem replaces_of_select_five :
    (∃ (plan : Plan 2) (after : Supply),
      SomePlan.select (.list [.list [.entry 2, .entry 1], .list [.entry 1, .entry 3]])
        (.list [.entry 3, .entry 5]) { maxRetries := .ofInt 1 } (.smallest (some 2)) []
        ⟨.listed 6 7 [11, 5, 7, 11, 101, 103], []⟩ = (.ok ⟨2, plan⟩, after) ∧
      plan.discarded = [5] ∧ plan.Replaces ⟨#v[#v[2, 1], #v[1, 3]]⟩ { maxRetries := .ofInt 1 }
        ⟨.listed 6 7 [11, 5, 7, 11, 101, 103], []⟩ after) ∧
    ∃ after : Supply,
      SomePlan.select (.list [.list [.entry 2, .entry 1], .list [.entry 1, .entry 3]])
        (.list [.entry 3, .entry 5]) { maxRetries := .ofInt 0 } (.smallest (some 2)) []
        ⟨.listed 6 7 [11, 5, 7, 11, 101, 103], []⟩ = (.error (.lifting (.singular 5 1)), after) ∧
      (⟨#v[#v[2, 1], #v[1, 3]]⟩ : Mat 2 2).RunsOut { maxRetries := .ofInt 0 }
        ⟨.listed 6 7 [11, 5, 7, 11, 101, 103], []⟩ after 5 1 := by
  have hread : SomeSystem.read (.list [.list [.entry 2, .entry 1], .list [.entry 1, .entry 3]])
      (.list [.entry 3, .entry 5]) = .ok (.ofLinear ⟨⟨#v[#v[2, 1], #v[1, 3]]⟩, #v[3, 5]⟩) := rfl
  have hsource : (PrimeSource.listed 6 7 [11, 5, 7, 11, 101, 103]).IsGenuine :=
    PrimeSource.isGenuine_of_all (by decide +kernel)
  constructor
  · have hdiscarded : (SomePlan.select
        (.list [.list [.entry 2, .entry 1], .list [.entry 1, .entry 3]])
        (.list [.entry 3, .entry 5]) { maxRetries := .ofInt 1 } (.smallest (some 2)) []
        ⟨.listed 6 7 [11, 5, 7, 11, 101, 103], []⟩).1.map (fun P => P.plan.discarded)
          = .ok [5] := by
      decide +kernel
    obtain ⟨hall, -⟩ := replaces_of_select hread { maxRetries := .ofInt 1 } (some 2) []
      ⟨.listed 6 7 [11, 5, 7, 11, 101, 103], []⟩ hsource
    generalize SomePlan.select _ _ _ _ _ _ = outcome at hdiscarded hall
    obtain ⟨result, after⟩ := outcome
    obtain ⟨P, rfl, hP⟩ := Outcome.map_eq_ok.1 hdiscarded
    obtain ⟨plan, rfl, hreplaces⟩ := hall P after rfl
    exact ⟨plan, after, rfl, hP, hreplaces⟩
  · have hfault : (SomePlan.select
        (.list [.list [.entry 2, .entry 1], .list [.entry 1, .entry 3]])
        (.list [.entry 3, .entry 5]) { maxRetries := .ofInt 0 } (.smallest (some 2)) []
        ⟨.listed 6 7 [11, 5, 7, 11, 101, 103], []⟩).1.map (fun P => P.plan.discarded)
          = .error (.lifting (.singular 5 1)) := by
      decide +kernel
    obtain ⟨-, hall, -⟩ := replaces_of_select hread { maxRetries := .ofInt 0 } (some 2) []
      ⟨.listed 6 7 [11, 5, 7, 11, 101, 103], []⟩ hsource
    generalize SomePlan.select _ _ _ _ _ _ = outcome at hfault hall
    obtain ⟨result, after⟩ := outcome
    cases result with
    | ok P => cases hfault
    | error f =>
      cases hfault
      exact ⟨after, rfl, hall 5 1 after rfl⟩

end SomePlan
end PadicLift
