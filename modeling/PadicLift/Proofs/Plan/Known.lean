import PadicLift.Proofs.Plan.Faults
import PadicLift.Proofs.Plan.Stages
import PadicLift.Proofs.System

/-!
# Known inverses

A supplied inverse is admitted only if it is the inverse, and a prime has one inverse. So the
channel of a prime is the same whether the inverse is known or computed, and no prime with a known
inverse is unlucky. A selection with known inverses makes the same draws and the same replacements
as one without, and comes to the same plan. One wrong inverse among those supplied, and nothing is
drawn.
-/

namespace PadicLift

variable {n : ℕ}

/-! ## Inverses in nested lists -/

/-- Regular nested lists of 64-bit words. -/
structure Nested.IsWords (x : Nested) : Prop where
  isRegular : x.isRegular = true
  words : ∀ v ∈ x.toList, isWord v = true

/-- Modulo `p`, the numbers of `x` are the inverse of the matrix in `a`. -/
def Nested.Inverts (x a : Nested) (p : ℕ) : Prop :=
  ∃ (n : ℕ) (A B : Mat n n), 0 < n ∧ a = .ofMat A ∧ x = .ofMat B ∧ A.IsInverse p (B.reduce p)

/-- Rows of matrices of one size. -/
theorem Nested.inverts_ofMat_iff (hn : 0 < n) {A B : Mat n n} {p : ℕ} :
    (ofMat B).Inverts (.ofMat A) p ↔ A.IsInverse p (B.reduce p) := by
  constructor
  · rintro ⟨m, A', B', hm, hA, hB, hinverse⟩
    have hshape := congrArg shape hA
    rw [shape_ofMat hn hn, shape_ofMat hm hm] at hshape
    cases hshape
    rw [ofMat_inj] at hA hB
    rwa [hA, hB]
  · intro hinverse
    exact ⟨n, A, B, hn, rfl, rfl, hinverse⟩

/-- A modulus of a supplied inverse is out of range, or the inverse is wrong. -/
def Fault.RefusesInverse : Fault → Prop
  | .argument (.modulusTooSmall _) => True
  | .argument (.wrongInverse _) => True
  | .lifting (.modulusTooLarge _) => True
  | _ => False

/-- An inverse is refused as an argument, or for a modulus that is too large. -/
theorem Fault.RefusesInverse.cases {f : Fault} (h : f.RefusesInverse) :
    (∃ g, f = .argument g) ∨ ∃ q, f = .lifting (.modulusTooLarge q) := by
  unfold RefusesInverse at h
  split at h
  · exact .inl ⟨_, rfl⟩
  · exact .inl ⟨_, rfl⟩
  · exact .inr ⟨_, rfl⟩
  · cases h

namespace Selection

/-! ## With and without -/

section Shortcut

variable {A : Mat n n} {known : Known n} {settings : Settings} {extent : Extent} {supply : Supply}

/-- The known inverse of a prime is the one that elimination finds. -/
theorem channel_eq (hknown : AreInverses A known) {p : ℕ} (hp : p.Prime) (hmax : p ≤ maxModulus) :
    channel (residuesOf A) known p = channel (residuesOf A) [] p := by
  unfold channel
  cases hlookup : known.lookup p with
  | none => rfl
  | some B =>
    have hinverse := (isInverse_of_lookup hknown hlookup).inverseMod_eq_ok hp hmax
    symm
    exact Outcome.bind_eq_ok.2 ⟨A.reduce p, rfl, Outcome.bind_eq_ok.2 ⟨_, hinverse, rfl⟩⟩

/-- Known inverses leave all channels as they are. -/
theorem channels_eq (hknown : AreInverses A known) {primes : List ℕ}
    (hprimes : ∀ p ∈ primes, p.Prime ∧ p ≤ maxModulus) :
    channels (residuesOf A) known primes = channels (residuesOf A) [] primes :=
  Outcome.mapM_congr fun p hp => channel_eq hknown (hprimes p hp).1 (hprimes p hp).2

/-- They leave the channels of given primes as they are. -/
theorem givenChannels_eq (hknown : AreInverses A known) (primes : List ℤ) :
    givenChannels (residuesOf A) known primes = givenChannels (residuesOf A) [] primes := by
  unfold givenChannels
  split
  · rfl
  · cases hprimes : admitPrimes (ordered primes) with
    | error f => rfl
    | ok qs => exact channels_eq hknown (admitPrimes_eq_ok hprimes).2

/-- The rounds are the same, one by one. -/
theorem settle_eq (hknown : AreInverses A known) {allowed count retries : ℕ} {limit : String}
    {discarded : List ℕ} {pool : PrimePool} (hpool : pool.IsGenuine)
    (hsource : supply.source.IsGenuine) :
    settle (residuesOf A) known allowed limit count extent retries discarded pool supply
      = settle (residuesOf A) [] allowed limit count extent retries discarded pool supply := by
  -- By induction on the retries: inverses that are right make the same channels in every round.
  induction retries generalizing discarded pool supply with
  | zero =>
    unfold settle
    rcases hsplit : pool.split count extent supply.source with ⟨f | s, pool₁, source₁⟩
    · rfl
    · dsimp only
      rw [channels_eq hknown (prime_of_mem_lifting hpool hsource hsplit)]
      split
      · rfl
      next hleft => cases hleft
      · rfl
  | succ retries ih =>
    unfold settle
    rcases hsplit : pool.split count extent supply.source with ⟨f | s, pool₁, source₁⟩
    · rfl
    · dsimp only
      rw [channels_eq hknown (prime_of_mem_lifting hpool hsource hsplit)]
      split
      · rfl
      next p _ _ _ hleft =>
        cases hleft
        rcases hdraw : (pool₁.discard p).draw source₁ with ⟨f | q, pool₂, source₂⟩
        · rfl
        · obtain ⟨hdrawn, -⟩ := PrimePool.split_eq_ok hpool hsource hsplit
          have hnext := PrimePool.drawn_of_draw (hdrawn.pool_genuine.discard p)
            hdrawn.source_genuine hdraw
          exact ih hnext.pool_genuine hnext.source_genuine
      · rfl

/-- They leave the choice from a pool as it is. -/
theorem fromPool_eq (hknown : AreInverses A known) (hsource : supply.source.IsGenuine)
    (asked : Option ℤ) :
    fromPool (residuesOf A) known settings asked extent supply
      = fromPool (residuesOf A) [] settings asked extent supply := by
  unfold fromPool
  dsimp only
  generalize (if asked.getD 0 = 0 then settings.primesCount else .ofInt (asked.getD 0)) = count
  split
  · rfl
  · split
    · rfl
    · split
      · rfl
      · rfl
      next pool source c hdrawn _ =>
        obtain ⟨hpool, -⟩ := PrimePool.drawn_of_drawUntil
          (PrimePool.isGenuine_empty 0 settings.allowance) hsource hdrawn
        exact settle_eq hknown hpool.pool_genuine hpool.source_genuine

/-- They leave every choice of moduli as it is. -/
theorem chooseModuli_eq (hknown : AreInverses A known) (hsource : supply.source.IsGenuine)
    (choice : Choice) :
    chooseModuli (residuesOf A) known settings choice extent supply
      = chooseModuli (residuesOf A) [] settings choice extent supply := by
  cases choice with
  | given primes =>
    show fromGiven _ _ _ _ _ _ = fromGiven _ _ _ _ _ _
    rw [fromGiven_eq_stages, fromGiven_eq_stages, givenChannels_eq hknown]
  | smallest asked => exact fromPool_eq hknown hsource asked

end Shortcut

/-- For a matrix of integers, either an early stage refuses, or the selection is the one without
known inverses. -/
theorem selectFor_eq_or_refuses {P : Profile n}
    (hP : ∀ p, P.residues p = .ok (P.matrix.reduce p)) (settings : Settings) (choice : Choice)
    (supplied : List (ℤ × Nested)) {supply : Supply} (hsource : supply.source.IsGenuine) :
    selectFor P settings choice supplied supply = selectFor P settings choice [] supply ∨
      ∃ f, selectFor P settings choice supplied supply = (.error f, supply) := by
  have hresidues : P.residues = residuesOf P.matrix := funext hP
  rw [selectFor_eq_stages P settings choice supplied, selectFor_eq_stages P settings choice []]
  rcases hadmission : admission P settings supplied with f | ⟨extent, known⟩
  · exact .inr ⟨f, rfl⟩
  · obtain ⟨hne, hmargin, hadmitted⟩ := admission_eq_ok.1 hadmission
    rw [hresidues] at hadmitted
    have hnone : admission P settings [] = .ok (extent, []) :=
      admission_eq_ok.2 ⟨hne, hmargin, rfl⟩
    refine .inl ?_
    dsimp only
    rw [hnone, hresidues, chooseModuli_eq (areInverses_of_admitAll hadmitted) hsource]

/-! ## Wrong inverses -/

section Wrong

variable {A : Mat n n} {supplied : List (ℤ × Nested)} {p : ℕ} {x : Nested} {f : Fault}

/-- Words that are regularly nested stay as they are. -/
theorem toWords_of_isWords (hx : x.IsWords) : toWords x = .ok x.toList := by
  have hcells : x.cells = x.toList.map .entry := Nested.branchesAt_of_uniform hx.isRegular
  have hlists : ¬ (x.toList.map Nested.entry).any Nested.isList = true := by
    simp [Nested.isList]
  unfold toWords
  rw [hcells, if_neg hlists, Outcome.mapM_eq_ok_iff, List.forall₂_map_left_iff, List.forall₂_same]
  intro v hv
  show (if isWord v then Except.ok v else .error Fault.overflow) = Except.ok v
  rw [if_pos (hx.words v hv)]

/-- Words that are admitted are the inverse. -/
theorem inverts_of_admitInverse (hn : 0 < n) (hx : x.IsWords) {e : ℕ × Mat n n}
    (h : admitInverse (residuesOf A) (p : ℤ) x = .ok e) : x.Inverts (.ofMat A) p := by
  obtain ⟨hprime, -, hshape, hinverse, words, hwords, hresidues⟩ := admitInverse_eq_ok h
  have hmatrix := Nested.eq_ofMat hshape hx.isRegular
  rw [toWords_of_isWords hx, Except.ok.injEq] at hwords
  have hread : Nested.matOfList words n n = x.readMat n n := by
    rw [← hwords]
    conv_lhs => rw [hmatrix, Nested.matOfList_toList_ofMat]
  rw [hresidues, hread, Nat.cast_inj.1 hprime] at hinverse
  exact ⟨n, A, x.readMat n n, hn, rfl, hmatrix, hinverse⟩

/-- Words that are not admitted are refused as an inverse. -/
theorem refusesInverse_of_admitInverse {q : ℤ} (hx : x.IsWords)
    (h : admitInverse (residuesOf A) q x = .error f) : f.RefusesInverse := by
  rcases Outcome.bind_eq_error.1 h with hmodulus | ⟨q', -, h⟩
  · unfold checkModulus at hmodulus
    split at hmodulus
    · cases hmodulus
      trivial
    · split at hmodulus <;> cases hmodulus
      trivial
  simp only [toWords_of_isWords hx, residuesOf, bind, Except.bind] at h
  split at h
  · cases h
    trivial
  · split at h <;> cases h
    trivial

/-- A wrong inverse is refused, or one in front of it. -/
theorem exists_refusesInverse (hn : 0 < n) (hwords : ∀ e ∈ byPrime supplied, e.2.IsWords)
    (hmem : ((p : ℤ), x) ∈ byPrime supplied) (hwrong : ¬ x.Inverts (.ofMat A) p) :
    ∃ f, admitAll (residuesOf A) supplied = .error f ∧ f.RefusesInverse := by
  cases hadmitted : admitAll (residuesOf A) supplied with
  | ok known =>
    obtain ⟨e, he⟩ := Outcome.exists_of_mapM_eq_ok hadmitted hmem
    exact absurd (inverts_of_admitInverse hn (hwords _ hmem) he) hwrong
  | error f =>
    obtain ⟨e, he, hfault⟩ := Outcome.exists_mem_of_mapM_eq_error hadmitted
    exact ⟨f, rfl, refusesInverse_of_admitInverse (hwords e he) hfault⟩

/-- A margin is refused as such only where it is too large for a double. -/
theorem overflow_of_ofMargin {norm : ℕ} {margin : Number}
    (h : Extent.ofMargin norm n margin = .error f) :
    f = .overflow ∧ Number.doubleLimit ≤ Binary64.round margin.value := by
  unfold Extent.ofMargin at h
  split at h
  · cases h
  · cases h
  · dsimp only at h
    split at h
    · cases h
    next hlarge =>
      cases h
      exact ⟨rfl, not_lt.1 hlarge⟩

end Wrong

end Selection

/-! ## Systems -/

namespace SomePlan

variable {a b : Nested}

/-- The call with supplied inverses and that without are the same, or an early stage refuses. -/
theorem select_eq_or_refuses (ha : a.IsIntegral) (settings : Settings) (choice : Selection.Choice)
    (supplied : List (ℤ × Nested)) {supply : Supply} (hsource : supply.source.IsGenuine) :
    SomePlan.select a b settings choice supplied supply
        = SomePlan.select a b settings choice [] supply ∨
      ∃ f, SomePlan.select a b settings choice supplied supply = (.error f, supply) := by
  cases hread : SomeSystem.read a b with
  | error f =>
    rw [select_eq_error_of_read hread, select_eq_error_of_read hread]
    exact .inl rfl
  | ok S =>
    rw [select_eq_of_read hread, select_eq_of_read hread]
    rcases Selection.selectFor_eq_or_refuses (SomeSystem.residues_of_read ha hread) settings choice
      supplied hsource with hsame | ⟨f, hfault⟩
    · rw [hsame]
      exact .inl rfl
    · rw [hfault]
      exact .inr ⟨f, rfl⟩

/-- What the call fails for if one of the supplied matrices is wrong: nothing is drawn. -/
theorem refuses_of_wrong (ha : a.IsIntegral) (settings : Settings) (choice : Selection.Choice)
    {supplied : List (ℤ × Nested)} (supply : Supply)
    (hwords : ∀ e ∈ Selection.byPrime supplied, e.2.IsWords) {p : ℕ} {x : Nested}
    (hmem : ((p : ℤ), x) ∈ Selection.byPrime supplied) (hwrong : ¬ x.Inverts a p) :
    ∃ f, SomePlan.select a b settings choice supplied supply = (.error f, supply) ∧
      ((∃ g, f = .argument g) ∨ (∃ q, f = .lifting (.modulusTooLarge q)) ∨
        (f = .overflow ∧ Number.doubleLimit ≤ Binary64.round settings.margin.toNumber.value) ∨
        (f = .kindMismatch ∧ a.isRegular = false)) := by
  cases hread : SomeSystem.read a b with
  | error f =>
    refine ⟨f, select_eq_error_of_read hread settings choice supplied supply, ?_⟩
    rcases SomeSystem.read_eq_error ha hread with hargument | hkind
    · exact .inl hargument
    · exact .inr (.inr (.inr hkind))
  | ok S =>
    obtain ⟨hn, hmatrix⟩ := SomeSystem.eq_ofMat_of_read ha hread
    have hresidues : S.profile.residues = Selection.residuesOf S.profile.matrix :=
      funext (SomeSystem.residues_of_read ha hread)
    rw [hmatrix] at hwrong
    obtain ⟨f, hadmitted, hrefuses⟩ := Selection.exists_refusesInverse hn hwords hmem hwrong
    rw [← hresidues] at hadmitted
    -- The margin is looked at before the inverses, and the matrix before both.
    rw [select_eq_of_read hread, Selection.selectFor_eq_stages]
    rcases hadmission : Selection.admission S.profile settings supplied with f' | ⟨extent, known⟩
    · refine ⟨f', rfl, ?_⟩
      rcases Selection.admission_eq_error hadmission with rfl | hmargin | hadmitted'
      · exact .inl ⟨_, rfl⟩
      · exact .inr (.inr (.inl (Selection.overflow_of_ofMargin hmargin)))
      · cases hadmitted.symm.trans hadmitted'
        rcases hrefuses.cases with hargument | hlarge
        · exact .inl hargument
        · exact .inr (.inl hlarge)
    · obtain ⟨-, -, hknown⟩ := Selection.admission_eq_ok.1 hadmission
      cases hadmitted.symm.trans hknown

/-- Supplied inverses change nothing but the work: for a matrix of integers, a call that returns
does so without them as well, with the same plan and the same supply; and one wrong matrix among
those supplied ends the call before anything is drawn. -/
theorem inverses_change_nothing (ha : a.IsIntegral) (settings : Settings)
    (choice : Selection.Choice) (supplied : List (ℤ × Nested)) (supply : Supply)
    (hsource : supply.source.IsGenuine) :
    (∀ P after, SomePlan.select a b settings choice supplied supply = (.ok P, after) →
      SomePlan.select a b settings choice [] supply = (.ok P, after)) ∧
    (SomePlan.select a b settings choice supplied supply
        = SomePlan.select a b settings choice [] supply ∨
      ∃ f, SomePlan.select a b settings choice supplied supply = (.error f, supply)) ∧
    ((∀ e ∈ Selection.byPrime supplied, e.2.IsWords) →
      ∀ (p : ℕ) x, ((p : ℤ), x) ∈ Selection.byPrime supplied → ¬ x.Inverts a p →
      ∃ f, SomePlan.select a b settings choice supplied supply = (.error f, supply) ∧
        ((∃ g, f = .argument g) ∨ (∃ q, f = .lifting (.modulusTooLarge q)) ∨
          (f = .overflow ∧ Number.doubleLimit ≤ Binary64.round settings.margin.toNumber.value) ∨
          (f = .kindMismatch ∧ a.isRegular = false))) := by
  have hsame := select_eq_or_refuses (b := b) ha settings choice supplied hsource
  refine ⟨fun P after h => ?_, hsame, fun hwords p x hmem hwrong =>
    refuses_of_wrong ha settings choice supply hwords hmem hwrong⟩
  rcases hsame with hsame | ⟨f, hfault⟩
  · rw [← hsame, h]
  · rw [hfault] at h
    cases h

/-- The system `2 x + y = 3`, `x + 3 y = 5`, whose adjugate times 3 is supplied as the inverse
modulo 7 as it is, with a negative number and one beyond 7. The identity is refused in its place. -/
theorem inverses_change_nothing_two_unknowns :
    (∃ P after,
      SomePlan.select (.list [.list [.entry 2, .entry 1], .list [.entry 1, .entry 3]])
        (.list [.entry 3, .entry 5]) {} (.given [7])
        [(7, .list [.list [.entry 9, .entry (-3)], .list [.entry (-3), .entry 6]])]
        ⟨.listed 1 7 [101], []⟩ = (.ok P, after) ∧
      SomePlan.select (.list [.list [.entry 2, .entry 1], .list [.entry 1, .entry 3]])
        (.list [.entry 3, .entry 5]) {} (.given [7]) [] ⟨.listed 1 7 [101], []⟩ = (.ok P, after)) ∧
    ∃ f, SomePlan.select (.list [.list [.entry 2, .entry 1], .list [.entry 1, .entry 3]])
      (.list [.entry 3, .entry 5]) {} (.given [7])
      [(7, .list [.list [.entry 1, .entry 0], .list [.entry 0, .entry 1]])]
      ⟨.listed 1 7 [101], []⟩ = (.error f, ⟨.listed 1 7 [101], []⟩) := by
  have ha : (Nested.list [.list [.entry 2, .entry 1], .list [.entry 1, .entry 3]]).IsIntegral :=
    Nested.isIntegral_of_uniform (Nested.uniform_ofMat ⟨#v[#v[2, 1], #v[1, 3]]⟩)
  have hsource : (PrimeSource.listed 1 7 [101]).IsGenuine :=
    PrimeSource.isGenuine_of_all (by decide +kernel)
  constructor
  · have hok : (SomePlan.select (.list [.list [.entry 2, .entry 1], .list [.entry 1, .entry 3]])
        (.list [.entry 3, .entry 5]) {} (.given [7])
        [(7, .list [.list [.entry 9, .entry (-3)], .list [.entry (-3), .entry 6]])]
        ⟨.listed 1 7 [101], []⟩).1.map (fun P => P.plan.basis) = .ok [101] := by
      decide +kernel
    obtain ⟨hsame, -⟩ := inverses_change_nothing (b := .list [.entry 3, .entry 5]) ha {}
      (.given [7]) [(7, .list [.list [.entry 9, .entry (-3)], .list [.entry (-3), .entry 6]])]
      ⟨.listed 1 7 [101], []⟩ hsource
    generalize SomePlan.select _ _ _ _ [_] _ = outcome at hok hsame ⊢
    obtain ⟨result, after⟩ := outcome
    obtain ⟨P, rfl, -⟩ := Outcome.map_eq_ok.1 hok
    exact ⟨P, after, rfl, hsame P after rfl⟩
  · have hwrong : ¬ (Nested.list [.list [.entry 1, .entry 0], .list [.entry 0, .entry 1]]).Inverts
        (.list [.list [.entry 2, .entry 1], .list [.entry 1, .entry 3]]) 7 := by
      intro h
      have hinverse := (Nested.inverts_ofMat_iff (A := ⟨#v[#v[2, 1], #v[1, 3]]⟩)
        (B := ⟨#v[#v[1, 0], #v[0, 1]]⟩) Nat.two_pos).1 h
      exact absurd (congrFun (congrFun hinverse.mul_eq_one 0) 0) (by decide +kernel)
    obtain ⟨-, -, hrefuses⟩ := inverses_change_nothing (b := .list [.entry 3, .entry 5]) ha {}
      (.given [7]) [(7, .list [.list [.entry 1, .entry 0], .list [.entry 0, .entry 1]])]
      ⟨.listed 1 7 [101], []⟩ hsource
    obtain ⟨f, hf, -⟩ := hrefuses (by
      intro e he
      rw [List.mem_singleton.1 he]
      exact ⟨rfl, by decide⟩) 7 _ (List.mem_singleton_self _) hwrong
    exact ⟨f, hf⟩

/-- With a margin of `10 ^ 400` bits, which is an integer above all doubles, the wrong inverse of
the matrix `(1)` modulo 7 is not what the call fails for. -/
theorem select_overflow_of_margin :
    Settings.admitMargin (.ofInt ((10 ^ 400 : ℕ) : ℤ)) = .ok (.ofInt ((10 ^ 400 : ℕ) : ℤ)) ∧
    (Nested.list [.list [.entry 2]]).IsWords ∧
    ¬ (Nested.list [.list [.entry 2]]).Inverts (.list [.list [.entry 1]]) 7 ∧
    SomePlan.select (.list [.list [.entry 1]]) (.list [.entry 1])
      { margin := .ofInt ((10 ^ 400 : ℕ) : ℤ) } (.smallest none) [(7, .list [.list [.entry 2]])]
      ⟨.listed 2 4 [11, 13], []⟩ = (.error .overflow, ⟨.listed 2 4 [11, 13], []⟩) ∧
    (∀ g, Fault.overflow ≠ .argument g) ∧ ∀ q, Fault.overflow ≠ .lifting (.modulusTooLarge q) := by
  refine ⟨by decide +kernel, ⟨rfl, by decide⟩, fun h => ?_, ?_, nofun, nofun⟩
  · have hinverse := (Nested.inverts_ofMat_iff (A := ⟨#v[#v[1]]⟩) (B := ⟨#v[#v[2]]⟩)
      Nat.one_pos).1 h
    exact absurd (congrFun (congrFun hinverse.mul_eq_one 0) 0) (by decide +kernel)
  · have hfault : (SomePlan.select (.list [.list [.entry 1]]) (.list [.entry 1])
        { margin := .ofInt ((10 ^ 400 : ℕ) : ℤ) } (.smallest none) [(7, .list [.list [.entry 2]])]
        ⟨.listed 2 4 [11, 13], []⟩).1.map (fun P => P.plan.basis) = .error .overflow := by
      decide +kernel
    have hafter : (SomePlan.select (.list [.list [.entry 1]]) (.list [.entry 1])
        { margin := .ofInt ((10 ^ 400 : ℕ) : ℤ) } (.smallest none) [(7, .list [.list [.entry 2]])]
        ⟨.listed 2 4 [11, 13], []⟩).2 = ⟨.listed 2 4 [11, 13], []⟩ := by
      decide +kernel
    generalize SomePlan.select _ _ _ _ _ _ = outcome at hfault hafter ⊢
    obtain ⟨f | P, after⟩ := outcome
    · cases hfault
      rw [← hafter]
    · cases hfault

end SomePlan
end PadicLift
