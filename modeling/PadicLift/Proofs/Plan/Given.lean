import PadicLift.Proofs.Plan.Stages
import PadicLift.Proofs.Plan.WellFormed
import PadicLift.Proofs.Prime.Failures
import PadicLift.Proofs.System

/-!
# Failures with given lifting primes

With given lifting primes a selection looks at everything before it asks the source for a prime
(`Selection.preparation`). What it fails for until then, it fails for with every source, and the
source stays as it is. Primes of the basis are all that is drawn. Afterwards the bounds exist,
because the matrix has an inverse modulo a prime, so the basis is left to fail for, and a place of
the right side without an integer.
-/

namespace PadicLift

variable {n : ℕ} {f : Fault}

namespace Selection

/-! ## Supplied inverses by prime -/

section ByPrime

variable {α : Type}

theorem mem_keys_setEntry {entries : List (ℤ × α)} {p q : ℤ} {x : α} :
    q ∈ (setEntry entries p x).map Prod.fst ↔ q = p ∨ q ∈ entries.map Prod.fst := by
  unfold setEntry
  split
  next hany =>
    have hkeys : (entries.map fun e => if e.1 == p then (p, x) else e).map Prod.fst
        = entries.map Prod.fst := by
      rw [List.map_map]
      refine List.map_congr_left fun e _ => ?_
      by_cases hkey : e.1 = p <;> simp [hkey]
    obtain ⟨e, he, hkey⟩ := List.any_eq_true.1 hany
    have hp : p ∈ entries.map Prod.fst := List.mem_map.2 ⟨e, he, eq_of_beq hkey⟩
    rw [hkeys, iff_or_self]
    rintro rfl
    exact hp
  next => rw [List.map_append, List.mem_append, List.map_singleton, List.mem_singleton, or_comm]

/-- Inverses are replaced, but no prime is lost. -/
theorem mem_keys_byPrime {entries : List (ℤ × α)} {q : ℤ} :
    q ∈ (byPrime entries).map Prod.fst ↔ q ∈ entries.map Prod.fst := by
  have hfold : ∀ rest done : List (ℤ × α),
      q ∈ (rest.foldl (fun done e => setEntry done e.1 e.2) done).map Prod.fst ↔
        q ∈ rest.map Prod.fst ∨ q ∈ done.map Prod.fst := by
    intro rest
    induction rest with
    | nil => simp
    | cons e rest ih =>
      intro done
      rw [List.foldl_cons, ih, mem_keys_setEntry, List.map_cons, List.mem_cons, or_left_comm,
        or_assoc]
  rw [byPrime, hfold]
  simp

end ByPrime

section Admitted

variable {A : Mat n n} {known : Known n} {supplied : List (ℤ × Nested)}

/-- Once all are admitted, the inverse of every supplied prime is known. -/
theorem exists_known_of_mem (h : admitAll (residuesOf A) supplied = .ok known) {q : ℤ}
    (hq : q ∈ supplied.map Prod.fst) : ∃ d ∈ known, (d.1 : ℤ) = q ∧ d.1 ≤ maxModulus := by
  obtain ⟨e, he, rfl⟩ := List.mem_map.1 (mem_keys_byPrime.2 hq)
  obtain ⟨d, hd, hadmitted⟩ := Outcome.exists_mem_of_mapM_eq_ok h he
  obtain ⟨hprime, hmax, -⟩ := admitInverse_eq_ok hadmitted
  exact ⟨d, hd, hprime, hmax⟩

/-- A prime without a known inverse was not supplied with one. -/
theorem not_mem_keys_of_lookup (h : admitAll (residuesOf A) supplied = .ok known) {p : ℕ}
    (hlookup : known.lookup p = none) : (p : ℤ) ∉ supplied.map Prod.fst := by
  intro hp
  obtain ⟨d, hd, hprime, -⟩ := exists_known_of_mem h hp
  have hne := List.lookup_eq_none_iff.1 hlookup d hd
  rw [Nat.cast_inj.1 hprime, bne_self_eq_false] at hne
  cases hne

end Admitted

/-! ## Before the draws -/

section Preparation

variable {P : Profile n} {settings : Settings} {supplied : List (ℤ × Nested)} {primes : List ℤ}

/-- The matrix, the margin and the supplied inverses are refused, if they are not admitted. -/
theorem isRefusal_of_admission (hP : P.residues = residuesOf P.matrix)
    (h : admission P settings supplied = .error f) : f.IsRefusal := by
  rcases admission_eq_error h with rfl | hmargin | hadmitted
  · exact .inl trivial
  · exact .inl (isMalformed_of_ofMargin (.inl hmargin))
  · rw [hP] at hadmitted
    obtain ⟨e, -, he⟩ := Outcome.exists_mem_of_mapM_eq_error hadmitted
    exact isRefusal_of_admitInverse he

/-- What is prepared has been admitted, and the channels are made of it. -/
theorem preparation_eq_ok {extent : Extent} {cs : List (Channel n)}
    (h : preparation P settings supplied primes = .ok (extent, cs)) :
    ∃ known, admission P settings supplied = .ok (extent, known) ∧
      givenChannels P.residues known primes = .ok cs := by
  obtain ⟨⟨extent', known⟩, hadmission, h⟩ := Outcome.bind_eq_ok.1 h
  obtain ⟨cs', hcs, h⟩ := Outcome.bind_eq_ok.1 h
  cases h
  exact ⟨known, hadmission, hcs⟩

/-- Either the admission fails, or the channels do. -/
theorem preparation_eq_error (h : preparation P settings supplied primes = .error f) :
    admission P settings supplied = .error f ∨
      ∃ extent known, admission P settings supplied = .ok (extent, known) ∧
        givenChannels P.residues known primes = .error f := by
  rcases Outcome.bind_eq_error.1 h with hadmission | ⟨⟨extent, known⟩, hadmission, h⟩
  · exact .inl hadmission
  rcases Outcome.bind_eq_error.1 h with hcs | ⟨cs, -, h⟩
  · exact .inr ⟨extent, known, hadmission, hcs⟩
  · cases h

/-- Channels are made for the given numbers in order, all of which are primes. -/
theorem givenChannels_eq_ok {residues : Residues n} {known : Known n} {cs : List (Channel n)}
    (h : givenChannels residues known primes = .ok cs) :
    ∃ qs, qs.map Int.ofNat = ordered primes ∧ (∀ p ∈ qs, p.Prime ∧ p ≤ maxModulus) ∧
      channels residues known qs = .ok cs := by
  unfold givenChannels at h
  split at h
  · cases h
  · obtain ⟨qs, hqs, hcs⟩ := Outcome.bind_eq_ok.1 h
    obtain ⟨hcast, hprime⟩ := admitPrimes_eq_ok hqs
    exact ⟨qs, hcast, hprime, hcs⟩

/-- Channels fail for the first unlucky prime. -/
theorem isLeast_of_channels {A : Mat n n} {known : Known n} (hknown : AreInverses A known)
    {qs : List ℕ} (hprimes : ∀ p ∈ qs, p.Prime ∧ p ≤ maxModulus) (hsorted : qs.Pairwise (· < ·))
    (h : channels (residuesOf A) known qs = .error f) :
    ∃ p k, f = .lifting (.singular p k) ∧ A.IsUnlucky p k ∧ known.lookup p = none ∧
      IsLeast {q | q ∈ qs ∧ (q : ℤ) ∣ A.toMatrix.det} p := by
  obtain ⟨before, p, later, rfl, hbefore, hp⟩ := Outcome.mapM_eq_error_iff.1 h
  have hmem : p ∈ before ++ p :: later := List.mem_append_right before List.mem_cons_self
  obtain ⟨k, hunlucky, rfl⟩ := isUnlucky_of_channel (hprimes p hmem).1 (hprimes p hmem).2 hp
  refine ⟨p, k, rfl, hunlucky, ?_, ⟨hmem, hunlucky.dvd_det⟩, fun q hq => ?_⟩
  · cases hlookup : known.lookup p with
    | none => rfl
    | some B =>
      unfold channel at hp
      rw [hlookup] at hp
      cases hp
  -- The primes in front have inverses, those behind are larger.
  · rcases List.mem_append.1 hq.1 with hq' | hq'
    · obtain ⟨c, hc⟩ := hbefore q hq'
      obtain ⟨rfl, hfor⟩ := isFor_of_channel hknown (hprimes q hq.1).1 (hprimes q hq.1).2 hc
      exact absurd hq.2 hfor.not_dvd_det
    · rcases List.mem_cons.1 hq' with rfl | hq'
      · exact le_rfl
      · exact ((List.pairwise_cons.1 (List.pairwise_append.1 hsorted).2.1).1 q hq').le

/-- They fail by a refusal, or for the smallest given prime that divides the determinant, which has
no known inverse then. -/
theorem givenChannels_eq_error {A : Mat n n} {known : Known n} (hknown : AreInverses A known)
    (h : givenChannels (residuesOf A) known primes = .error f) :
    f.IsRefusal ∨ ∃ p k, f = .lifting (.singular p k) ∧ A.IsUnlucky p k ∧ known.lookup p = none ∧
      IsLeast {q : ℤ | q ∈ primes ∧ q ∣ A.toMatrix.det} p := by
  unfold givenChannels at h
  split at h
  · cases h
    exact .inl (.inl trivial)
  rcases Outcome.bind_eq_error.1 h with hadmitted | ⟨qs, hqs, hcs⟩
  · exact .inl (isRefusal_of_admitPrimes hadmitted)
  obtain ⟨hcast, hprime⟩ := admitPrimes_eq_ok hqs
  have hsorted := pairwise_ordered primes
  rw [← hcast, List.pairwise_map] at hsorted
  obtain ⟨p, k, rfl, hunlucky, hlookup, hleast⟩ :=
    isLeast_of_channels hknown hprime (hsorted.imp Int.ofNat_lt.1) hcs
  refine .inr ⟨p, k, rfl, hunlucky, hlookup, ⟨?_, hunlucky.dvd_det⟩, fun q hq => ?_⟩
  · rw [← mem_ordered, ← hcast]
    exact List.mem_map_of_mem hleast.1.1
  · have hmem := mem_ordered.2 hq.1
    rw [← hcast] at hmem
    obtain ⟨q', hq', rfl⟩ := List.mem_map.1 hmem
    exact Int.ofNat_le.2 (hleast.2 ⟨hq', hq.2⟩)

/-- The unlucky prime that a selection fails for is the smallest one that is given and divides the
determinant. -/
theorem isLeast_of_preparation (hP : P.residues = residuesOf P.matrix) {p k : ℕ}
    (h : preparation P settings supplied primes = .error (.lifting (.singular p k))) :
    P.matrix.IsUnlucky p k ∧ IsLeast {q : ℤ | q ∈ primes ∧ q ∣ P.matrix.toMatrix.det ∧
      q ∉ supplied.map Prod.fst} p := by
  rcases preparation_eq_error h with hadmission | ⟨extent, known, hadmission, hcs⟩
  · exact absurd (isRefusal_of_admission hP hadmission) (Fault.not_isRefusal_singular p k)
  obtain ⟨-, -, hadmitted⟩ := admission_eq_ok.1 hadmission
  rw [hP] at hadmitted hcs
  rcases givenChannels_eq_error (areInverses_of_admitAll hadmitted) hcs with
    hrefusal | ⟨p', k', heq, hunlucky, hlookup, hleast⟩
  · exact absurd hrefusal (Fault.not_isRefusal_singular p k)
  · cases heq
    exact ⟨hunlucky, ⟨hleast.1.1, hleast.1.2, not_mem_keys_of_lookup hadmitted hlookup⟩,
      fun q hq => hleast.2 ⟨hq.1, hq.2.1⟩⟩

end Preparation

/-! ## From the draws on -/

section Draws

variable {cs : List (Channel n)} {settings : Settings} {extent : Extent} {supply after : Supply}

/-- A basis is drawn without any replacement, and only for a finite number of bits. -/
theorem drawBasis_eq_ok {m : Moduli n} (h : drawBasis cs settings extent supply = (.ok m, after)) :
    m.discarded = [] ∧ after.replacements = supply.replacements ∧
      ∃ bits, extent = .bits bits := by
  unfold drawBasis at h
  split at h
  · cases h
  next hsplit =>
    cases h
    exact ⟨rfl, rfl, PrimePool.extent_eq_bits_of_split hsplit⟩

/-- Nobody can draw with these settings, or from this source. -/
def IsIdle (settings : Settings) (source : PrimeSource) : Prop :=
  settings.allowance.count? = none ∨ source.IsIdle

/-- A basis that cannot be drawn is the fault of the source, which no replacement has touched. -/
theorem drawBasis_eq_error (hsource : supply.source.IsGenuine)
    (h : drawBasis cs settings extent supply = (.error f, after)) :
    after.replacements = supply.replacements ∧ (supply.source.EndsIn f after.source ∨
      (f = .kindMismatch ∧ after = supply ∧ IsIdle settings supply.source)) := by
  unfold drawBasis at h
  split at h
  next source hsplit =>
    cases h
    refine ⟨rfl, ?_⟩
    rcases PrimePool.split_eq_error hsource hsplit with hends | ⟨hkind, rfl, hdraw⟩
    · exact .inl hends
    · refine .inr ⟨hkind, rfl, ?_⟩
      by_contra hidle
      rw [IsIdle, not_or] at hidle
      exact hdraw ⟨hidle.1, hidle.2⟩
  next => cases h

end Draws

/-! ## Selection -/

section Given

variable {P : Profile n} {settings : Settings} {supplied : List (ℤ × Nested)} {primes : List ℤ}
  {supply after : Supply}

/-- Whatever has been prepared, its primes are within the range of moduli. -/
theorem le_max_of_preparation (hP : P.residues = residuesOf P.matrix) {extent : Extent}
    {cs : List (Channel n)} (h : preparation P settings supplied primes = .ok (extent, cs)) {v : ℤ}
    (hv : v ∈ primes ∨ v ∈ supplied.map Prod.fst) : v ≤ maxModulus := by
  obtain ⟨known, hadmission, hcs⟩ := preparation_eq_ok h
  rcases hv with hv | hv
  · obtain ⟨qs, hcast, hprime, -⟩ := givenChannels_eq_ok hcs
    rw [← mem_ordered, ← hcast] at hv
    obtain ⟨q, hq, rfl⟩ := List.mem_map.1 hv
    exact Int.ofNat_le.2 (hprime q hq).2
  · obtain ⟨-, -, hadmitted⟩ := admission_eq_ok.1 hadmission
    rw [hP] at hadmitted
    obtain ⟨d, -, rfl, hmax⟩ := exists_known_of_mem hadmitted hv
    exact Int.ofNat_le.2 hmax

/-- A plan with given primes has discarded none. -/
theorem discarded_of_selectFor_given {plan : Plan n}
    (h : selectFor P settings (.given primes) supplied supply = (.ok plan, after)) :
    plan.discarded = [] ∧ after.replacements = supply.replacements := by
  rw [selectFor_given_eq_stages] at h
  split at h
  · cases h
  · split at h
    · cases h
    next m _ hdrawn =>
      rw [Prod.mk.injEq] at h
      obtain ⟨hplan, rfl⟩ := h
      obtain ⟨hdiscarded, hreplacements, bits, rfl⟩ := drawBasis_eq_ok hdrawn
      obtain ⟨bound, -, -, rfl⟩ := complete_eq_ok hplan
      exact ⟨hdiscarded, hreplacements⟩

/-- A selection with given lifting primes fails before it draws, or while it draws, or because the
basis is too small, or for the right side. -/
theorem selectFor_given_eq_error (hP : P.residues = residuesOf P.matrix)
    (hsource : supply.source.IsGenuine)
    (h : selectFor P settings (.given primes) supplied supply = (.error f, after)) :
    (preparation P settings supplied primes = .error f ∧ after = supply) ∨
    ∃ prepared, preparation P settings supplied primes = .ok prepared ∧
      after.replacements = supply.replacements ∧
      (supply.source.EndsIn f after.source ∨
        (f = .kindMismatch ∧ after = supply ∧ IsIdle settings supply.source) ∨
        (∃ bits largest, f = .lifting (.basisTooSmall bits largest)) ∨ P.right = .error f) := by
  rw [selectFor_given_eq_stages] at h
  split at h
  next hprepared =>
    cases h
    exact .inl ⟨hprepared, rfl⟩
  next extent cs hprepared =>
    refine .inr ⟨_, hprepared, ?_⟩
    split at h
    next hdrawn =>
      cases h
      obtain ⟨hreplacements, hends | hidle⟩ := drawBasis_eq_error hsource hdrawn
      · exact ⟨hreplacements, .inl hends⟩
      · exact ⟨hreplacements, .inr (.inl hidle)⟩
    next m last hdrawn =>
      rw [Prod.mk.injEq] at h
      obtain ⟨hfault, rfl⟩ := h
      obtain ⟨-, hreplacements, bits, rfl⟩ := drawBasis_eq_ok hdrawn
      -- A given lifting prime with an inverse shows that the determinant is not 0.
      obtain ⟨known, hadmission, hcs⟩ := preparation_eq_ok hprepared
      obtain ⟨-, -, hadmitted⟩ := admission_eq_ok.1 hadmission
      rw [hP] at hadmitted hcs
      have hgiven : fromGiven (residuesOf P.matrix) known settings primes (.bits bits) supply
          = (.ok m, last) := by
        rw [fromGiven_eq_stages, hcs]
        exact hdrawn
      have hmoduli := moduliFor_of_fromGiven (areInverses_of_admitAll hadmitted) hsource hgiven
      rcases complete_eq_error hmoduli.det_ne_zero hfault with ⟨-, hsmall⟩ | hright
      · exact ⟨hreplacements, .inr (.inr (.inl ⟨_, _, hsmall⟩))⟩
      · exact ⟨hreplacements, .inr (.inr (.inr hright))⟩

/-- A fault for something that is given, or a prime that is given. -/
def BlamesInput (primes : List ℤ) (supplied : List (ℤ × Nested)) : Fault → Prop
  | .argument _ => True
  | .incompatibleShapes => True
  | .lifting (.singular _ _) => True
  | .lifting (.modulusTooLarge v) => v ∈ primes ∨ v ∈ supplied.map Prod.fst
  | _ => False

/-- What is left to fail for once all that is given has been looked at, except for the places of the
right side `b`. -/
inductive FailsLate (primes : List ℤ) (supplied : List (ℤ × Nested)) (b : Nested)
    (source : PrimeSource) : Fault → PrimeSource → Prop
  | lacksPrimes {f : Fault} {after : PrimeSource} (h : f.LacksPrimes) :
      FailsLate primes supplied b source f after
  /-- The last prime that was drawn is too large. It is none of those that are given. -/
  | tooLarge {handed : List ℕ} {v : ℕ} {after : PrimeSource}
      (hands_out : source.HandsOut (handed ++ [v]) after) (lt : maxModulus < v)
      (not_given : (v : ℤ) ∉ primes) (not_supplied : (v : ℤ) ∉ supplied.map Prod.fst) :
      FailsLate primes supplied b source (.lifting (.modulusTooLarge v)) after
  | tooSmall {after : PrimeSource} (bits : ℚ) (largest : ℕ) :
      FailsLate primes supplied b source (.lifting (.basisTooSmall bits largest)) after
  /-- A place of the right side has no integer. -/
  | noInteger {f : Fault} {after : PrimeSource} (h : b.LacksInteger f) :
      FailsLate primes supplied b source f after

/-- Late faults are for no input but the places of the right side. -/
theorem FailsLate.of_blamesInput {b : Nested} {source source' : PrimeSource}
    (hlate : FailsLate primes supplied b source f source')
    (hinput : BlamesInput primes supplied f) : b.LacksInteger f := by
  cases hlate with
  | lacksPrimes h =>
    unfold Fault.LacksPrimes at h
    split at h <;> first | cases hinput | cases h
  | tooLarge _ _ hgiven hsupplied =>
    rcases hinput with hv | hv
    · exact absurd hv hgiven
    · exact absurd hv hsupplied
  | tooSmall => cases hinput
  | noInteger h => exact h

end Given

end Selection

/-! ## Systems -/

namespace SomePlan

variable {a b : Nested}

/-- How the call fails: before it asks the source, or because nobody can draw, or late. -/
theorem select_given_eq_error (ha : a.IsIntegral) {settings : Settings} {primes : List ℤ}
    {supplied : List (ℤ × Nested)} {supply after : Supply} (hsource : supply.source.IsGenuine)
    (h : SomePlan.select a b settings (.given primes) supplied supply = (.error f, after)) :
    (after = supply ∧
      (∀ other, SomePlan.select a b settings (.given primes) supplied other = (.error f, other)) ∧
      ∀ p k, f = .lifting (.singular p k) → ∃ (n : ℕ) (A : Mat n n), a = .ofMat A ∧
        A.IsUnlucky p k ∧
        IsLeast {q : ℤ | q ∈ primes ∧ q ∣ A.toMatrix.det ∧ q ∉ supplied.map Prod.fst} p) ∨
    (f = .kindMismatch ∧ after = supply ∧ Selection.IsIdle settings supply.source) ∨
    (after.replacements = supply.replacements ∧
      Selection.FailsLate primes supplied b supply.source f after.source) := by
  cases hread : SomeSystem.read a b with
  | error g =>
    have hselect := select_eq_error_of_read hread settings (.given primes) supplied
    cases (hselect supply).symm.trans h
    refine .inl ⟨rfl, hselect, ?_⟩
    rintro p k rfl
    rcases SomeSystem.read_eq_error ha hread with ⟨g, hg⟩ | ⟨hg, -⟩ <;> cases hg
  | ok S =>
    have hP : S.profile.residues = Selection.residuesOf S.profile.matrix :=
      funext (SomeSystem.residues_of_read ha hread)
    rcases Selection.selectFor_given_eq_error hP hsource (selectFor_eq_error_of_read hread h) with
      ⟨hprepared, rfl⟩ | ⟨⟨extent, cs⟩, hprepared, hreplacements, hends | hidle | hsmall | hright⟩
    · refine .inl ⟨rfl, fun other => ?_, ?_⟩
      · rw [select_eq_of_read hread, Selection.selectFor_given_eq_stages, hprepared]
        rfl
      · rintro p k rfl
        obtain ⟨hunlucky, hleast⟩ := Selection.isLeast_of_preparation hP hprepared
        exact ⟨_, _, (SomeSystem.eq_ofMat_of_read ha hread).2, hunlucky, hleast⟩
    · refine .inr (.inr ⟨hreplacements, ?_⟩)
      rcases hends with hlacks | ⟨handed, v, hhanded, hlarge, rfl⟩
      · exact .lacksPrimes hlacks
      -- All primes that are given have been found small enough.
      · have hnot : ¬ ((v : ℤ) ∈ primes ∨ (v : ℤ) ∈ supplied.map Prod.fst) := fun hv =>
          absurd (Selection.le_max_of_preparation hP hprepared hv) (by omega)
        rw [not_or] at hnot
        exact .tooLarge hhanded hlarge hnot.1 hnot.2
    · exact .inr (.inl hidle)
    · obtain ⟨bits, largest, rfl⟩ := hsmall
      exact .inr (.inr ⟨hreplacements, .tooSmall bits largest⟩)
    · exact .inr (.inr ⟨hreplacements, .noInteger (SomeSystem.lacksInteger_of_read hread hright)⟩)

/-- For given lifting primes nothing is discarded and no notice is given. -/
theorem discarded_of_select_given {settings : Settings} {primes : List ℤ}
    {supplied : List (ℤ × Nested)} {supply after : Supply} {P : SomePlan}
    (h : SomePlan.select a b settings (.given primes) supplied supply = (.ok P, after)) :
    P.plan.discarded = [] ∧ after.replacements = supply.replacements := by
  cases hread : SomeSystem.read a b with
  | error g =>
    rw [select_eq_error_of_read hread] at h
    cases h
  | ok S =>
    obtain ⟨plan, rfl, hplan⟩ := selectFor_eq_ok_of_read hread h
    exact Selection.discarded_of_selectFor_given hplan

/-- With given lifting primes no prime is replaced. What a selection for a matrix of integers fails
for, it fails for before it asks the source, with every source alike, or there is nothing that could
draw; later only the draws, the size of the basis and the places of the right side are left. So what
is given is refused before anything is drawn, up to the places of the right side. An unlucky prime
is the smallest one without a supplied inverse that divides the determinant. -/
theorem given_fails_before_drawing (ha : a.IsIntegral) (settings : Settings) (primes : List ℤ)
    (supplied : List (ℤ × Nested)) (supply : Supply) (hsource : supply.source.IsGenuine) :
    (∀ P after, SomePlan.select a b settings (.given primes) supplied supply = (.ok P, after) →
      P.plan.discarded = [] ∧ after.replacements = supply.replacements) ∧
    ∀ f after, SomePlan.select a b settings (.given primes) supplied supply = (.error f, after) →
      after.replacements = supply.replacements ∧
      ((∀ other, SomePlan.select a b settings (.given primes) supplied other = (.error f, other)) ∨
        (f = .kindMismatch ∧ after = supply ∧ Selection.IsIdle settings supply.source) ∨
        Selection.FailsLate primes supplied b supply.source f after.source) ∧
      (Selection.BlamesInput primes supplied f → after = supply ∨ b.LacksInteger f) ∧
      ∀ p k, f = .lifting (.singular p k) →
        after = supply ∧ ∃ (n : ℕ) (A : Mat n n), a = .ofMat A ∧ A.IsUnlucky p k ∧
          IsLeast {q : ℤ | q ∈ primes ∧ q ∣ A.toMatrix.det ∧ q ∉ supplied.map Prod.fst} p := by
  refine ⟨fun P after h => discarded_of_select_given h, fun f after h => ?_⟩
  rcases select_given_eq_error ha hsource h with
    ⟨rfl, hearly, hsingular⟩ | ⟨rfl, rfl, hidle⟩ | ⟨hreplacements, hlate⟩
  · exact ⟨rfl, .inl hearly, fun _ => .inl rfl, fun p k hf => ⟨rfl, hsingular p k hf⟩⟩
  · exact ⟨rfl, .inr (.inl ⟨rfl, rfl, hidle⟩), fun _ => .inl rfl, nofun⟩
  · refine ⟨hreplacements, .inr (.inr hlate), fun hinput => .inr (hlate.of_blamesInput hinput), ?_⟩
    rintro p k rfl
    cases (hlate.of_blamesInput trivial).isLifting_eq_false

/-- The determinant of `6 x + y = 1`, `x + 6 y = 2` is 35. Of the given primes 7, 11 and 5 it is 5
that the call fails for, and nothing is drawn; 13 and 11 do. -/
theorem given_fails_before_drawing_two_unknowns :
    (∃ P after, SomePlan.select (.list [.list [.entry 6, .entry 1], .list [.entry 1, .entry 6]])
        (.list [.entry 1, .entry 2]) {} (.given [13, 11]) [] ⟨.listed 1 7 [101], []⟩
        = (.ok P, after) ∧
      P.plan.discarded = [] ∧ after.replacements = []) ∧
    SomePlan.select (.list [.list [.entry 6, .entry 1], .list [.entry 1, .entry 6]])
      (.list [.entry 1, .entry 2]) {} (.given [7, 11, 5]) [] ⟨.listed 1 7 [101], []⟩
      = (.error (.lifting (.singular 5 1)), ⟨.listed 1 7 [101], []⟩) ∧
    ∃ (n : ℕ) (A : Mat n n),
      Nested.list [.list [.entry 6, .entry 1], .list [.entry 1, .entry 6]] = .ofMat A ∧
      IsLeast {q : ℤ | q ∈ ([7, 11, 5] : List ℤ) ∧ q ∣ A.toMatrix.det ∧
        q ∉ ([] : List (ℤ × Nested)).map Prod.fst} ((5 : ℕ) : ℤ) := by
  have ha : (Nested.list [.list [.entry 6, .entry 1], .list [.entry 1, .entry 6]]).IsIntegral :=
    Nested.isIntegral_of_uniform (Nested.uniform_ofMat ⟨#v[#v[6, 1], #v[1, 6]]⟩)
  have hsource : (PrimeSource.listed 1 7 [101]).IsGenuine :=
    PrimeSource.isGenuine_of_all (by decide +kernel)
  constructor
  · have hok : (SomePlan.select (.list [.list [.entry 6, .entry 1], .list [.entry 1, .entry 6]])
        (.list [.entry 1, .entry 2]) {} (.given [13, 11]) [] ⟨.listed 1 7 [101], []⟩).1.map
        (fun P => P.plan.basis) = .ok [101] := by
      decide +kernel
    obtain ⟨hplan, -⟩ := given_fails_before_drawing (b := .list [.entry 1, .entry 2]) ha {} [13, 11]
      [] ⟨.listed 1 7 [101], []⟩ hsource
    generalize SomePlan.select _ _ _ _ _ _ = outcome at hok hplan
    obtain ⟨result, after⟩ := outcome
    obtain ⟨P, rfl, -⟩ := Outcome.map_eq_ok.1 hok
    exact ⟨P, after, rfl, hplan P after rfl⟩
  · have hfault : (SomePlan.select
        (.list [.list [.entry 6, .entry 1], .list [.entry 1, .entry 6]])
        (.list [.entry 1, .entry 2]) {} (.given [7, 11, 5]) [] ⟨.listed 1 7 [101], []⟩).1.map
        (fun P => P.plan.basis) = .error (.lifting (.singular 5 1)) := by
      decide +kernel
    obtain ⟨-, hfails⟩ := given_fails_before_drawing (b := .list [.entry 1, .entry 2]) ha {}
      [7, 11, 5] [] ⟨.listed 1 7 [101], []⟩ hsource
    generalize SomePlan.select _ _ _ _ _ ⟨.listed 1 7 [101], []⟩ = outcome at hfault hfails ⊢
    obtain ⟨result, after⟩ := outcome
    cases Outcome.map_eq_error.1 hfault
    obtain ⟨-, -, -, hsingular⟩ := hfails _ after rfl
    obtain ⟨rfl, n, A, hA, -, hleast⟩ := hsingular 5 1 rfl
    exact ⟨rfl, n, A, hA, hleast⟩

/-- The right side `[1, 2], [3]` has two places with lists, as many as there are equations, and a
place is read only after a prime has been drawn. -/
theorem given_fails_for_right_after_drawing :
    ∃ after, SomePlan.select (.list [.list [.entry 1, .entry 0], .list [.entry 0, .entry 1]])
        (.list [.list [.entry 1, .entry 2], .list [.entry 3]]) {} (.given [3]) []
        ⟨.listed 3 4 [5, 7, 11], []⟩ = (.error .kindMismatch, after) ∧
      after.source ≠ .listed 3 4 [5, 7, 11] ∧ ¬ Fault.kindMismatch.LacksPrimes ∧
      (∀ v, Fault.kindMismatch ≠ .lifting (.modulusTooLarge v)) ∧
      ∀ bits largest, Fault.kindMismatch ≠ .lifting (.basisTooSmall bits largest) := by
  have hfault : (SomePlan.select (.list [.list [.entry 1, .entry 0], .list [.entry 0, .entry 1]])
      (.list [.list [.entry 1, .entry 2], .list [.entry 3]]) {} (.given [3]) []
      ⟨.listed 3 4 [5, 7, 11], []⟩).1.map (fun P => P.plan.basis) = .error .kindMismatch := by
    decide +kernel
  have hafter : (SomePlan.select (.list [.list [.entry 1, .entry 0], .list [.entry 0, .entry 1]])
      (.list [.list [.entry 1, .entry 2], .list [.entry 3]]) {} (.given [3]) []
      ⟨.listed 3 4 [5, 7, 11], []⟩).2.source ≠ .listed 3 4 [5, 7, 11] := by
    decide +kernel
  generalize SomePlan.select _ _ _ _ _ _ = outcome at hfault hafter ⊢
  obtain ⟨result, after⟩ := outcome
  cases Outcome.map_eq_error.1 hfault
  exact ⟨after, rfl, hafter, not_false, nofun, nofun⟩

end SomePlan
end PadicLift
