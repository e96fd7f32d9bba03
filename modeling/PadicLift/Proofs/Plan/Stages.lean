import PadicLift.Proofs.Plan

/-!
# Stages of a selection

A selection looks at the matrix, the margin and the supplied inverses first (`admission`), then
chooses the moduli, and completes the plan at the end. Only the choice of moduli asks the source for
primes; with given lifting primes it inverts the matrix for all of them before (`givenChannels`). So
what fails in an early stage fails in the same way for every source, and leaves it alone.
-/

namespace PadicLift

variable {n : ℕ}

namespace Selection

/-- What a basis has to cover and the inverses that are known: the stage before any prime is
chosen. -/
def admission (P : Profile n) (settings : Settings) (supplied : List (ℤ × Nested)) :
    Except Fault (Extent × Known n) :=
  if P.matrix.maxAbs = 0 then .error (.argument .zeroMatrix)
  else do
    let extent ← Extent.ofMargin P.matrix.maxAbs n settings.margin.toNumber
    let known ← admitAll P.residues supplied
    return (extent, known)

/-- What is admitted: a matrix with an entry other than 0, a margin, and inverses. -/
theorem admission_eq_ok {P : Profile n} {settings : Settings} {supplied : List (ℤ × Nested)}
    {extent : Extent} {known : Known n} :
    admission P settings supplied = .ok (extent, known) ↔ P.matrix.maxAbs ≠ 0 ∧
      Extent.ofMargin P.matrix.maxAbs n settings.margin.toNumber = .ok extent ∧
      admitAll P.residues supplied = .ok known := by
  unfold admission
  split
  next hzero =>
    constructor
    · intro h
      cases h
    · rintro ⟨hne, -⟩
      exact absurd hzero hne
  next hne =>
    rw [Outcome.bind_eq_ok]
    constructor
    · rintro ⟨extent', hmargin, h⟩
      obtain ⟨known', hadmitted, h⟩ := Outcome.bind_eq_ok.1 h
      cases h
      exact ⟨hne, hmargin, hadmitted⟩
    · rintro ⟨-, hmargin, hadmitted⟩
      exact ⟨extent, hmargin, Outcome.bind_eq_ok.2 ⟨known, hadmitted, rfl⟩⟩

/-- What is looked at first: the matrix, then the margin, then the inverses. -/
theorem admission_eq_error {P : Profile n} {settings : Settings} {supplied : List (ℤ × Nested)}
    {f : Fault} (h : admission P settings supplied = .error f) :
    f = .argument .zeroMatrix ∨
      Extent.ofMargin P.matrix.maxAbs n settings.margin.toNumber = .error f ∨
      admitAll P.residues supplied = .error f := by
  unfold admission at h
  split at h
  · cases h
    exact .inl rfl
  rcases Outcome.bind_eq_error.1 h with hmargin | ⟨extent, -, h⟩
  · exact .inr (.inl hmargin)
  rcases Outcome.bind_eq_error.1 h with hadmitted | ⟨known, -, h⟩
  · exact .inr (.inr hadmitted)
  · cases h

/-- The plan for chosen moduli: the stage after all draws. -/
def conclusion (P : Profile n) (extent : Extent) (m : Moduli n) : Except Fault (Plan n) :=
  match extent with
  | .bits value => complete P P.matrix.maxAbs value m
  | .boundless f => .error f

/-- A selection is its stages, one after the other. -/
theorem selectFor_eq_stages (P : Profile n) (settings : Settings) (choice : Choice)
    (supplied : List (ℤ × Nested)) (supply : Supply) :
    selectFor P settings choice supplied supply
      = match admission P settings supplied with
        | .error f => (.error f, supply)
        | .ok (extent, known) =>
          match chooseModuli P.residues known settings choice extent supply with
          | (.error f, after) => (.error f, after)
          | (.ok m, after) => (conclusion P extent m, after) := by
  unfold selectFor admission
  dsimp only
  split
  · rfl
  · cases Extent.ofMargin P.matrix.maxAbs n settings.margin.toNumber with
    | error f => rfl
    | ok extent =>
      cases admitAll P.residues supplied with
      | error f => rfl
      | ok known =>
        simp only [bind, Except.bind, pure, Except.pure]
        rcases chooseModuli P.residues known settings choice extent supply with ⟨f | m, after⟩
        · rfl
        · cases extent <;> rfl

/-- The channels of given lifting primes: the stage before the basis is drawn. -/
def givenChannels (residues : Residues n) (known : Known n) (primes : List ℤ) :
    Except Fault (List (Channel n)) :=
  if ordered primes = [] then .error (.argument .noLiftingPrimes)
  else admitPrimes (ordered primes) >>= channels residues known

/-- The basis for given lifting primes with their channels: the stage that draws. -/
def drawBasis (cs : List (Channel n)) (settings : Settings) (extent : Extent) (supply : Supply) :
    Except Fault (Moduli n) × Supply :=
  match (PrimePool.empty ((cs.map Channel.prime).foldl max 0) settings.allowance).split 0 extent
    supply.source with
  | (.error f, _, source) => (.error f, { supply with source })
  | (.ok s, _, source) => (.ok ⟨cs, s.basis, []⟩, { supply with source })

/-- Given primes have their channels made before a basis is drawn. -/
theorem fromGiven_eq_stages (residues : Residues n) (known : Known n) (settings : Settings)
    (primes : List ℤ) (extent : Extent) (supply : Supply) :
    fromGiven residues known settings primes extent supply
      = match givenChannels residues known primes with
        | .error f => (.error f, supply)
        | .ok cs => drawBasis cs settings extent supply := by
  unfold fromGiven givenChannels
  dsimp only
  by_cases hempty : ordered primes = []
  · rw [if_pos hempty, if_pos hempty]
    rfl
  · rw [if_neg hempty, if_neg hempty]
    rfl

/-- What a basis has to cover, and the channels of given lifting primes: everything before the basis
is drawn. -/
def preparation (P : Profile n) (settings : Settings) (supplied : List (ℤ × Nested))
    (primes : List ℤ) : Except Fault (Extent × List (Channel n)) := do
  let (extent, known) ← admission P settings supplied
  let cs ← givenChannels P.residues known primes
  return (extent, cs)

/-- With given primes all that can be refused is refused before the first draw. -/
theorem selectFor_given_eq_stages (P : Profile n) (settings : Settings) (primes : List ℤ)
    (supplied : List (ℤ × Nested)) (supply : Supply) :
    selectFor P settings (.given primes) supplied supply
      = match preparation P settings supplied primes with
        | .error f => (.error f, supply)
        | .ok (extent, cs) =>
          match drawBasis cs settings extent supply with
          | (.error f, after) => (.error f, after)
          | (.ok m, after) => (conclusion P extent m, after) := by
  rw [selectFor_eq_stages, preparation]
  cases admission P settings supplied with
  | error f => rfl
  | ok admitted =>
    obtain ⟨extent, known⟩ := admitted
    simp only [bind, Except.bind, pure, Except.pure, chooseModuli, fromGiven_eq_stages]
    cases givenChannels P.residues known primes <;> rfl

end Selection
end PadicLift
