import PadicLift.Proofs.Plan.Cover
import PadicLift.Proofs.Plan.Faults
import PadicLift.Proofs.Plan.WellFormed

/-!
# Margins that are enough

The settings admit every margin from 1 up, but not every one of them is enough: with a margin below
`log₂ 3` the prime 3 covers what the equation `x = 1` asks for, and yet it is too small for its
corrections. From `log₂ 3` up no selection fails for the size of its basis, so the faults are those
of the input and of the primes.
-/

namespace PadicLift

open Binary64 hiding round

variable {n : ℕ}

/-! ## Margins -/

namespace Number

variable {x : Number}

/-- An integer or a finite double. -/
def IsFinite : Number → Prop
  | .whole _ => True
  | .double _ _ => True
  | _ => False

/-- What stands for a double is one. -/
def IsGenuine : Number → Prop
  | .double _ size => 0 ≤ size ∧ Binary64.round size = size
  | _ => True

/-- A finite number is compared with a double by value. -/
theorem before_double (hx : x.IsFinite) (size : ℚ) :
    x.before (.double false size) = decide (x.value < size) := by
  cases x with
  | whole v => rfl
  | double negative y => rfl
  | infinite negative => cases hx
  | undefined => cases hx

/-- A finite number is compared with an integer by value. -/
theorem before_whole (hx : x.IsFinite) (v : ℤ) : x.before (.whole v) = decide (x.value < v) := by
  cases x with
  | whole u => rfl
  | double negative y => rfl
  | infinite negative => cases hx
  | undefined => cases hx

/-- Below a number and not below another one are only finite numbers. -/
theorem isFinite_of_before {v : ℤ} {size : ℚ} (hlow : x.before (.whole v) = false)
    (hhigh : x.before (.double false size) = true) : x.IsFinite := by
  cases x with
  | whole u => trivial
  | double negative y => trivial
  | infinite negative =>
    cases negative with
    | false => cases hhigh
    | true => cases hlow
  | undefined => cases hhigh

/-- Between 1 and 2, an integer is a double too. -/
theorem IsGenuine.round_value (hx : x.IsGenuine) (hone : 1 ≤ x.value) (htwo : x.value < 2) :
    Binary64.round x.value = x.value := by
  cases x with
  | whole v =>
    have hvalue : (whole v).value = v := rfl
    rw [hvalue] at hone htwo
    norm_cast at hone htwo
    obtain rfl : v = 1 := by omega
    decide +kernel
  | double negative size =>
    obtain ⟨hsize, hround⟩ := hx
    cases negative with
    | false => exact hround
    | true =>
      have hneg : 1 ≤ -size := hone
      linarith
  | infinite negative => exact Binary64.round_zero
  | undefined => exact Binary64.round_zero

end Number

/-- A margin is enough: a basis of odd primes that covers what it asks for holds all corrections,
and a selection for a system of integers fails for its input or for its primes only. -/
structure Quantity.IsEnough (margin : Quantity) : Prop where
  holds : ∀ {norm n : ℕ} {extent : Extent} {basis : List ℕ}, 0 < norm → 0 < n →
    Extent.ofMargin norm n margin.toNumber = .ok extent → IsOddBasis basis →
    extent.isCovered basis = true → 2 * (n * norm + 1) < basis.prod
  fails : ∀ {n : ℕ} {a b : Nested} {S : LinearSystem n} {settings : Settings}
    {choice : Selection.Choice} {supplied : List (ℤ × Nested)} {supply after : Supply} {f : Fault},
    SomeSystem.read a b = .ok (.ofLinear S) → settings.margin = margin →
    supply.source.IsGenuine →
    SomePlan.select a b settings choice supplied supply = (.error f, after) →
    Selection.IsChoiceFault S.matrix f

namespace Extent

variable {norm : ℕ} {margin : Number} {extent : Extent}

/-- A finite margin is rounded and added to the bits of the matrix. -/
theorem ofMargin_of_isFinite (norm n : ℕ) (hmargin : margin.IsFinite) :
    ofMargin norm n margin =
      if Binary64.round margin.value < Number.doubleLimit
      then .ok (.bits (bitsFor norm n (Binary64.round margin.value)))
      else .error .overflow := by
  cases margin with
  | whole v => rfl
  | double negative size => rfl
  | infinite negative => cases hmargin
  | undefined => cases hmargin

/-- A margin from `log₂ 3` up asks for more bits than that, or for more than any basis has. -/
theorem ofMargin_cases (hmargin : margin.before (.double false leastMargin) = false)
    (h : ofMargin norm n margin = .ok extent) :
    (∃ f, extent = .boundless f) ∨
      ∃ value, leastMargin ≤ value ∧ extent = .bits (bitsFor norm n value) := by
  by_cases hfinite : margin.IsFinite
  · rw [Number.before_double hfinite, decide_eq_false_iff_not, not_lt] at hmargin
    rw [ofMargin_of_isFinite norm n hfinite] at h
    split at h
    · cases h
      exact .inr ⟨_, leastMargin_le_round hmargin, rfl⟩
    · cases h
  · left
    cases margin with
    | whole v => exact absurd trivial hfinite
    | double negative size => exact absurd trivial hfinite
    | infinite negative =>
      cases h
      exact ⟨_, rfl⟩
    | undefined =>
      cases h
      exact ⟨_, rfl⟩

/-- What an admitted margin below `log₂ 3` asks for. -/
theorem ofMargin_one_one (hgenuine : margin.IsGenuine)
    (hadmitted : margin.before (.whole 1) = false)
    (hbelow : margin.before (.double false leastMargin) = true) :
    1 ≤ margin.value ∧ margin.value < leastMargin ∧
      ofMargin 1 1 margin = .ok (.bits margin.value) := by
  have hfinite : margin.IsFinite := Number.isFinite_of_before hadmitted hbelow
  have hleast : leastMargin < 2 := by
    rw [leastMargin_eq]
    norm_num
  have hlimit : (2 : ℚ) < Number.doubleLimit := by decide +kernel
  rw [Number.before_whole hfinite, decide_eq_false_iff_not, not_lt, Int.cast_one] at hadmitted
  rw [Number.before_double hfinite, decide_eq_true_eq] at hbelow
  have hround := hgenuine.round_value hadmitted (hbelow.trans hleast)
  refine ⟨hadmitted, hbelow, ?_⟩
  rw [ofMargin_of_isFinite 1 1 hfinite, hround, if_pos (hbelow.trans (hleast.trans hlimit)),
    bitsFor_one_one, hround]

end Extent

/-! ## From `log₂ 3` up -/

namespace Selection

section LargeMargin

variable {S : LinearSystem n} {settings : Settings} {choice : Choice} {extent : Extent}
  {known : Known n} {supplied : List (ℤ × Nested)} {supply after : Supply} {m : Moduli n}

/-- A lifting prime lies below every prime of the basis, so 2 is none of them. -/
theorem isOddBasis_of_chooseModuli (hknown : AreInverses S.matrix known)
    (hsource : supply.source.IsGenuine)
    (h : chooseModuli (residuesOf S.matrix) known settings choice extent supply = (.ok m, after)) :
    IsOddBasis m.basis := by
  have hmoduli : ModuliFor S.matrix m.channels m.basis :=
    moduliFor_of_chooseModuli hknown hsource h
  obtain ⟨hincreasing, hprime, hmax, -, -⟩ := isBasisFor_of_chooseModuli hsource h
  obtain ⟨c, rest, hc⟩ := List.exists_cons_of_ne_nil hmoduli.nonempty
  have hmem : c ∈ m.channels := hc ▸ List.mem_cons_self
  have htwo : 2 ≤ c.prime := (hmoduli.channels_for c hmem).prime.two_le
  exact ⟨hincreasing, hprime, hmax, fun q hq => htwo.trans_lt (hmoduli.lt_basis c hmem q hq)⟩

/-- With the least margin or more, the basis is never too small. -/
theorem isChoiceFault_of_selectFor {f : Fault} (hsource : supply.source.IsGenuine)
    (hmargin : settings.margin.toNumber.before (.double false leastMargin) = false)
    (h : selectFor S.profile settings choice supplied supply = (.error f, after)) :
    IsChoiceFault S.matrix f := by
  rcases selectFor_eq_error hsource h with
    hrefused | ⟨hnorm, extent, known, hknown, hextent, hchosen | ⟨m, bits, rfl, hchosen, hle, -⟩⟩
  · exact .inl hrefused
  · have hboundless : ∀ f, extent = .boundless f → f.IsMalformed := fun f hf =>
      isMalformed_of_ofMargin (.inr (hf ▸ hextent))
    exact isChoiceFault_of_chooseModuli hsource hboundless hchosen
  · -- A basis that was chosen covers what the margin asks for.
    rcases Extent.ofMargin_cases hmargin hextent with ⟨f, hf⟩ | ⟨value, hvalue, hbits⟩
    · cases hf
    · have hbasis := isBasisFor_of_chooseModuli hsource hchosen
      have hlt := (isOddBasis_of_chooseModuli hknown hsource hchosen).two_mul_lt_prod
        (Nat.pos_of_ne_zero hnorm) (Mat.pos_of_maxAbs_ne_zero hnorm) hvalue
        (hbits ▸ hbasis.covered)
      rw [List.prod_eq_foldl] at hlt
      omega

end LargeMargin

end Selection

/-! ## Below `log₂ 3` -/

namespace PrimePool

/-- Above the floor 2, a source that begins with 3 gives the basis 3 if 3 alone covers. -/
theorem split_three {extent : Extent} (hempty : extent.isNear [] = false)
    (hnear : extent.isNear [3] = true) (hcovered : extent.isCovered [3] = true) :
    ∃ pool, (empty 2 (Settings.allowance {})).split 0 extent (PrimeSource.listed 1 2 [3])
      = (.ok ⟨[], [3]⟩, pool, .listed 1 2 []) := by
  obtain ⟨pool, hdraw, hprimes⟩ : ∃ pool,
      (empty 2 (Settings.allowance {})).draw (PrimeSource.listed 1 2 [3])
        = (.ok 3, pool, .listed 1 2 []) ∧ pool.primes = [3] := ⟨_, rfl, rfl⟩
  have hfirst : (empty 2 (Settings.allowance {})).drawUntil (nearBehind (fun _ => 0) extent)
      (PrimeSource.listed 1 2 [3]) = (.ok (), pool, .listed 1 2 []) := by
    refine (drawUntil_of_draw_ok ?_ hdraw).trans (drawUntil_of_done ?_)
    · exact hempty
    · rw [hprimes]
      exact hnear
  have hsecond : pool.drawUntil (coversBehind (fun _ => 0) extent)
      (PrimeSource.listed 1 2 []) = (.ok (), pool, .listed 1 2 []) := by
    refine drawUntil_of_done ?_
    rw [hprimes]
    exact hcovered
  refine ⟨pool, ?_⟩
  rw [split, splitBy_of_drawUntil hfirst hsecond, hprimes]
  rfl

end PrimePool

/-- The equation `x = 1`. -/
def LinearSystem.one : LinearSystem 1 := ⟨⟨#v[#v[1]]⟩, #v[1]⟩

namespace Selection

/-- With the lifting prime 2, the basis for the equation `x = 1` is 3 if 3 alone covers. -/
theorem chooseModuli_one {settings : Settings}
    (hallowance : settings.allowance = Settings.allowance {}) {extent : Extent}
    (hempty : extent.isNear [] = false) (hnear : extent.isNear [3] = true)
    (hcovered : extent.isCovered [3] = true) :
    chooseModuli (residuesOf LinearSystem.one.matrix) [] settings (.given [2]) extent
        ⟨.listed 1 2 [3], []⟩
      = (.ok ⟨[⟨2, LinearSystem.one.matrix⟩], [3], []⟩, ⟨.listed 1 2 [], []⟩) := by
  obtain ⟨pool, hsplit⟩ := PrimePool.split_three hempty hnear hcovered
  have hordered : ordered [2] ≠ [] := by decide
  have hadmitted : admitPrimes (ordered [2]) = .ok [2] := by decide +kernel
  have hchannels : channels (residuesOf LinearSystem.one.matrix) [] [2]
      = .ok [⟨2, LinearSystem.one.matrix⟩] := by decide +kernel
  have hfloor : ([⟨2, LinearSystem.one.matrix⟩].map (Channel.prime (n := 1))).foldl max 0 = 2 := rfl
  show fromGiven (residuesOf LinearSystem.one.matrix) [] settings [2] extent _ = _
  unfold fromGiven
  simp only [bind, Except.bind, if_neg hordered, hadmitted, hchannels, hallowance]
  rw [hfloor, hsplit]

/-- With a margin between 1 and `log₂ 3`, the basis for the equation `x = 1` is too small. -/
theorem selectFor_one {margin : Quantity} {value : ℚ} (hone : 1 ≤ value)
    (hless : value < leastMargin)
    (hextent : Extent.ofMargin 1 1 margin.toNumber = .ok (.bits value)) :
    selectFor LinearSystem.one.profile { margin := margin } (.given [2]) [] ⟨.listed 1 2 [3], []⟩
      = (.error (.lifting (.basisTooSmall leastMargin 2)), ⟨.listed 1 2 [], []⟩) := by
  have hempty : (Extent.bits value).isNear [] = false :=
    decide_eq_false (not_lt.2 (zero_le_one.trans hone))
  have hnear : (Extent.bits value).isNear [3] = true := by
    have hthree : leastMargin
        ≤ mkRat ([3].foldl (fun s p => s + Extent.sixteenths p) 0 : ℕ) 16 := by
      decide +kernel
    exact decide_eq_true (hless.trans_le hthree)
  have hcovered : (Extent.bits value).isCovered [3] = true := by
    have hthree : log2Sum [3] = leastMargin := by decide +kernel
    exact decide_eq_true (hless.trans_eq hthree.symm)
  have hallowance : ({ margin := margin } : Settings).allowance = Settings.allowance {} := rfl
  have hchosen := chooseModuli_one hallowance hempty hnear hcovered
  have hnorm : LinearSystem.one.profile.matrix.maxAbs = 1 := by decide +kernel
  have hadmitted : admitAll LinearSystem.one.profile.residues [] = .ok [] := rfl
  have hresidues : LinearSystem.one.profile.residues = residuesOf LinearSystem.one.matrix := rfl
  unfold selectFor
  dsimp only
  rw [hnorm, if_neg one_ne_zero, hextent, hadmitted]
  simp only [bind, Except.bind, pure, Except.pure]
  rw [hresidues, hchosen]
  rfl

end Selection

/-! ## Which margins are enough -/

namespace Quantity

variable {margin : Quantity}

/-- With less than that, there is a system whose basis is too small. -/
theorem not_isEnough_of_before (hgenuine : margin.toNumber.IsGenuine)
    (hadmitted : Settings.admitMargin margin = .ok margin)
    (hbelow : margin.toNumber.before (.double false leastMargin) = true) : ¬ margin.IsEnough := by
  intro henough
  have hone : margin.isBelow 1 = false := by
    unfold Settings.admitMargin at hadmitted
    split at hadmitted
    · cases hadmitted
    next h => exact Bool.eq_false_iff.2 h
  obtain ⟨hvalue, hless, hextent⟩ := Extent.ofMargin_one_one hgenuine hone hbelow
  have hread : SomeSystem.read (.list [.list [.entry 1]]) (.list [.entry 1])
      = .ok (.ofLinear LinearSystem.one) := rfl
  have hsource : (PrimeSource.listed 1 2 [3]).IsGenuine :=
    PrimeSource.isGenuine_of_all (by decide +kernel)
  have hselect : SomePlan.select (.list [.list [.entry 1]]) (.list [.entry 1]) { margin := margin }
      (.given [2]) [] ⟨.listed 1 2 [3], []⟩
        = (.error (.lifting (.basisTooSmall leastMargin 2)), ⟨.listed 1 2 [], []⟩) := by
    rw [SomePlan.select_of_read hread, Selection.selectFor_one hvalue hless hextent]
    rfl
  rcases henough.fails hread rfl hsource hselect with (h | h | h) | ⟨p, k, -, h⟩ <;> cases h

/-- Of the margins that the settings admit, those from `log₂ 3` up are enough, and no others. -/
theorem isEnough_iff (hgenuine : margin.toNumber.IsGenuine)
    (hadmitted : Settings.admitMargin margin = .ok margin) :
    margin.IsEnough ↔ margin.toNumber.before (.double false leastMargin) = false := by
  constructor
  · intro henough
    by_contra hbelow
    exact not_isEnough_of_before hgenuine hadmitted (Bool.not_eq_false _ ▸ hbelow) henough
  · intro hmargin
    constructor
    · intro norm n extent basis hnorm hn hextent hbasis hcovered
      rcases Extent.ofMargin_cases hmargin hextent with ⟨f, rfl⟩ | ⟨value, hvalue, rfl⟩
      · cases hcovered
      · exact hbasis.two_mul_lt_prod hnorm hn hvalue hcovered
    · rintro n a b S settings choice supplied supply after f hread rfl hsource h
      exact Selection.isChoiceFault_of_selectFor hsource hmargin
        (SomePlan.selectFor_of_select_eq_error hread h)

/-- The default margin is enough, and the least that is admitted is not. -/
theorem isEnough_two_not_one :
    (number (.double false 2)).IsEnough ∧ ¬ (number (.double false 1)).IsEnough := by
  have htwo : (number (.double false 2)).toNumber.IsGenuine :=
    ⟨by norm_num, by decide +kernel⟩
  have hone : (number (.double false 1)).toNumber.IsGenuine :=
    ⟨by norm_num, by decide +kernel⟩
  refine ⟨(isEnough_iff htwo (by decide +kernel)).2 (by decide +kernel), ?_⟩
  rw [isEnough_iff hone (by decide +kernel)]
  decide +kernel

end Quantity

/-- With the margin 1 the prime 3 covers what the equation `x = 1` asks for, which is less than its
corrections need, so the selection fails for its basis. -/
theorem SomePlan.select_one_basisTooSmall :
    Settings.admitMargin (.number (.double false 1)) = .ok (.number (.double false 1)) ∧
    Extent.ofMargin 1 1 (.double false 1) = .ok (.bits 1) ∧
    (Extent.bits 1).isCovered [3] = true ∧ [3].prod ≤ 2 * (1 * 1 + 1) ∧
    (SomePlan.select (.list [.list [.entry 1]]) (.list [.entry 1])
      { margin := .number (.double false 1) } (.given [2]) [] ⟨.listed 1 2 [3], []⟩).1.map
        (fun P => P.plan.basis) = .error (.lifting (.basisTooSmall leastMargin 2)) := by
  refine ⟨by decide +kernel, by decide +kernel, by decide +kernel, by decide, by decide +kernel⟩

end PadicLift
