import PadicLift.Proofs.Modular.Inversion

/-!
# Residues of stored numbers

Numbers that are handed over as a plain list are stored before they are reduced. Signed words and
integers of any size keep their values. Unsigned words past the signed ones become negative first,
so such a list is reduced, inverted and tested as if every number were smaller by `2 ^ 64`
(`Nested.stored`). That keeps the residues exactly for the moduli that divide `2 ^ 64`.
-/

namespace PadicLift

-- Powers take their instance from the core library, as they do beside the definitions.
attribute [local instance (high)] instPowNat

variable {n p : ℕ}

/-! ## What is stored -/

namespace Nested

/-- All numbers, at least one, are unsigned words and not signed ones. -/
def IsUnsigned (x : Nested) : Prop := x.toList ≠ [] ∧ ∀ v ∈ x.toList, isLargeWord v = true

instance (x : Nested) : Decidable x.IsUnsigned := inferInstanceAs (Decidable (_ ∧ _))

/-- One kind of integers suits all numbers: signed words, unsigned words past the signed ones, or
integers of any size. -/
def SuitsIntegers (x : Nested) : Prop :=
  (∀ v ∈ x.toList, isWord v = true) ∨ (∀ v ∈ x.toList, isLargeWord v = true) ∨
    ∃ v ∈ x.toList, v < -2 ^ 63 ∨ 2 ^ 64 ≤ v

/-- The numbers that are reduced. In a plain list unsigned words turn negative. -/
def stored (plain : Bool) (x : Nested) : Nested :=
  if plain = true ∧ x.IsUnsigned then x.map (· - 2 ^ 64) else x

/-- What is stored has the residues of what was handed over. -/
def KeepsResidues (plain : Bool) (p : ℕ) (x : Nested) : Prop :=
  plain = true → x.IsUnsigned → p ∣ 2 ^ 64

variable {x : Nested}

theorem stored_false (x : Nested) : x.stored false = x := if_neg fun h => Bool.false_ne_true h.1

theorem stored_of_not_isUnsigned (plain : Bool) (h : ¬ x.IsUnsigned) : x.stored plain = x :=
  if_neg fun hplain => h hplain.2

theorem stored_of_isUnsigned (h : x.IsUnsigned) : x.stored true = x.map (· - 2 ^ 64) :=
  if_pos ⟨rfl, h⟩

theorem isRegular_stored (plain : Bool) (hx : x.isRegular = true) :
    (x.stored plain).isRegular = true := by
  unfold stored
  split
  · exact isRegular_map _ hx
  · exact hx

/-- Unsigned words past the signed ones are no signed words. -/
theorem IsUnsigned.exists_not_isWord (h : x.IsUnsigned) : ∃ v ∈ x.toList, isWord v = false := by
  obtain ⟨v, hv⟩ := List.exists_mem_of_ne_nil _ h.1
  have hlarge := h.2 v hv
  refine ⟨v, hv, ?_⟩
  simp only [isLargeWord, isWord, Bool.and_eq_true, Bool.and_eq_false_iff, decide_eq_true_eq,
    decide_eq_false_iff_not] at hlarge ⊢
  omega

/-- The storage that is chosen where one kind of integers suits all numbers. -/
theorem SuitsIntegers.storage_cases (h : x.SuitsIntegers) :
    (Storage.of x.toList = .word ∧ ¬ x.IsUnsigned) ∨
    (Storage.of x.toList = .unsigned ∧ x.IsUnsigned) ∨
    (Storage.of x.toList = .exact ∧ ¬ x.IsUnsigned) := by
  unfold Storage.of
  by_cases hword : x.toList.all isWord = true
  · refine .inl ⟨if_pos hword, fun hunsigned => ?_⟩
    obtain ⟨v, hv, hnot⟩ := hunsigned.exists_not_isWord
    rw [List.all_eq_true.1 hword v hv] at hnot
    cases hnot
  by_cases hlarge : x.toList.all isLargeWord = true
  · refine .inr (.inl ⟨by rw [if_neg hword, if_pos hlarge], fun hnil => hword ?_,
      List.all_eq_true.1 hlarge⟩)
    rw [hnil]
    rfl
  have hneither : ¬ (x.toList.all fun v => isWord v || isLargeWord v) = true := by
    rcases h with h | h | ⟨v, hv, hout⟩
    · exact absurd (List.all_eq_true.2 h) hword
    · exact absurd (List.all_eq_true.2 h) hlarge
    · intro hall
      have hin := List.all_eq_true.1 hall v hv
      simp only [isWord, isLargeWord, Bool.or_eq_true, Bool.and_eq_true, decide_eq_true_eq] at hin
      omega
  exact .inr (.inr ⟨by rw [if_neg hword, if_neg hlarge, if_neg hneither],
    fun hunsigned => hlarge (List.all_eq_true.2 hunsigned.2)⟩)

end Nested

/-- An unsigned word past the signed ones becomes smaller by `2 ^ 64`. -/
theorem wrap_of_isLargeWord {v : ℤ} (h : isLargeWord v = true) :
    Machine.wrap v = v - 2 ^ 64 := by
  simp only [isLargeWord, Bool.and_eq_true, decide_eq_true_eq] at h
  rw [Machine.wrap, Int.bmod_def]
  split <;> omega

/-! ## Reduction -/

section Reduction

variable {x y : Nested}

/-- Where one kind of integers suits all numbers, the stored ones are reduced. -/
theorem reduceStored_eq_ok (hp : 2 ≤ p) (hmax : p ≤ maxModulus) (hx : x.isRegular = true)
    (hsuits : x.SuitsIntegers) : reduceStored x p = .ok ((x.stored true).map (· % p)) := by
  have hpos : (0 : ℤ) < p := by omega
  have hword : isWord p = true := by
    have hcapacity : maxModulus ≤ Machine.wordCapacity := by decide
    exact Machine.isWord_of_abs_le (by rw [abs_of_pos hpos]; omega)
  have hchosen : reduceStored x p = if Storage.of x.toList = .exact then reduceExact x p
      else .ok (x.map ((Storage.of x.toList).reduce p)) := by
    unfold reduceStored
    rw [hx, hword]
    rfl
  rw [hchosen]
  rcases hsuits.storage_cases with ⟨hstorage, hnot⟩ | ⟨hstorage, hunsigned⟩ | ⟨hstorage, hnot⟩
  · rw [hstorage, if_neg (by decide), Nested.stored_of_not_isUnsigned true hnot]
    refine congrArg Except.ok (Nested.map_congr x fun v _ => ?_)
    exact Machine.word_rem_eq v hpos
  · rw [hstorage, if_neg (by decide), Nested.stored_of_isUnsigned hunsigned, Nested.map_map]
    refine congrArg Except.ok (Nested.map_congr x fun v hv => ?_)
    rw [← wrap_of_isLargeWord (hunsigned.2 v hv)]
    exact Machine.word_rem_eq _ hpos
  · rw [hstorage, if_pos rfl, Nested.stored_of_not_isUnsigned true hnot]
    exact reduceExact_eq_ok (by omega) hmax hx

/-- A plain list is reduced as what is stored of it. -/
theorem reduce_eq_ok (hp : 2 ≤ p) (hmax : p ≤ maxModulus) (hx : x.isRegular = true)
    {plain : Bool} (hsuits : plain = true → x.SuitsIntegers) :
    reduce plain x p = .ok ((x.stored plain).map (· % p)) := by
  cases plain with
  | false =>
    rw [Nested.stored_false]
    exact reduceExact_eq_ok (by omega) hmax hx
  | true => exact reduceStored_eq_ok hp hmax hx (hsuits rfl)

/-- Reducing nested lists as they come is reducing what is stored of them. -/
theorem reduce_eq_reduce_stored (hp : 2 ≤ p) (hmax : p ≤ maxModulus) (hx : x.isRegular = true)
    {plain : Bool} (hsuits : plain = true → x.SuitsIntegers) :
    reduce plain x p = reduce false (x.stored plain) p := by
  rw [reduce_eq_ok hp hmax hx hsuits]
  exact (reduceExact_eq_ok (by omega) hmax (Nested.isRegular_stored plain hx)).symm

/-- A plain list has the residues of its exact integers exactly if they survive the storage. -/
theorem reduce_eq_reduce_exact_iff (hp : 2 ≤ p) (hmax : p ≤ maxModulus) (hx : x.isRegular = true)
    {plain : Bool} (hsuits : plain = true → x.SuitsIntegers) :
    reduce plain x p = reduce false x p ↔ x.KeepsResidues plain p := by
  have hexact : reduce false x p = .ok (x.map (· % p)) := reduceExact_eq_ok (by omega) hmax hx
  rw [reduce_eq_ok hp hmax hx hsuits, hexact, Except.ok.injEq]
  by_cases hstored : plain = true ∧ x.IsUnsigned
  · obtain ⟨rfl, hunsigned⟩ := hstored
    have hshift : ∀ v : ℤ, (v - 2 ^ 64) % p = v % p ↔ p ∣ 2 ^ 64 := by
      intro v
      rw [← Int.natCast_dvd_natCast, ← Int.ModEq, Int.modEq_iff_dvd, sub_sub_cancel]
      rfl
    rw [Nested.stored_of_isUnsigned hunsigned, Nested.map_map, Nested.map_eq_map_iff]
    simp only [hshift]
    obtain ⟨v, hv⟩ := List.exists_mem_of_ne_nil _ hunsigned.1
    exact ⟨fun hall _ _ => hall v hv, fun hkeeps _ _ => hkeeps rfl hunsigned⟩
  · rw [Nested.stored, if_neg hstored]
    exact ⟨fun _ hplain hunsigned => absurd ⟨hplain, hunsigned⟩ hstored, fun _ => rfl⟩

/-! ## Inversion -/

/-- The inverse depends on the reduced matrix only. -/
theorem invert_congr (hp : 2 ≤ p) (hmax : p ≤ maxModulus) {plain plain' : Bool}
    (h : reduce plain x p = reduce plain' y p) : invert plain x p = invert plain' y p := by
  simp only [invert, checkModulus_natCast hp hmax, bind, Except.bind, h]

/-- So does the check of an inverse. -/
theorem areInverseAs_congr {x' y' : Nested} {plainX plainY plainX' plainY' : Bool}
    (hx : reduce plainX x p = reduce plainX' x' p) (hy : reduce plainY y p = reduce plainY' y' p) :
    areInverseAs plainX plainY x y p = areInverseAs plainX' plainY' x' y' p := by
  simp only [areInverseAs, hx, hy]

/-- Modulo `p`, a matrix is determined by its inverse. -/
theorem Mat.IsInverse.modulo_eq {A A' B : Mat n n} (h : A.IsInverse p B) (h' : A'.IsInverse p B) :
    A.modulo p = A'.modulo p := by
  calc A.modulo p = A.modulo p * (B.modulo p * A'.modulo p) := by rw [h'.mul_eq_one, mul_one]
    _ = A.modulo p * B.modulo p * A'.modulo p := (mul_assoc _ _ _).symm
    _ = A'.modulo p := by rw [mul_eq_one_comm.1 h.mul_eq_one, one_mul]

/-- What is returned as the inverse of a matrix is its inverse. -/
theorem isInverse_of_invert (hp : 2 ≤ p) (hmax : p ≤ maxModulus) (hn : 0 < n) {A B : Mat n n}
    (h : invert false (.ofMat A) p = .ok ⟨n, .inverse B⟩) : A.IsInverse p B := by
  rw [invert_ofMat hn hp hmax] at h
  obtain ⟨o, ho, heq⟩ := Outcome.map_eq_ok.1 h
  cases heq
  exact Mat.isInverse_of_inverseMod hp hmax ho

/-- A matrix with an inverse is inverted right exactly if its residues survive the storage. -/
theorem invert_eq_invert_exact_iff (hp : 2 ≤ p) (hmax : p ≤ maxModulus) {A B : Mat n n}
    (hx : (Nested.ofMat A).isRegular = true) {plain : Bool}
    (hsuits : plain = true → (Nested.ofMat A).SuitsIntegers)
    (hinverse : invert false (.ofMat A) p = .ok ⟨n, .inverse B⟩) :
    invert plain (.ofMat A) p = invert false (.ofMat A) p ↔
      (Nested.ofMat A).KeepsResidues plain p := by
  refine ⟨fun h hplain hunsigned => ?_, fun hkeeps =>
    invert_congr hp hmax ((reduce_eq_reduce_exact_iff hp hmax hx hsuits).2 hkeeps)⟩
  obtain ⟨v, hv⟩ := List.exists_mem_of_ne_nil _ hunsigned.1
  obtain ⟨i, -, -⟩ := Nested.mem_toList_ofMat hv
  have hn : 0 < n := i.pos
  obtain rfl := hplain
  have hstored : (Nested.ofMat A).stored true = .ofMat (A.map (· - 2 ^ 64)) := by
    rw [Nested.stored_of_isUnsigned hunsigned, Nested.map_ofMat]
  have hshifted : invert false (.ofMat (A.map (· - 2 ^ 64))) p = .ok ⟨n, .inverse B⟩ := by
    rw [← hstored, ← hinverse, ← h]
    exact (invert_congr hp hmax (reduce_eq_reduce_stored hp hmax hx hsuits)).symm
  -- Two matrices with one inverse have the same residues, so their difference vanishes modulo `p`.
  have hmodulo := (isInverse_of_invert hp hmax hn hinverse).modulo_eq
    (isInverse_of_invert hp hmax hn hshifted)
  have hentry := congrFun (congrFun hmodulo ⟨0, hn⟩) ⟨0, hn⟩
  rw [Mat.modulo_apply, Mat.modulo_apply, Mat.entry_map, ZMod.intCast_eq_intCast_iff,
    Int.modEq_comm, Int.modEq_iff_dvd, sub_sub_cancel] at hentry
  exact Int.natCast_dvd_natCast.1 hentry

end Reduction

/-! ## Plain lists and exact integers -/

/-- How nested lists behave modulo `p` when they are handed over as plain lists, against their exact
integers. -/
structure Nested.ActsAsStored (p : ℕ) (x : Nested) : Prop where
  reduce_exact : reduce false x p = .ok (x.map (· % p))
  mem_range : ∀ v ∈ (x.map (· % (p : ℤ))).toList, 0 ≤ v ∧ v < p
  reduce_plain : reduce true x p = .ok ((x.stored true).map (· % p))
  reduce_iff : reduce true x p = reduce false x p ↔ x.KeepsResidues true p
  invert_plain : invert true x p = invert false (x.stored true) p
  invert_of_keeps : x.KeepsResidues true p → invert true x p = invert false x p
  /-- Where there is an inverse, a lost residue is a wrong answer. -/
  invert_iff : ∀ {n : ℕ} {A B : Mat n n}, x = .ofMat A →
    invert false x p = .ok ⟨n, .inverse B⟩ →
    (invert true x p = invert false x p ↔ x.KeepsResidues true p)

/-- Whatever storage of integers is chosen, plain lists act as what is stored of them. So they have
the residues, the inverse and the inverses of their exact integers unless they are unsigned words
and the modulus does not divide `2 ^ 64`; then they have other residues. -/
theorem Nested.actsAsStored {x : Nested} (hp : 2 ≤ p) (hmax : p ≤ maxModulus)
    (hx : x.isRegular = true) (hsuits : x.SuitsIntegers) :
    x.ActsAsStored p ∧
    ∀ {y : Nested}, y.isRegular = true → y.SuitsIntegers → ∀ plainX plainY,
      areInverseAs plainX plainY x y p = areInverse (x.stored plainX) (y.stored plainY) p ∧
      (x.KeepsResidues plainX p → y.KeepsResidues plainY p →
        areInverseAs plainX plainY x y p = areInverse x y p) := by
  have hexact : reduce false x p = .ok (x.map (· % p)) := reduceExact_eq_ok (by omega) hmax hx
  have hiff : reduce true x p = reduce false x p ↔ x.KeepsResidues true p :=
    reduce_eq_reduce_exact_iff hp hmax hx fun _ => hsuits
  refine ⟨⟨hexact, fun v hv => ?_, reduce_eq_ok hp hmax hx fun _ => hsuits, hiff,
    invert_congr hp hmax (reduce_eq_reduce_stored hp hmax hx fun _ => hsuits),
    fun hkeeps => invert_congr hp hmax (hiff.2 hkeeps), ?_⟩, ?_⟩
  · rw [toList_map] at hv
    obtain ⟨u, -, rfl⟩ := List.mem_map.1 hv
    have hpos : (0 : ℤ) < p := by omega
    exact ⟨Int.emod_nonneg u hpos.ne', Int.emod_lt_of_pos u hpos⟩
  · rintro n A B rfl hinverse
    exact invert_eq_invert_exact_iff hp hmax hx (fun _ => hsuits) hinverse
  · intro y hy hsuitsY plainX plainY
    refine ⟨?_, fun hkeepsX hkeepsY => ?_⟩
    · exact areInverseAs_congr (reduce_eq_reduce_stored hp hmax hx fun _ => hsuits)
        (reduce_eq_reduce_stored hp hmax hy fun _ => hsuitsY)
    · exact areInverseAs_congr
        ((reduce_eq_reduce_exact_iff hp hmax hx fun _ => hsuits).2 hkeepsX)
        ((reduce_eq_reduce_exact_iff hp hmax hy fun _ => hsuitsY).2 hkeepsY)

/-- The number `2 ^ 63` survives the storage modulo 8, not modulo 7. -/
theorem Nested.actsAsStored_unsigned :
    let x : Nested := .list [.list [.entry (2 ^ 63)]]
    x.ActsAsStored 8 ∧ invert true x 8 = invert false x 8 ∧
    x.ActsAsStored 7 ∧ reduce true x 7 ≠ reduce false x 7 := by
  intro x
  have hsuits : x.SuitsIntegers := .inr (.inl (by decide))
  obtain ⟨hkeeps, -⟩ := actsAsStored (x := x) (show 2 ≤ 8 by decide) (by decide) rfl hsuits
  obtain ⟨hloses, -⟩ := actsAsStored (x := x) (show 2 ≤ 7 by decide) (by decide) rfl hsuits
  refine ⟨hkeeps, hkeeps.invert_of_keeps fun _ _ => by decide, hloses, fun heq => ?_⟩
  exact absurd (hloses.reduce_iff.1 heq rfl ⟨by decide, by decide⟩) (by decide)

/-- Modulo 7 the number `2 ^ 63` is 1, and so is its inverse. In a plain list it is 6. -/
theorem Nested.reduce_plain_unsigned :
    let x : Nested := .list [.list [.entry (2 ^ 63)]]
    let one : Nested := .list [.list [.entry 1]]
    reduce false x 7 = .ok (.list [.list [.entry 1]]) ∧
    reduce true x 7 = .ok (.list [.list [.entry 6]]) ∧
    areInverse x one 7 = .ok true ∧ areInverseAs true true x one 7 = .ok false :=
  ⟨rfl, rfl, by decide +kernel, by decide +kernel⟩

end PadicLift
