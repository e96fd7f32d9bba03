import PadicLift.Proofs.Reconstruction.Remainders

/-!
# Which moduli can be combined

Each step of `extend` inverts the product of the moduli so far modulo the next one. So a run gets to
its end exactly if the moduli are pairwise coprime, whatever the residues are, and otherwise the
only fault is a missing inverse.

The number found is the only one of its range with the given residues: two numbers with equal
residues differ by a multiple of every modulus, hence of their product. Nothing in this description
depends on the order of the pairs.
-/

namespace PadicLift
namespace Remainders

/-- `x` is below the product of the moduli and has all the residues. -/
structure IsCombined (rs ms : List ℤ) (x : ℤ) : Prop where
  nonneg : 0 ≤ x
  lt_prod : x < ms.prod
  modEq : List.Forall₂ (fun r m => x ≡ r [ZMOD m]) rs ms

/-! ## Runs that reach the end -/

/-- The inverse that a step takes exists if the moduli so far are coprime to the next one. -/
theorem isCoprime_of_inverseMod_fmod {M m b : ℤ} (hm : 0 < m)
    (h : inverseMod (Int.fmod M m) m = .ok b) : IsCoprime M m := by
  have hsize : m = m.toNat := (Int.toNat_of_nonneg hm.le).symm
  rw [Int.fmod_eq_emod_of_nonneg _ hm.le] at h
  apply isCoprime_emod_iff.1
  rw [hsize] at h ⊢
  apply isCoprime_of_inverseMod (by omega) h

/-- A run that ends has inverted every product of moduli it met. The product grows by a factor at
each step, and the new product is coprime to a later modulus only if both factors are. -/
theorem pairwise_of_extend {x M y : ℤ} {rs ms : List ℤ} (hlength : rs.length = ms.length)
    (hpos : ∀ m ∈ ms, 0 < m) (h : extend x M rs ms = .ok y) : (M :: ms).Pairwise IsCoprime := by
  induction ms generalizing x M rs with
  | nil => exact List.pairwise_singleton IsCoprime M
  | cons m ms ih =>
    obtain ⟨r, rs, rfl⟩ := List.exists_cons_of_length_eq_add_one hlength
    rw [List.forall_mem_cons] at hpos
    unfold extend at h
    rw [if_neg hpos.1.ne'] at h
    obtain ⟨inverse, hinverse, h⟩ := Outcome.bind_eq_ok.1 h
    have hcoprime := isCoprime_of_inverseMod_fmod hpos.1 hinverse
    have hlater := ih (Nat.succ_injective hlength) hpos.2 h
    rw [List.pairwise_cons] at hlater
    simp only [List.pairwise_cons, List.forall_mem_cons]
    refine ⟨⟨hcoprime, ?_⟩, ?_, hlater.2⟩
    · intro q hq
      exact (hlater.1 q hq).of_mul_left_left
    · intro q hq
      exact (hlater.1 q hq).of_mul_left_right

/-- With positive moduli, one for each residue, only an inverse can be missing. -/
theorem extend_eq_error {x M : ℤ} {rs ms : List ℤ} {f : Fault} (hlength : rs.length = ms.length)
    (hpos : ∀ m ∈ ms, 0 < m) (h : extend x M rs ms = .error f) : f = .argument .notInvertible := by
  induction ms generalizing x M rs with
  | nil =>
    rw [List.length_eq_zero_iff.1 hlength] at h
    cases h
  | cons m ms ih =>
    obtain ⟨r, rs, rfl⟩ := List.exists_cons_of_length_eq_add_one hlength
    rw [List.forall_mem_cons] at hpos
    unfold extend at h
    rw [if_neg hpos.1.ne'] at h
    rcases Outcome.bind_eq_error.1 h with h | ⟨inverse, -, h⟩
    · exact inverseMod_eq_error h
    · exact ih (Nat.succ_injective hlength) hpos.2 h

/-- The first pair starts the run. -/
theorem combine_cons {r m : ℤ} (rs ms : List ℤ) (hm : 0 < m) :
    combine (r :: rs) (m :: ms) = extend (Int.fmod r m) m rs ms := by
  show (if m = 0 then _ else _) = _
  rw [if_neg hm.ne']

section
variable {rs ms : List ℤ} (hlength : rs.length = ms.length) (hpos : ∀ m ∈ ms, 0 < m)
include hlength hpos

/-- Combining succeeds only with pairwise coprime moduli, -/
theorem pairwise_of_combine {y : ℤ} (h : combine rs ms = .ok y) : ms.Pairwise IsCoprime := by
  cases ms with
  | nil => exact List.Pairwise.nil
  | cons m ms =>
    obtain ⟨r, rs, rfl⟩ := List.exists_cons_of_length_eq_add_one hlength
    rw [List.forall_mem_cons] at hpos
    rw [combine_cons rs ms hpos.1] at h
    exact pairwise_of_extend (Nat.succ_injective hlength) hpos.2 h

/-- and can only fail because of a missing inverse. -/
theorem combine_eq_error {f : Fault} (hne : ms ≠ []) (h : combine rs ms = .error f) :
    f = .argument .notInvertible := by
  obtain ⟨m, ms, rfl⟩ := List.exists_cons_of_ne_nil hne
  obtain ⟨r, rs, rfl⟩ := List.exists_cons_of_length_eq_add_one hlength
  rw [List.forall_mem_cons] at hpos
  rw [combine_cons rs ms hpos.1] at h
  exact extend_eq_error (Nat.succ_injective hlength) hpos.2 h

/-- Moduli that share a factor stop the run, consistent residues or not. -/
theorem combine_eq_notInvertible (hne : ms ≠ []) (hpair : ¬ ms.Pairwise IsCoprime) :
    combine rs ms = .error (.argument .notInvertible) := by
  cases h : combine rs ms with
  | ok y => exact absurd (pairwise_of_combine hlength hpos h) hpair
  | error f => rw [combine_eq_error hlength hpos hne h]

end

/-! ## One number for each choice of residues -/

/-- A number coprime to each member of a list is coprime to their product. -/
theorem isCoprime_prod {m : ℤ} {ms : List ℤ} (h : ∀ q ∈ ms, IsCoprime m q) :
    IsCoprime m ms.prod := by
  induction ms with
  | nil => exact isCoprime_one_right
  | cons q ms ih =>
    rw [List.forall_mem_cons] at h
    rw [List.prod_cons]
    exact h.1.mul_right (ih h.2)

theorem prod_dvd_of_pairwise {d : ℤ} {ms : List ℤ} (hpair : ms.Pairwise IsCoprime)
    (h : ∀ m ∈ ms, m ∣ d) : ms.prod ∣ d := by
  induction ms with
  | nil => exact one_dvd d
  | cons m ms ih =>
    rw [List.pairwise_cons] at hpair
    rw [List.forall_mem_cons] at h
    rw [List.prod_cons]
    exact (isCoprime_prod hpair.1).mul_dvd h.1 (ih hpair.2 h.2)

/-- Having all the residues is a condition on the pairs, in whatever order they stand. -/
theorem forall₂_modEq_iff {rs ms : List ℤ} (hlength : rs.length = ms.length) {x : ℤ} :
    List.Forall₂ (fun r m => x ≡ r [ZMOD m]) rs ms ↔ ∀ p ∈ rs.zip ms, x ≡ p.1 [ZMOD p.2] := by
  rw [List.forall₂_iff_zip]
  simp [hlength]

/-- Pairwise coprime moduli admit one combination only. -/
theorem IsCombined.unique {rs ms : List ℤ} (hpair : ms.Pairwise IsCoprime) {x y : ℤ}
    (hx : IsCombined rs ms x) (hy : IsCombined rs ms y) : x = y := by
  have hdvd : ∀ m ∈ ms, m ∣ y - x := by
    intro m hm
    obtain ⟨j, hj, rfl⟩ := List.getElem_of_mem hm
    have hr : j < rs.length := hx.modEq.length_eq ▸ hj
    exact ((hx.modEq.get hr hj).trans (hy.modEq.get hr hj).symm).dvd
  have hmod : x ≡ y [ZMOD ms.prod] := Int.modEq_iff_dvd.2 (prod_dvd_of_pairwise hpair hdvd)
  rw [Int.ModEq, Int.emod_eq_of_lt hx.nonneg hx.lt_prod,
    Int.emod_eq_of_lt hy.nonneg hy.lt_prod] at hmod
  exact hmod

/-- With pairwise coprime moduli the combination is found. -/
theorem isCombined_of_combine {rs ms : List ℤ} (hlength : rs.length = ms.length) (hne : ms ≠ [])
    (hpos : ∀ m ∈ ms, 0 < m) (hpair : ms.Pairwise IsCoprime) :
    ∃ x, combine rs ms = .ok x ∧ IsCombined rs ms x := by
  obtain ⟨x, hx, hmod⟩ := combine_eq_ok hlength hne hpos hpair
  have hrange := combine_mem_range hx hlength hpos
  exact ⟨x, hx, hrange.1, hrange.2, hmod⟩

/-! ## The order of the pairs -/

section
variable {rs ms rs' ms' : List ℤ} (hlength : rs.length = ms.length)
  (hlength' : rs'.length = ms'.length) (hperm : (rs'.zip ms').Perm (rs.zip ms))
include hlength hlength' hperm

/-- The same pairs have the same moduli. -/
theorem moduli_perm : ms'.Perm ms := by
  have hsnd := hperm.map Prod.snd
  rwa [List.map_snd_zip hlength'.ge, List.map_snd_zip hlength.ge] at hsnd

theorem isCombined_perm {x : ℤ} (h : IsCombined rs ms x) : IsCombined rs' ms' x := by
  refine ⟨h.nonneg, ?_, ?_⟩
  · rw [(moduli_perm hlength hlength' hperm).prod_eq]
    exact h.lt_prod
  · rw [forall₂_modEq_iff hlength']
    intro p hp
    exact (forall₂_modEq_iff hlength).1 h.modEq p (hperm.mem_iff.1 hp)

/-- Both orders succeed with the one number there is, or both stop at a missing inverse. -/
theorem combine_perm (hne : ms ≠ []) (hpos : ∀ m ∈ ms, 0 < m) :
    combine rs' ms' = combine rs ms := by
  have hmoduli := moduli_perm hlength hlength' hperm
  have hne' : ms' ≠ [] := by
    rintro rfl
    exact hne hmoduli.nil_eq.symm
  have hpos' : ∀ m ∈ ms', 0 < m := fun m hm => hpos m (hmoduli.mem_iff.1 hm)
  have hpairs : ms'.Pairwise IsCoprime ↔ ms.Pairwise IsCoprime :=
    hmoduli.pairwise_iff IsCoprime.symm
  by_cases hpair : ms.Pairwise IsCoprime
  · obtain ⟨x, hx, hcombined⟩ := isCombined_of_combine hlength hne hpos hpair
    obtain ⟨y, hy, hcombined'⟩ := isCombined_of_combine hlength' hne' hpos' (hpairs.2 hpair)
    have hxy : y = x :=
      hcombined'.unique (hpairs.2 hpair) (isCombined_perm hlength hlength' hperm hcombined)
    rw [hx, hy, hxy]
  · rw [combine_eq_notInvertible hlength hpos hne hpair,
      combine_eq_notInvertible hlength' hpos' hne' fun h => hpair (hpairs.1 h)]

end

/-- For pairwise coprime moduli `combine` finds the only number of the range with the given
residues; for all other moduli it fails, whatever the residues. The order of the pairs never
matters. -/
theorem combine_decides {rs ms : List ℤ} (hlength : rs.length = ms.length) (hne : ms ≠ [])
    (hpos : ∀ m ∈ ms, 0 < m) :
    (ms.Pairwise IsCoprime → ∃ x, combine rs ms = .ok x ∧ ∀ y, IsCombined rs ms y ↔ y = x) ∧
    (¬ ms.Pairwise IsCoprime → combine rs ms = .error (.argument .notInvertible)) ∧
    ∀ rs' ms' : List ℤ, rs'.length = ms'.length → (rs'.zip ms').Perm (rs.zip ms) →
      combine rs' ms' = combine rs ms := by
  refine ⟨?_, combine_eq_notInvertible hlength hpos hne, ?_⟩
  · intro hpair
    obtain ⟨x, hx, hcombined⟩ := isCombined_of_combine hlength hne hpos hpair
    refine ⟨x, hx, fun y => ⟨fun hy => hy.unique hpair hcombined, ?_⟩⟩
    rintro rfl
    exact hcombined
  · intro rs' ms' hlength' hperm
    exact combine_perm hlength hlength' hperm hne hpos

/-- A negative residue and the modulus 1 are as good as others; residues of one number for moduli
with a common factor are not enough. -/
theorem combine_decides_four_nine_one :
    combine [-1, 16, 5] [4, 9, 1] = .ok 7 ∧ combine [5, -1, 16] [1, 4, 9] = .ok 7 ∧
    combine [1, 1] [4, 6] = .error (.argument .notInvertible) := by
  have hthree : [-1, 16, 5].length = [(4 : ℤ), 9, 1].length := rfl
  have htwo : [(1 : ℤ), 1].length = [(4 : ℤ), 6].length := rfl
  have hcoprime := combine_decides hthree (by simp) (by decide)
  have hshared := combine_decides htwo (by simp) (by decide)
  obtain ⟨x, hx, hall⟩ := hcoprime.1 (by decide)
  have hseven : IsCombined [-1, 16, 5] [4, 9, 1] 7 := by
    refine ⟨by decide, by decide, ?_⟩
    simp [Int.ModEq]
  rw [← (hall 7).1 hseven] at hx
  refine ⟨hx, ?_, ?_⟩
  · rw [hcoprime.2.2 [5, -1, 16] [1, 4, 9] rfl (by decide), hx]
  · apply hshared.2.1
    decide

end Remainders
end PadicLift
