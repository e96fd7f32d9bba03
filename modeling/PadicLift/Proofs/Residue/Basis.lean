import Mathlib.Algebra.BigOperators.Fin
import Mathlib.Algebra.BigOperators.ModEq
import Mathlib.Data.Int.ModEq
import Mathlib.Data.List.GetD
import Mathlib.RingTheory.Coprime.Lemmas
import Mathlib.RingTheory.Int.Basic
import PadicLift.Proofs.Matrix.Basic
import PadicLift.Proofs.Number.Inverse
import PadicLift.Proofs.Outcome
import PadicLift.Prime.Pool
import PadicLift.Residue.Basis

/-!
# Residue bases and what they decode

`Basis.ofList` admits pairwise coprime moduli, and its weights are congruent to 1 for one modulus
and to 0 for the others (`wellFormed_of_ofList`). So a weighted sum of residues of `v` is congruent
to `v` modulo the product of the basis (`sum_weights_modEq`), and what is decoded is the number
congruent to `v` in the balanced range: `v` itself where it lies in that range. A table of inverses
exists unless some number shares a factor with a modulus.
-/

namespace PadicLift

/-! ## Checked moduli -/

/-- The moduli that pass the check are taken over, and are in range. -/
theorem checkModuli_eq_ok {moduli : List ℤ} {qs : List ℕ} (h : checkModuli moduli = .ok qs) :
    qs.map Int.ofNat = moduli ∧ ∀ q ∈ qs, 2 ≤ q ∧ q ≤ maxModulus := by
  induction moduli generalizing qs with
  | nil =>
    cases h
    simp
  | cons p rest ih =>
    obtain ⟨q, hq, h⟩ := Outcome.bind_eq_ok.1 h
    obtain ⟨rs, hrs, h⟩ := Outcome.bind_eq_ok.1 h
    cases h
    obtain ⟨hlow, hhigh, hcast⟩ := checkModulus_eq_ok hq
    obtain ⟨hmap, hall⟩ := ih hrs
    rw [List.map_cons, hmap, List.forall_mem_cons]
    exact ⟨congrArg (· :: rest) hcast, ⟨hlow, hhigh⟩, hall⟩

namespace Basis

/-! ## Well-formed bases -/

theorem productOf_ofFn {n : ℕ} (q : Fin n → ℕ) : productOf (List.ofFn q) = ∏ h, q h := by
  rw [productOf, ← List.prod_eq_foldl, List.prod_ofFn]

theorem product_eq (b : Basis) : b.product = ∏ h, b.moduli.get h := by
  rw [product, toList_eq_ofFn, productOf_ofFn]

/-- Moduli that are admissible and pairwise coprime, with weights that tell them apart. -/
structure WellFormed (b : Basis) : Prop where
  two_le : ∀ h, 2 ≤ b.moduli.get h
  le_max : ∀ h, b.moduli.get h ≤ maxModulus
  coprime : Pairwise fun g h => Nat.Coprime (b.moduli.get g) (b.moduli.get h)
  weight_self : ∀ h, (b.weights.get h : ℤ) ≡ 1 [ZMOD b.moduli.get h]
  weight_other : ∀ g h, g ≠ h → (b.weights.get h : ℤ) ≡ 0 [ZMOD b.moduli.get g]

/-- The product of all moduli but one. -/
theorem prod_div_eq {n : ℕ} (q : Fin n → ℕ) (h : Fin n) (hpos : 0 < q h) :
    (∏ g, q g) / q h = ∏ g ∈ Finset.univ.erase h, q g := by
  rw [← Finset.mul_prod_erase Finset.univ q (Finset.mem_univ h), Nat.mul_div_cancel_left _ hpos]

/-- A weight is a multiple of the product of all other moduli, and congruent to 1 for its own. -/
theorem weight_eq_ok {n : ℕ} {q : Fin n → ℕ} {h : Fin n} {w : ℕ} (hpos : 0 < q h)
    (hw : weight (∏ g, q g) (q h) = .ok w) :
    Nat.Coprime (∏ g ∈ Finset.univ.erase h, q g) (q h) ∧
      (∏ g ∈ Finset.univ.erase h, q g) ∣ w ∧ (w : ℤ) ≡ 1 [ZMOD q h] := by
  unfold weight at hw
  rw [prod_div_eq q h hpos] at hw
  set others := ∏ g ∈ Finset.univ.erase h, q g
  dsimp only at hw
  split at hw
  next b hb =>
    cases hw
    have hcoprime : Nat.Coprime (others % q h) (q h) :=
      inverse?_isSome_iff.1 (Option.isSome_iff_exists.2 ⟨b, hb⟩)
    have hinv := inverse?_modEq hpos hb
    refine ⟨?_, Dvd.intro b rfl, ?_⟩
    · rwa [Nat.Coprime, ← Nat.gcd_rec, Nat.gcd_comm] at hcoprime
    · push_cast at hinv ⊢
      rw [mul_comm]
      exact ((Int.mod_modEq _ _).symm.mul_left _).trans hinv
  · cases hw

/-- A basis that is accepted is well-formed, and keeps the moduli in their order. -/
theorem wellFormed_of_ofModuli {qs : List ℕ} {b : Basis}
    (hqs : ∀ q ∈ qs, 2 ≤ q ∧ q ≤ maxModulus) (hb : ofModuli qs = .ok b) :
    b.WellFormed ∧ b.moduli.toList = qs := by
  obtain ⟨weights, hweights, hb⟩ := Outcome.bind_eq_ok.1 hb
  rw [Outcome.mapM_eq_ok_iff, List.forall₂_iff_get] at hweights
  obtain ⟨hlength, hweights⟩ := hweights
  cases hb
  have hmodulus : ∀ h : Fin qs.length, 2 ≤ qs.get h ∧ qs.get h ≤ maxModulus := fun h =>
    hqs _ (List.get_mem qs h)
  have hlist : List.ofFn qs.get = qs := List.ofFn_get qs
  have hproduct : productOf qs = ∏ h, qs.get h := by
    conv_lhs => rw [← hlist]
    exact productOf_ofFn qs.get
  have hweight : ∀ h : Fin qs.length, weight (∏ g, qs.get g) (qs.get h)
      = .ok (weights.getD h.val 0) := by
    intro h
    rw [← hproduct, List.getD_eq_getElem _ _ (by have := h.isLt; omega)]
    exact hweights h.val h.isLt (by have := h.isLt; omega)
  have hall := fun h => weight_eq_ok (by have := (hmodulus h).1; omega) (hweight h)
  -- The product of the others holds every other modulus, hence the weights and coprimality.
  have hdvd : ∀ g h : Fin qs.length, g ≠ h → qs.get g ∣ ∏ g ∈ Finset.univ.erase h, qs.get g :=
    fun g h hgh => Finset.dvd_prod_of_mem qs.get (Finset.mem_erase.2 ⟨hgh, Finset.mem_univ g⟩)
  refine ⟨⟨?_, ?_, ?_, ?_, ?_⟩, ?_⟩
  · intro h
    rw [get_ofFn]
    exact (hmodulus h).1
  · intro h
    rw [get_ofFn]
    exact (hmodulus h).2
  · intro g h hgh
    simp only [get_ofFn]
    exact (hall h).1.coprime_dvd_left (hdvd g h hgh)
  · intro h
    simp only [get_ofFn]
    exact (hall h).2.2
  · intro g h hgh
    simp only [get_ofFn]
    have hg := (hdvd g h hgh).trans (hall h).2.1
    exact Int.modEq_zero_iff_dvd.2 (Int.natCast_dvd_natCast.2 hg)
  · show (Vector.ofFn _).toList = qs
    rw [Vector.toList_ofFn, hlist]

/-- A basis that is admitted is well formed and has the given moduli. -/
theorem wellFormed_of_ofList {moduli : List ℤ} {b : Basis} (hb : ofList moduli = .ok b) :
    b.WellFormed ∧ b.moduli.toList.map Int.ofNat = moduli := by
  unfold ofList at hb
  split at hb
  · cases hb
  · obtain ⟨qs, hqs, hb⟩ := Outcome.bind_eq_ok.1 hb
    split at hb
    · cases hb
    · obtain ⟨hmap, hall⟩ := checkModuli_eq_ok hqs
      obtain ⟨hwell, hlist⟩ := wellFormed_of_ofModuli hall hb
      rw [hlist]
      exact ⟨hwell, hmap⟩

/-! ## The balanced range -/

section Balance

variable {M : ℕ}

theorem balanceIn_eq (x : ℤ) :
    balanceIn M x = if ((M / 2 : ℕ) : ℤ) < x % M then x % M - M else x % M := rfl

/-- The balanced remainder is congruent to the number, -/
theorem balanceIn_modEq (x : ℤ) : balanceIn M x ≡ x [ZMOD M] := by
  rw [balanceIn_eq]
  split
  · exact (Int.modEq_sub_modulus_iff.2 (Int.mod_modEq x M).symm).symm
  · exact Int.mod_modEq x M

/-- more than minus half the modulus, -/
theorem neg_lt_balanceIn (hM : 0 < M) (x : ℤ) : -(M : ℤ) < 2 * balanceIn M x := by
  have hnonneg := Int.emod_nonneg x (b := M) (by omega)
  rw [balanceIn_eq]
  split <;> omega

/-- and at most half of it. -/
theorem balanceIn_le (hM : 0 < M) (x : ℤ) : 2 * balanceIn M x ≤ M := by
  have hlt := Int.emod_lt_of_pos x (b := M) (by omega)
  rw [balanceIn_eq]
  split <;> omega

theorem balanceIn_congr {x y : ℤ} (h : x ≡ y [ZMOD M]) : balanceIn M x = balanceIn M y := by
  rw [balanceIn_eq, balanceIn_eq, h.eq]

/-- The balanced range holds one number of each residue class. -/
theorem balanceIn_eq_self {v : ℤ} (hlow : -(M : ℤ) < 2 * v) (hhigh : 2 * v ≤ M) :
    balanceIn M v = v := by
  have hM : 0 < M := by omega
  have hmod := Int.modEq_iff_dvd.1 (balanceIn_modEq (M := M) v)
  have h₁ := neg_lt_balanceIn hM v
  have h₂ := balanceIn_le hM v
  have hzero : v - balanceIn M v = 0 :=
    Int.eq_zero_of_abs_lt_dvd hmod (abs_lt.2 ⟨by omega, by omega⟩)
  omega

end Balance

/-! ## Decoding -/

namespace WellFormed

variable {b : Basis}

theorem pos (hb : b.WellFormed) (h : Fin b.size) : 0 < b.moduli.get h := by
  have := hb.two_le h
  omega

theorem product_pos (hb : b.WellFormed) : 0 < b.product := by
  rw [product_eq]
  exact Finset.prod_pos fun h _ => hb.pos h

/-- Numbers that are congruent for every modulus are congruent for the product. -/
theorem modEq_product (hb : b.WellFormed) {x y : ℤ}
    (hxy : ∀ h, x ≡ y [ZMOD b.moduli.get h]) : x ≡ y [ZMOD b.product] := by
  rw [product_eq]
  push_cast
  apply Int.modEq_iff_dvd.2
  apply Fintype.prod_dvd_of_coprime
  · intro g h hgh
    exact Nat.isCoprime_iff_coprime.2 (hb.coprime hgh)
  · intro h
    exact Int.modEq_iff_dvd.1 (hxy h)

/-- A weighted sum has the residues that are weighted. -/
theorem sum_weights_modEq_get (hb : b.WellFormed) (x : Fin b.size → ℤ) (g : Fin b.size) :
    ∑ h, x h * b.weights.get h ≡ x g [ZMOD b.moduli.get g] := by
  -- Modulo one modulus only the term of that modulus is left.
  have hsingle : ∑ h, x h * b.weights.get h ≡ x g * b.weights.get g [ZMOD b.moduli.get g] := by
    refine Int.sum_modEq_single (fun hg => absurd (Finset.mem_univ g) hg) fun h _ hne => ?_
    simpa using (hb.weight_other g h hne.symm).mul_left (x h)
  have hself : x g * b.weights.get g ≡ x g [ZMOD b.moduli.get g] := by
    simpa using (hb.weight_self g).mul_left (x g)
  exact hsingle.trans hself

/-- The weighted sum of residues of `v` is congruent to `v`. -/
theorem sum_weights_modEq (hb : b.WellFormed) {x : Fin b.size → ℤ} {v : ℤ}
    (hx : ∀ h, x h ≡ v [ZMOD b.moduli.get h]) :
    ∑ h, x h * b.weights.get h ≡ v [ZMOD b.product] :=
  hb.modEq_product fun g => (hb.sum_weights_modEq_get x g).trans (hx g)

end WellFormed

/-! ## Tables of inverses -/

section Inverses

variable {b : Basis} {numbers : List ℤ}

/-- A table of inverses fails only for a number without an inverse. -/
theorem inverseTable_eq_error {f : Fault} (h : b.inverseTable numbers = .error f) :
    f = .argument .notInvertible := by
  obtain ⟨q, -, h⟩ := Outcome.exists_mem_of_mapM_eq_error h
  obtain ⟨p, -, h⟩ := Outcome.exists_mem_of_mapM_eq_error h
  exact inverseMod_eq_error h

/-- It does so exactly if a number shares a factor with a modulus. -/
theorem WellFormed.inverseTable_eq_error_iff (hb : b.WellFormed) :
    b.inverseTable numbers = .error (.argument .notInvertible) ↔
      ∃ p ∈ numbers, ∃ h, ¬ IsCoprime p (b.moduli.get h : ℤ) := by
  constructor
  · intro h
    obtain ⟨q, hq, h⟩ := Outcome.exists_mem_of_mapM_eq_error h
    obtain ⟨p, hp, h⟩ := Outcome.exists_mem_of_mapM_eq_error h
    obtain ⟨g, rfl⟩ := mem_toList_iff.1 hq
    refine ⟨p, hp, g, fun hcoprime => ?_⟩
    obtain ⟨v, hv, -⟩ := exists_inverseMod (Int.natCast_pos.2 (hb.pos g))
      (isCoprime_emod_iff.2 hcoprime)
    cases hv.symm.trans h
  · rintro ⟨p, hp, g, hshared⟩
    cases htable : b.inverseTable numbers with
    | ok rows =>
      obtain ⟨row, hrow⟩ := Outcome.exists_of_mapM_eq_ok htable (mem_toList_iff.2 ⟨g, rfl⟩)
      obtain ⟨v, hv⟩ := Outcome.exists_of_mapM_eq_ok hrow hp
      exact absurd (isCoprime_emod_iff.1 (isCoprime_of_inverseMod (hb.pos g) hv)) hshared
    | error f => rw [inverseTable_eq_error htable]

/-- Row `h` of a table of inverses holds the inverses modulo modulus `h`, in `[0, q)`. -/
theorem WellFormed.getD_inverseTable (hb : b.WellFormed) {rows : List (List ℤ)}
    (h : b.inverseTable numbers = .ok rows) (g : Fin b.size) (j : Fin numbers.length) :
    let v := (rows.getD g []).getD j 0
    |v| < b.moduli.get g ∧ v * numbers.get j ≡ 1 [ZMOD b.moduli.get g] := by
  intro v
  have hrows := Outcome.mapM_eq_ok_iff.1 h
  rw [List.forall₂_iff_get] at hrows
  have hg : g.val < b.moduli.toList.length := by rw [Vector.length_toList]; exact g.isLt
  have hg' : g.val < rows.length := hrows.1 ▸ hg
  have hrow := hrows.2 g.val hg hg'
  rw [Outcome.mapM_eq_ok_iff, List.forall₂_iff_get] at hrow
  have hj : j.val < rows[g.val].length := lt_of_lt_of_eq j.isLt hrow.1
  have hentry := hrow.2 j.val j.isLt hj
  have hv : v = (rows.get ⟨g, hg'⟩).get ⟨j, hj⟩ := by
    show (rows.getD g []).getD j 0 = rows[g.val][j.val]
    rw [List.getD_eq_getElem _ _ hg', List.getD_eq_getElem _ _ hj]
  have hmodulus : b.moduli.toList.get ⟨g, hg⟩ = b.moduli.get g := by
    rw [List.get_eq_getElem, Vector.getElem_toList]
    rfl
  rw [hmodulus] at hentry
  obtain ⟨hnonneg, hlt, hinv⟩ := inverseMod_eq_ok (hb.pos g) hentry
  rw [hv, abs_of_nonneg hnonneg]
  exact ⟨hlt, ((Int.mod_modEq _ _).symm.mul_left _).trans hinv⟩

/-- A table has one row for each modulus, and one column for each number. -/
theorem length_inverseTable {rows : List (List ℤ)} (h : b.inverseTable numbers = .ok rows) :
    rows.length = b.size ∧ ∀ row ∈ rows, row.length = numbers.length := by
  have hrows := Outcome.mapM_eq_ok_iff.1 h
  refine ⟨?_, fun row hrow => ?_⟩
  · rw [← hrows.length_eq, Vector.length_toList]
  · obtain ⟨g, hg, rfl⟩ := List.getElem_of_mem hrow
    have hentries := hrows.get (hrows.length_eq ▸ hg) hg
    exact (Outcome.mapM_eq_ok_iff.1 hentries).length_eq.symm

end Inverses

end Basis
end PadicLift
