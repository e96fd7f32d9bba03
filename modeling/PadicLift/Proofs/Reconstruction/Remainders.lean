import PadicLift.Proofs.Matrix.Basic
import PadicLift.Proofs.Number.Inverse
import PadicLift.Proofs.Outcome
import PadicLift.Reconstruction.Remainders

/-!
# Combined residues

For pairwise coprime positive moduli `combine` never fails, and what it finds has all the given
residues. One step of `extend` keeps the residue for the moduli before and adds the next one.
-/

namespace PadicLift
namespace Remainders

/-- The correction that `extend` makes for the next modulus. -/
theorem modEq_add_mul {x r M m inverse : ℤ} (hinverse : inverse * Int.fmod M m ≡ 1 [ZMOD m])
    (hm : 0 ≤ m) :
    x + M * Int.fmod (Int.fmod (r - x) m * inverse) m ≡ r [ZMOD m] := by
  rw [Int.fmod_eq_emod_of_nonneg _ hm] at hinverse
  rw [Int.fmod_eq_emod_of_nonneg _ hm, Int.fmod_eq_emod_of_nonneg _ hm]
  have hinv : inverse * M ≡ 1 [ZMOD m] := ((Int.mod_modEq M m).symm.mul_left _).trans hinverse
  calc x + M * ((r - x) % m * inverse % m)
      ≡ x + M * ((r - x) * inverse) [ZMOD m] :=
        (((Int.mod_modEq _ _).trans ((Int.mod_modEq _ _).mul_right _)).mul_left _).add_left _
    _ = x + (r - x) * (inverse * M) := by ring
    _ ≡ x + (r - x) * 1 [ZMOD m] := (hinv.mul_left _).add_left _
    _ = r := by ring

/-- Pairwise coprime moduli extend a solution step by step. -/
theorem extend_eq_ok {x M : ℤ} {rs ms : List ℤ} (hlength : rs.length = ms.length)
    (hpos : ∀ m ∈ ms, 0 < m) (hcoprime : ∀ m ∈ ms, IsCoprime M m) (hpair : ms.Pairwise IsCoprime) :
    ∃ y, extend x M rs ms = .ok y ∧ y ≡ x [ZMOD M] ∧
      List.Forall₂ (fun r m => y ≡ r [ZMOD m]) rs ms := by
  induction ms generalizing x M rs with
  | nil =>
    obtain rfl := List.length_eq_zero_iff.1 hlength
    exact ⟨x, rfl, Int.ModEq.refl x, .nil⟩
  | cons m ms ih =>
    obtain ⟨r, rs, rfl⟩ := List.exists_cons_of_length_eq_add_one hlength
    rw [List.forall_mem_cons] at hpos hcoprime
    rw [List.pairwise_cons] at hpair
    have hreduced : IsCoprime (Int.fmod M m) m := by
      rw [Int.fmod_eq_emod_of_nonneg _ hpos.1.le, Int.emod_def]
      exact IsCoprime.sub_mul_left_left_iff.2 hcoprime.1
    obtain ⟨inverse, hok, hinverse⟩ := exists_inverseMod hpos.1 hreduced
    set t := Int.fmod (Int.fmod (r - x) m * inverse) m with ht
    obtain ⟨y, hy, hold, hnew⟩ := ih (x := x + M * t) (M := M * m)
      (Nat.succ_injective hlength) hpos.2
      (fun q hq => (hcoprime.2 q hq).mul_left (hpair.1 q hq)) hpair.2
    refine ⟨y, ?_, ?_, ?_⟩
    · unfold extend
      rw [if_neg hpos.1.ne']
      exact Outcome.bind_eq_ok.2 ⟨inverse, hok, hy⟩
    -- The number added is a multiple of `M`, so the residues so far stay.
    · exact (Int.ModEq.of_mul_right m hold).trans (by simp [Int.ModEq])
    · refine .cons ?_ hnew
      exact (Int.ModEq.of_mul_left M hold).trans (modEq_add_mul hinverse hpos.1.le)

/-- Numbers with given residues for pairwise coprime moduli, at least one, are found. -/
theorem combine_eq_ok {rs ms : List ℤ} (hlength : rs.length = ms.length) (hne : ms ≠ [])
    (hpos : ∀ m ∈ ms, 0 < m) (hpair : ms.Pairwise IsCoprime) :
    ∃ y, combine rs ms = .ok y ∧ List.Forall₂ (fun r m => y ≡ r [ZMOD m]) rs ms := by
  obtain ⟨m, ms, rfl⟩ := List.exists_cons_of_ne_nil hne
  obtain ⟨r, rs, rfl⟩ := List.exists_cons_of_length_eq_add_one hlength
  rw [List.forall_mem_cons] at hpos
  rw [List.pairwise_cons] at hpair
  obtain ⟨y, hy, hfirst, hrest⟩ := extend_eq_ok (x := Int.fmod r m) (Nat.succ_injective hlength)
    hpos.2 hpair.1 hpair.2
  rw [Int.fmod_eq_emod_of_nonneg _ hpos.1.le] at hfirst
  refine ⟨y, ?_, .cons (hfirst.trans (Int.mod_modEq r m)) hrest⟩
  show (if m = 0 then _ else _) = _
  rw [if_neg hpos.1.ne']
  exact hy

/-- The same for every position of several vectors. -/
theorem combineVectors_eq_ok {β : Type} {n : ℕ} {cs : List β} (hne : cs ≠ []) (v : β → Fin n → ℤ)
    {f : β → ℤ} (hpos : ∀ c ∈ cs, 0 < f c) (hpair : (cs.map f).Pairwise IsCoprime) :
    ∃ y : Fin n → ℤ,
      combineVectors (cs.map fun c => List.ofFn (v c)) (cs.map f) = .ok (List.ofFn y) ∧
      ∀ i, ∀ c ∈ cs, y i ≡ v c i [ZMOD f c] := by
  have hpositions : ∀ i : Fin n, ∃ y, combine (cs.map fun c => v c i) (cs.map f) = .ok y ∧
      ∀ c ∈ cs, y ≡ v c i [ZMOD f c] := by
    intro i
    have hlength : (cs.map fun c => v c i).length = (cs.map f).length := by
      rw [List.length_map, List.length_map]
    obtain ⟨y, hy, hall⟩ := combine_eq_ok hlength (by simpa using hne) (by simpa using hpos) hpair
    rw [List.forall₂_map_left_iff, List.forall₂_map_right_iff, List.forall₂_same] at hall
    exact ⟨y, hy, hall⟩
  -- Each position is combined on its own.
  choose y hy hmod using hpositions
  refine ⟨y, ?_, hmod⟩
  have hresidues : ∀ i : Fin n, residuesAt (cs.map fun c => List.ofFn (v c)) i
      = .ok (cs.map fun c => v c i) := by
    intro i
    rw [residuesAt, Outcome.mapM_eq_ok_iff, List.forall₂_map_left_iff, List.forall₂_map_right_iff,
      List.forall₂_same]
    intro c _
    rw [List.getElem?_ofFn, dif_pos i.isLt]
  obtain ⟨c, rest, rfl⟩ := List.exists_cons_of_ne_nil hne
  unfold combineVectors
  rw [List.map_cons]
  dsimp only
  rw [List.length_ofFn, Outcome.mapM_eq_ok_iff, List.forall₂_iff_get]
  refine ⟨by rw [List.length_range, List.length_ofFn], fun i hi _ => ?_⟩
  rw [List.length_range] at hi
  rw [List.get_eq_getElem, List.getElem_range, List.get_eq_getElem, List.getElem_ofFn]
  exact Outcome.bind_eq_ok.2 ⟨_, hresidues ⟨i, hi⟩, hy ⟨i, hi⟩⟩

/-! ## The range of what is found -/

/-- Each modulus multiplies the range by itself. -/
theorem extend_mem_range {x M y : ℤ} {rs ms : List ℤ} (h : extend x M rs ms = .ok y)
    (hlength : rs.length = ms.length) (hpos : ∀ m ∈ ms, 0 < m) (hx : 0 ≤ x) (hlt : x < M) :
    0 ≤ y ∧ y < M * ms.prod := by
  induction ms generalizing x M rs with
  | nil =>
    obtain rfl := List.length_eq_zero_iff.1 hlength
    cases h
    rw [List.prod_nil, mul_one]
    exact ⟨hx, hlt⟩
  | cons m ms ih =>
    obtain ⟨r, rs, rfl⟩ := List.exists_cons_of_length_eq_add_one hlength
    rw [List.forall_mem_cons] at hpos
    unfold extend at h
    rw [if_neg hpos.1.ne'] at h
    obtain ⟨inverse, -, h⟩ := Outcome.bind_eq_ok.1 h
    dsimp only at h
    generalize ht : Int.fmod (Int.fmod (r - x) m * inverse) m = t at h
    have hM : 0 < M := hx.trans_lt hlt
    have htNonneg : 0 ≤ t := by
      rw [← ht]
      exact Int.fmod_nonneg_of_pos _ hpos.1
    have htLt : t + 1 ≤ m := by
      rw [← ht]
      exact Int.fmod_lt_of_pos _ hpos.1
    -- The solution is moved by fewer than `m` multiples of the product so far.
    have hnext : x + M * t < M * m := by
      calc x + M * t < M + M * t := by omega
        _ = M * (t + 1) := by ring
        _ ≤ M * m := mul_le_mul_of_nonneg_left htLt hM.le
    rw [List.prod_cons, ← mul_assoc]
    exact ih h (Nat.succ_injective hlength) hpos.2 (add_nonneg hx (mul_nonneg hM.le htNonneg)) hnext

/-- The combination is reduced modulo the product. -/
theorem combine_mem_range {y : ℤ} {rs ms : List ℤ} (h : combine rs ms = .ok y)
    (hlength : rs.length = ms.length) (hpos : ∀ m ∈ ms, 0 < m) : 0 ≤ y ∧ y < ms.prod := by
  cases rs with
  | nil => cases h
  | cons r rs =>
    cases ms with
    | nil => cases h
    | cons m ms =>
      rw [List.forall_mem_cons] at hpos
      change (if m = 0 then _ else _) = _ at h
      rw [if_neg hpos.1.ne'] at h
      rw [List.prod_cons]
      exact extend_mem_range h (Nat.succ_injective hlength) hpos.2
        (Int.fmod_nonneg_of_pos _ hpos.1) (Int.fmod_lt_of_pos _ hpos.1)

theorem combineVectors_mem_range {vectors : List (List ℤ)} {ms ys : List ℤ}
    (h : combineVectors vectors ms = .ok ys) (hlength : vectors.length = ms.length)
    (hpos : ∀ m ∈ ms, 0 < m) : ∀ y ∈ ys, 0 ≤ y ∧ y < ms.prod := by
  cases vectors with
  | nil => cases h
  | cons first rest =>
    have hpositions := Outcome.mapM_eq_ok_iff.1 h
    intro y hy
    obtain ⟨i, hi, rfl⟩ := List.getElem_of_mem hy
    have hposition := hpositions.get (hpositions.length_eq ▸ hi) hi
    obtain ⟨residues, hresidues, hcombine⟩ := Outcome.bind_eq_ok.1 hposition
    refine combine_mem_range hcombine ?_ hpos
    rw [← (Outcome.mapM_eq_ok_iff.1 hresidues).length_eq, hlength]

/-- Vectors of one length are joined to a vector of that length. -/
theorem length_of_combineVectors {n : ℕ} {vectors : List (List ℤ)} {moduli ys : List ℤ}
    (h : combineVectors vectors moduli = .ok ys) (hlength : ∀ v ∈ vectors, v.length = n) :
    ys.length = n := by
  cases vectors with
  | nil => cases h
  | cons first rest =>
    have hpositions := (Outcome.mapM_eq_ok_iff.1 h).length_eq
    rw [List.length_range, hlength first List.mem_cons_self] at hpositions
    exact hpositions.symm

end Remainders
end PadicLift
