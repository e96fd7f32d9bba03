import Mathlib.Data.Nat.Prime.Int
import PadicLift.Proofs.Matrix.Cramer
import PadicLift.Proofs.Matrix.Nested
import PadicLift.Proofs.Modular.Elimination

/-!
# Inversion is correct

Nested lists are inverted by eliminating in the residues of the matrix that they describe. Whatever
the modulus, an inverse that is answered is one from both sides, and words hold every number that is
formed in any column. For a prime modulus there is always an answer. It tells the rank of the
matrix, and it is an inverse exactly where there is one, that is, where the prime does not divide
the determinant.
-/

namespace PadicLift

variable {n : ℕ} {p : ℕ}

/-! ## Nested lists -/

theorem checkModulus_natCast (hp : 2 ≤ p) (hmax : p ≤ maxModulus) :
    checkModulus (p : ℤ) = .ok p := by
  unfold checkModulus
  rw [if_neg (by omega), if_neg (by omega), Int.toNat_natCast]

/-- Regular nested lists of exact integers are reduced number by number. -/
theorem reduceExact_eq_ok (hp : 0 < p) (hmax : p ≤ maxModulus) {x : Nested}
    (hx : x.isRegular = true) : reduceExact x p = .ok (x.map (· % p)) := by
  have hfault : (x.toList.map Nested.entry).findSome? (cellFault p) = none := by
    rw [List.findSome?_eq_none_iff]
    intro y hy
    obtain ⟨v, -, rfl⟩ := List.mem_map.1 hy
    exact if_neg (by omega)
  have hmod : (fun v => Int.fmod v p) = fun v : ℤ => v % p :=
    funext fun v => Int.fmod_eq_emod_of_nonneg v (Int.natCast_nonneg p)
  have hwords : (x.map (· % (p : ℤ))).toList.all isWord = true := by
    rw [List.all_eq_true, Nested.toList_map]
    intro v hv
    obtain ⟨u, -, rfl⟩ := List.mem_map.1 hv
    have hlt := Machine.abs_emod_lt u (Int.natCast_pos.2 hp)
    have hcapacity : maxModulus ≤ Machine.wordCapacity := by decide
    exact Machine.isWord_of_abs_le (by omega)
  unfold reduceExact
  rw [Nested.branchesAt_of_uniform hx, hfault]
  dsimp only
  rw [hmod, asWords, if_pos hwords]

/-- The residues of a matrix, as nested lists. -/
theorem reduceExact_ofMat {m : ℕ} (hm : 0 < m) (hn : 0 < n) (hp : 0 < p) (hmax : p ≤ maxModulus)
    (A : Mat m n) : reduceExact (.ofMat A) p = .ok (.ofMat (A.reduce p)) := by
  rw [reduceExact_eq_ok hp hmax (Nested.isRegular_ofMat hm hn A), Nested.map_ofMat]
  refine congrArg (fun B => Except.ok (Nested.ofMat B)) (Mat.ext_entry fun i j => ?_)
  rw [Mat.entry_map, Mat.entry_reduce]

/-- Nested lists are inverted by elimination in the residues of their matrix. -/
theorem invert_ofMat (hn : 0 < n) (hp : 2 ≤ p) (hmax : p ≤ maxModulus) (A : Mat n n) :
    invert false (.ofMat A) p = ((A.reduce p).inverseMod p).map (SomeInversion.mk n) := by
  have hshape : (Nested.ofMat (A.reduce p)).shape = [n, n] := Nested.shape_ofMat hn hn _
  have hreduce : reduce false (.ofMat A) p = .ok (.ofMat (A.reduce p)) :=
    reduceExact_ofMat hn hn (by omega) hmax A
  simp only [invert, checkModulus_natCast hp hmax, hreduce, bind, Except.bind, hshape,
    Nested.readMat_ofMat, if_true]
  cases (A.reduce p).inverseMod p <;> rfl

/-! ## Words -/

namespace Elimination

/-- Words hold every number that is formed in a column. -/
theorem Swept.isWord_of_formed {A : Mat n n} {s : State n} {c r i : Fin n} {scale : ℕ} {v : ℤ}
    (hs : Swept p A c s) (hp : 0 < p) (hmax : p ≤ maxModulus) (hpivot : HasPivot p s c r i scale)
    (hv : Formed p (swapRows s.table r i) r (c.castAdd n) scale v) : isWord v = true :=
  hv.isWord hp hmax (isReduced_swapRows hs.reduced r i) (hpivot.abs_scale_lt hp)

end Elimination

/-! ## Answers -/

/-- The dimension of the kernel that an answer reports. -/
def Inversion.nullity : Inversion n → ℕ
  | .inverse _ => 0
  | .singular k => k

namespace Mat

variable {A : Mat n n}

/-- A matrix has an inverse modulo `p` if its determinant is coprime to `p`. -/
theorem exists_isInverse_iff (hp : 0 < p) :
    (∃ B, A.IsInverse p B) ↔ IsCoprime A.toMatrix.det (p : ℤ) := by
  constructor
  · rintro ⟨B, hB⟩
    exact hB.isCoprime_det
  · intro hcoprime
    have : NeZero p := ⟨by omega⟩
    have hunit : IsUnit (A.modulo p).det := by
      have hcast : (A.toMatrix.det : ZMod p) = (A.modulo p).det :=
        (Int.castRingHom (ZMod p)).map_det A.toMatrix
      rw [← hcast]
      exact (ZMod.coe_int_isUnit_iff_isCoprime _ p).2 hcoprime.symm
    refine ⟨ofFn fun i j => (((A.modulo p)⁻¹ i j).val : ℤ), ?_, ?_⟩
    · intro i j
      rw [entry_ofFn]
      have := ZMod.val_lt ((A.modulo p)⁻¹ i j)
      exact ⟨by omega, by omega⟩
    · have hinverse : (ofFn fun i j => (((A.modulo p)⁻¹ i j).val : ℤ)).modulo p
          = (A.modulo p)⁻¹ := by
        ext i j
        rw [modulo_apply, entry_ofFn, Int.cast_natCast, ZMod.natCast_zmod_val]
      rw [hinverse, Matrix.nonsing_inv_mul _ hunit]

/-- For a prime modulus there is an answer, and it tells the rank. -/
theorem exists_inverseMod (hp : p.Prime) (hmax : p ≤ maxModulus) (A : Mat n n) :
    ∃ o, (A.reduce p).inverseMod p = .ok o ∧ o.nullity = n - (A.modulo p).rank := by
  obtain ⟨s, hs, hswept⟩ := Elimination.exists_run hp hmax (isReduced_reduce hp.pos A)
  have hrank : s.pivots = (A.modulo p).rank := by
    rw [hswept.pivots_eq_rank hp.two_le, modulo_reduce]
  have hle := hswept.pivots_le
  by_cases hpivots : s.pivots < n
  · refine ⟨.singular (n - s.pivots), Outcome.bind_eq_ok.2 ⟨s, hs, if_pos hpivots⟩, ?_⟩
    rw [← hrank]
    rfl
  · refine ⟨.inverse s.right, Outcome.bind_eq_ok.2 ⟨s, hs, if_neg hpivots⟩, ?_⟩
    rw [← hrank]
    show 0 = n - s.pivots
    omega

/-- For a prime modulus the answer is an inverse unless the prime divides the determinant. -/
theorem exists_inverseMod_eq_inverse_iff (hp : p.Prime) (hmax : p ≤ maxModulus) :
    (∃ B, (A.reduce p).inverseMod p = .ok (.inverse B)) ↔ ¬ (p : ℤ) ∣ A.toMatrix.det := by
  have hinverse : (∃ B, (A.reduce p).inverseMod p = .ok (.inverse B))
      ↔ ∃ B, A.IsInverse p B :=
    exists_congr fun B => ⟨isInverse_of_inverseMod hp.two_le hmax, fun hB =>
      hB.inverseMod_eq_ok hp hmax⟩
  rw [hinverse, exists_isInverse_iff hp.pos, isCoprime_comm]
  exact (Nat.prime_iff_prime_int.1 hp).coprime_iff_not_dvd

/-- Elimination inverts a matrix of integers of any size, for every modulus from 2 up to
`maxModulus`. -/
theorem inverseMod_answers (A : Mat n n) (hp : 2 ≤ p) (hmax : p ≤ maxModulus) :
    (0 < n → invert false (.ofMat A) p
      = ((A.reduce p).inverseMod p).map (SomeInversion.mk n)) ∧
    (∀ B, (A.reduce p).inverseMod p = .ok (.inverse B) →
      B.IsReduced p ∧ A.modulo p * B.modulo p = 1 ∧ B.modulo p * A.modulo p = 1) ∧
    (p.Prime →
      (∃ o, (A.reduce p).inverseMod p = .ok o ∧ o.nullity = n - (A.modulo p).rank) ∧
      ((∃ B, (A.reduce p).inverseMod p = .ok (.inverse B)) ↔ ¬ (p : ℤ) ∣ A.toMatrix.det)) ∧
    (∀ c s, c ≤ n → Elimination.after p (A.reduce p) c = .ok s → s.table.IsReduced p) ∧
    ∀ (c : Fin n) s r i scale v, Elimination.after p (A.reduce p) c = .ok s →
      Elimination.HasPivot p s c r i scale →
      Elimination.Formed p (Elimination.swapRows s.table r i) r (c.castAdd n) scale v →
      isWord v = true := by
  have hreduced : (A.reduce p).IsReduced p := isReduced_reduce (by omega) A
  refine ⟨fun hn => invert_ofMat hn hp hmax A, ?_, ?_, ?_, ?_⟩
  · intro B hB
    have hinverse := isInverse_of_inverseMod hp hmax hB
    exact ⟨hinverse.reduced, mul_eq_one_comm.1 hinverse.mul_eq_one, hinverse.mul_eq_one⟩
  · intro hprime
    exact ⟨exists_inverseMod hprime hmax A, exists_inverseMod_eq_inverse_iff hprime hmax⟩
  · intro c s hc hs
    exact (Elimination.swept_after hp hmax hreduced hc hs).reduced
  · intro c s r i scale v hs hpivot hv
    have hswept := Elimination.swept_after hp hmax hreduced c.isLt.le hs
    exact hswept.isWord_of_formed (by omega) hmax hpivot hv

/-- Modulo 7 the matrix with the rows `(0, 2)` and `(3, 1)`, which needs an exchange of rows, has an
inverse, because 7 does not divide its determinant. -/
theorem inverseMod_answers_exchange : ∃ B : Mat 2 2,
    invert false (.ofMat ⟨#v[#v[0, 2], #v[3, 1]]⟩) 7 = .ok ⟨2, .inverse B⟩ ∧
    B.IsReduced 7 ∧ (⟨#v[#v[0, 2], #v[3, 1]]⟩ : Mat 2 2).modulo 7 * B.modulo 7 = 1 := by
  obtain ⟨hinvert, hinverse, hprime, -, -⟩ :=
    inverseMod_answers ⟨#v[#v[0, 2], #v[3, 1]]⟩ (p := 7) (by decide) (by decide)
  have hdet : ¬ ((7 : ℕ) : ℤ) ∣ (⟨#v[#v[0, 2], #v[3, 1]]⟩ : Mat 2 2).toMatrix.det := by
    rw [Matrix.det_fin_two]
    decide
  obtain ⟨B, hB⟩ := (hprime (by decide)).2.2 hdet
  obtain ⟨hreduced, hmul, -⟩ := hinverse B hB
  refine ⟨B, ?_, hreduced, hmul⟩
  rw [hB] at hinvert
  exact hinvert (by decide)

end Mat
end PadicLift
