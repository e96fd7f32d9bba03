import PadicLift.Proofs.Residue.Planes
import PadicLift.Residue.Buffer

/-!
# Exact products of buffers

A buffer knows its sizes only when the program runs. Where they fit, `Buffer.multiplyIn` is the
product of the planes, whatever its storage holds before, and `Buffer.toIntegers` decodes them. So
the product of buffers is exact in every plane, and what it decodes to is the representative of
`β R + α A C` in the balanced range.
-/

namespace PadicLift
namespace Buffer

open Machine

variable {b : Basis} {m n k : ℕ}

/-- A source of integers that is accepted leaves the residues of its matrix. -/
theorem ofSource_eq_ok {source : Nested} {x : Buffer} (h : ofSource b source none = .ok x) :
    ∃ m n, sourceShape source = [m, n] ∧
      x = ⟨b.size, m, n, b.encodeMat (sourceMat source m n)⟩ := by
  unfold ofSource at h
  split at h
  next m n rest _ =>
    dsimp only [fill, zeros] at h
    by_cases hsizes : sourceShape source = [m, n]
    · rw [if_neg (not_not.2 hsizes)] at h
      split at h
      · cases h
      · rw [if_neg (lt_irrefl b.size)] at h
        cases h
        refine ⟨m, n, hsizes, ?_⟩
        refine congrArg (Buffer.mk b.size m n) (ext_get fun g => ?_)
        rw [get_ofFn, dif_pos g.isLt]
    · rw [if_pos hsizes] at h
      cases h
  next => cases h

theorem renamed_self (X : Planes k m n) : renamed X ⟨rfl, rfl, rfl⟩ = X := by
  refine ext_get fun p => Mat.ext_entry fun i j => ?_
  rw [renamed, get_ofFn, Mat.entry_ofFn]
  rfl

/-- A product of buffers of fitting sizes holds the product of their planes, whatever its storage
holds before. -/
theorem multiplyIn_eq_ok (D : Planes b.size m n) (A : Planes b.size m k) (C : Planes b.size k n)
    (alpha beta : ℤ) (work : Workspace b.size m n) :
    multiplyIn b ⟨b.size, m, n, D⟩ ⟨b.size, m, k, A⟩ ⟨b.size, k, n, C⟩ alpha beta
        ⟨b.size, m, n, work⟩
      = .ok (⟨b.size, m, n, b.multiply D A C alpha beta⟩,
        ⟨b.size, m, n, (b.multiplyIn work D A C alpha beta).2⟩) := by
  unfold multiplyIn
  dsimp only
  rw [dif_pos ⟨⟨rfl, rfl, rfl⟩, ⟨rfl, rfl, rfl⟩, rfl, rfl, rfl⟩, renamed_self, renamed_self,
    renamed_self, renamed_self, renamed_self, Basis.multiplyIn_fst]

/-- So does a product in new storage. -/
theorem multiply_eq_ok (D : Planes b.size m n) (A : Planes b.size m k) (C : Planes b.size k n)
    (alpha beta : ℤ) {workspace : Option (ℕ × ℕ)} (hfits : ∀ sizes ∈ workspace, sizes = (m, n)) :
    multiply b ⟨b.size, m, n, D⟩ ⟨b.size, m, k, A⟩ ⟨b.size, k, n, C⟩ alpha beta workspace
      = .ok ⟨b.size, m, n, b.multiply D A C alpha beta⟩ := by
  have hsizes : workspace.getD (m, n) = (m, n) := by
    cases workspace with
    | none => rfl
    | some sizes => exact hfits sizes rfl
  unfold multiply
  dsimp only
  rw [hsizes, Scratch.ofSizes, multiplyIn_eq_ok]
  rfl

/-- The residues in a buffer are words, and the buffer holds the integers that they decode to. -/
theorem toIntegers_eq_ok (hb : b.WellFormed) {X : Planes b.size m n}
    (hX : b.AreResidues X) :
    toIntegers b ⟨b.size, m, n, X⟩ = .ok (b.decodeMat X) := by
  have htruncate : (Vector.ofFn fun p : Fin b.size => (X.get p).map Machine.truncate) = X := by
    refine ext_get fun h => ?_
    rw [get_ofFn]
    refine Mat.ext_entry fun i j => ?_
    have hcapacity : maxModulus ≤ Machine.wordCapacity := by decide
    have hlt := hX h i j
    have hle := hb.le_max h
    have hword : isWord ((X.get h).entry i j) = true := Machine.isWord_of_abs_le (by omega)
    rw [Mat.entry_map, Machine.truncate, if_pos hword]
  unfold toIntegers
  dsimp only
  rw [dif_pos le_rfl]
  show Except.ok (b.decodeMat (Vector.ofFn fun p : Fin b.size => (X.get p).map Machine.truncate))
    = _
  rw [htruncate]

/-! ## The product -/

/-- `multiply` leaves the residues of `β D + α A C` in `[0, q)` in every plane, whatever the storage
holds that it works in. Whatever the order in which the products of a block are added, a double
holds every number formed on the way, and the result is the same. So a product of encoded matrices
decodes to the representative of `β R + α X Y` in the balanced range. -/
theorem multiply_exact {moduli : List ℤ} (hbasis : Basis.ofList moduli = .ok b)
    {D : Planes b.size m n} {A : Planes b.size m k} {C : Planes b.size k n}
    (hD : b.AreResidues D) (hA : b.AreResidues A) (hC : b.AreResidues C) (alpha beta : ℤ) :
    (∀ workspace, (∀ sizes ∈ workspace, sizes = (m, n)) →
      multiply b ⟨b.size, m, n, D⟩ ⟨b.size, m, k, A⟩ ⟨b.size, k, n, C⟩ alpha beta workspace
        = .ok ⟨b.size, m, n, b.multiply D A C alpha beta⟩) ∧
    (∀ work : Workspace b.size m n, ∃ after,
      multiplyIn b ⟨b.size, m, n, D⟩ ⟨b.size, m, k, A⟩ ⟨b.size, k, n, C⟩ alpha beta
          ⟨b.size, m, n, work⟩
        = .ok (⟨b.size, m, n, b.multiply D A C alpha beta⟩, after)) ∧
    (∀ h i j, ((b.multiply D A C alpha beta).get h).entry i j
      = (beta * (D.get h).entry i j
          + alpha * ∑ t, (A.get h).entry i t * (C.get h).entry t j) % b.moduli.get h) ∧
    (∀ h i j, ∀ order : List (ℤ × ℤ) → Summation ℤ, (∀ terms, (order terms).terms.Perm terms) →
      b.entryBy double id order D A C alpha beta h i j
        = ((b.multiply D A C alpha beta).get h).entry i j) ∧
    (∀ h i j, ∀ order : List (Traced × Traced) → Summation Traced,
      (∀ terms, (order terms).terms.Perm terms) →
      ∀ v ∈ (b.entryBy traced Traced.given order D A C alpha beta h i j).formed,
        |v| ≤ 2 ^ 53 - 1) ∧
    ∀ (R : Mat m n) (X : Mat m k) (Y : Mat k n), ∃ V,
      toIntegers b ⟨b.size, m, n,
        b.multiply (b.encodeMat R) (b.encodeMat X) (b.encodeMat Y) alpha beta⟩ = .ok V ∧
      ∀ i j, V.entry i j
          ≡ beta * R.entry i j + alpha * ∑ t, X.entry i t * Y.entry t j [ZMOD b.product] ∧
        -(b.product : ℤ) < 2 * V.entry i j ∧ 2 * V.entry i j ≤ b.product := by
  obtain ⟨hb, -⟩ := Basis.wellFormed_of_ofList hbasis
  refine ⟨fun workspace hfits => multiply_eq_ok D A C alpha beta hfits,
    fun work => ⟨_, multiplyIn_eq_ok D A C alpha beta work⟩,
    fun h i j => hb.entry_multiply alpha beta h i j hD hA hC, ?_, ?_, ?_⟩
  · intro h i j order horder
    have hexact := hb.entryBy_exact alpha beta h i j double_isExact id
      (fun _ => trivial) (fun _ => rfl) horder hD hA hC
    rw [hb.entry_multiply alpha beta h i j hD hA hC]
    exact hexact.2
  · -- The same product on recorded doubles: all numbers formed are in the record.
    intro h i j order horder v hv
    obtain ⟨hfits, -⟩ := hb.entryBy_exact alpha beta h i j traced_isExact Traced.given
      Traced.fits_given (fun _ => rfl) horder hD hA hC
    exact hfits v hv
  · intro R X Y
    have hR := hb.areResidues_encodeMat R
    have hX := hb.areResidues_encodeMat X
    have hY := hb.areResidues_encodeMat Y
    refine ⟨_, toIntegers_eq_ok hb (hb.areResidues_multiply alpha beta hR hX hY), ?_⟩
    intro i j
    rw [hb.entry_decodeMat_eq fun h => hb.entry_multiply_encodeMat R X Y alpha beta h i j]
    exact ⟨Basis.balanceIn_modEq _, Basis.neg_lt_balanceIn hb.product_pos _,
      Basis.balanceIn_le hb.product_pos _⟩

/-- With the two largest coprime moduli a block holds a single product. -/
theorem multiply_exact_largest_moduli : ∃ b, Basis.ofList [94906265, 94906264] = .ok b ∧
    b.block = 1 ∧
    let D : Planes b.size 1 1 := b.encodeMat (Mat.ofFn fun _ _ => 7)
    let A : Planes b.size 1 2 := b.encodeMat (Mat.ofFn fun _ _ => -1)
    let C : Planes b.size 2 1 := b.encodeMat (Mat.ofFn fun _ _ => 1)
    (∀ h, ∀ v ∈ (b.entryBy traced Traced.given Summation.leftToRight D A C (-5) (-3) h 0 0).formed,
      |v| ≤ 2 ^ 53 - 1) ∧
    ∃ V, toIntegers b ⟨b.size, 1, 1, b.multiply D A C (-5) (-3)⟩ = .ok V ∧ V.entry 0 0 = -11 := by
  have hbasis : Basis.ofList [94906265, 94906264]
      = .ok ⟨2, #v[94906265, 94906264], #v[9007198946437696, 94906265]⟩ := by decide +kernel
  obtain ⟨hb, -⟩ := Basis.wellFormed_of_ofList hbasis
  refine ⟨_, hbasis, by decide +kernel, ?_⟩
  intro D A C
  obtain ⟨-, -, -, -, hformed, hdecoded⟩ := multiply_exact hbasis
    (hb.areResidues_encodeMat (Mat.ofFn fun _ _ => 7) : Basis.AreResidues _ D)
    (hb.areResidues_encodeMat (Mat.ofFn fun _ _ => -1) : Basis.AreResidues _ A)
    (hb.areResidues_encodeMat (Mat.ofFn fun _ _ => 1) : Basis.AreResidues _ C) (-5) (-3)
  refine ⟨fun h => hformed h 0 0 _ fun terms => by rw [Summation.terms_leftToRight], ?_⟩
  obtain ⟨V, hV, hentry⟩ := hdecoded (Mat.ofFn fun _ _ => 7) (Mat.ofFn fun _ _ => -1)
    (Mat.ofFn fun _ _ => 1)
  refine ⟨V, hV, ?_⟩
  have hproduct : Basis.product ⟨2, #v[94906265, 94906264], #v[9007198946437696, 94906265]⟩
      = 9007199041343960 := by decide +kernel
  obtain ⟨hmod, hlow, hhigh⟩ := hentry 0 0
  rw [hproduct] at hmod hlow hhigh
  simp only [Mat.entry_ofFn, Finset.sum_const, Finset.card_univ, Fintype.card_fin,
    nsmul_eq_mul] at hmod
  obtain ⟨c, hc⟩ := Int.modEq_iff_dvd.1 hmod
  omega

end Buffer
end PadicLift
