import PadicLift.Proofs.Residue.Conversion

/-!
# Exact division by a table of inverses

Modulo one modulus, a residue times the inverse of `p` belongs to `w` exactly if the residue belongs
to `p * w`. This is an equivalence for every modulus, hence for their product: division commutes
with moving a number into the balanced range, so a quotient is right as soon as the quotient itself
lies in that range. Signed residues stay residues, and a double holds every product on the way.
-/

namespace PadicLift

open Machine

/-- Multiplying by the inverse of `p` is dividing by `p`. -/
theorem modEq_mul_inverse_iff {q inverse p x w : ℤ} (hinverse : inverse * p ≡ 1 [ZMOD q]) :
    w ≡ x * inverse [ZMOD q] ↔ p * w ≡ x [ZMOD q] := by
  constructor
  · intro h
    calc p * w ≡ p * (x * inverse) [ZMOD q] := h.mul_left p
      _ = inverse * p * x := by ring
      _ ≡ 1 * x [ZMOD q] := hinverse.mul_right x
      _ = x := one_mul x
  · intro h
    calc w = 1 * w := (one_mul w).symm
      _ ≡ inverse * p * w [ZMOD q] := (hinverse.mul_right w).symm
      _ = inverse * (p * w) := by ring
      _ ≡ inverse * x [ZMOD q] := h.mul_left inverse
      _ = x * inverse := mul_comm _ _

namespace Basis

variable {b : Basis} {m : ℕ} {numbers : List ℤ}

/-! ## Tables -/

/-- The table with the given rows, one for each plane. -/
def tableOf (rows : List (List ℤ)) (planes n : ℕ) : Mat planes n :=
  Mat.ofFn fun h j => (rows.getD h []).getD j 0

/-- Every entry of a table is a residue, and the inverse of the number of its column. -/
structure Inverts (b : Basis) (numbers : List ℤ) (table : Mat b.size numbers.length) : Prop where
  abs_lt : ∀ h j, |table.entry h j| < b.moduli.get h
  mul_modEq : ∀ h j, table.entry h j * numbers.get j ≡ 1 [ZMOD b.moduli.get h]

/-- The rows of an inverse table are the inverses of the numbers, plane by plane. -/
theorem WellFormed.inverts_tableOf (hb : b.WellFormed) {rows : List (List ℤ)}
    (h : b.inverseTable numbers = .ok rows) :
    b.Inverts numbers (tableOf rows b.size numbers.length) := by
  refine ⟨fun g j => ?_, fun g j => ?_⟩
  · rw [tableOf, Mat.entry_ofFn]
    exact (hb.getD_inverseTable h g j).1
  · rw [tableOf, Mat.entry_ofFn]
    exact (hb.getD_inverseTable h g j).2

/-! ## Quotients -/

/-- Congruent modulo the product means congruent modulo every modulus. -/
theorem WellFormed.modEq_product_iff (hb : b.WellFormed) {x y : ℤ} :
    x ≡ y [ZMOD b.product] ↔ ∀ h, x ≡ y [ZMOD b.moduli.get h] :=
  ⟨fun hxy h => hxy.of_dvd (b.dvd_product h), hb.modEq_product⟩

theorem entry_decodeMat_eq_decode {n : ℕ} (X : Planes b.size m n) (i : Fin m) (j : Fin n) :
    (b.decodeMat X).entry i j = b.decode (List.ofFn fun h => (X.get h).entry i j) := by
  rw [entry_decodeMat, decode_ofFn]

/-- Where the residues of `v` were, the residues of the quotient are: of the one number in the
balanced range whose multiple is congruent to `v`. -/
theorem WellFormed.entry_decodeMat_scale_eq_iff (hb : b.WellFormed)
    {X : Planes b.size m numbers.length} {table : Mat b.size numbers.length}
    (hX : b.AreResidues X) (htable : b.Inverts numbers table) {i : Fin m}
    {j : Fin numbers.length} {v w : ℤ} (hv : ∀ h, (X.get h).entry i j ≡ v [ZMOD b.moduli.get h]) :
    (b.decodeMat (b.scale X table)).entry i j = w ↔
      b.IsBalanced w ∧ numbers.get j * w ≡ v [ZMOD b.product] := by
  -- Plane by plane, having the scaled residue and having the right multiple are the same.
  have hplane : ∀ h, w ≡ ((b.scale X table).get h).entry i j [ZMOD b.moduli.get h] ↔
      numbers.get j * w ≡ v [ZMOD b.moduli.get h] := by
    intro h
    have hscaled := hb.entry_scale hX htable.abs_lt h i j
    have hquotient := modEq_mul_inverse_iff (x := (X.get h).entry i j) (w := w)
      (htable.mul_modEq h j)
    constructor
    · intro hw
      exact (hquotient.1 (hw.trans hscaled)).trans (hv h)
    · intro hw
      exact (hquotient.2 (hw.trans (hv h).symm)).trans hscaled.symm
  rw [entry_decodeMat_eq_decode, hb.decode_eq_iff, hb.modEq_product_iff]
  simp only [hplane]

end Basis

namespace Buffer

variable {b : Basis} {m : ℕ}

/-- A table with a row for each plane scales a buffer as it scales the planes. -/
theorem scale_eq_ok {n : ℕ} (X : Planes b.size m n) {rows : List (List ℤ)}
    (hrows : rows.length = b.size) (hrow : ∀ row ∈ rows, row.length = n) :
    scale b ⟨b.size, m, n, X⟩ rows
      = .ok ⟨b.size, m, n, b.scale X (Basis.tableOf rows b.size n)⟩ := by
  have hsizes : ¬ (rows.length ≠ b.size ∨ rows.any (fun row => row.length != n) = true) := by
    rw [not_or, not_not, List.any_eq_true]
    refine ⟨hrows, ?_⟩
    rintro ⟨row, hmem, hne⟩
    exact bne_iff_ne.1 hne (hrow row hmem)
  have hdata : (Vector.ofFn fun h : Fin b.size =>
      Basis.scalePlane (b.moduli.toList.getD (if b.size = 1 then 0 else h.val) 1) (X.get h)
        (Nested.toVector (rows.getD (if b.size = 1 then 0 else h.val) []) n))
      = b.scale X (Basis.tableOf rows b.size n) := by
    refine ext_get fun h => ?_
    -- A basis with one modulus uses its only row for every plane, and has only one plane here.
    have hposition : (if b.size = 1 then 0 else h.val) = h.val := by
      have := h.isLt
      split <;> omega
    have hmodulus : b.moduli.toList.getD h 1 = b.moduli.get h := by
      rw [List.getD_eq_getElem _ _ (by rw [Vector.length_toList]; exact h.isLt),
        Vector.getElem_toList]
      rfl
    have hfactors : Nested.toVector (rows.getD h []) n
        = (Basis.tableOf rows b.size n).row h := by
      refine ext_get fun j => ?_
      show _ = (Basis.tableOf rows b.size n).entry h j
      rw [Nested.toVector, get_ofFn, Basis.tableOf, Mat.entry_ofFn]
      simp
    rw [get_ofFn, hposition, hmodulus, hfactors, Basis.scale, get_ofFn]
  unfold scale
  dsimp only
  rw [if_neg hsizes, if_neg (by simp)]
  exact congrArg (fun data => Except.ok (Buffer.mk b.size m n data)) hdata

/-- What a table of inverses does to the residues `X` of a buffer, and leaves as `Y`. -/
structure Divides (b : Basis) (numbers : List ℤ) (rows : List (List ℤ))
    (X Y : Planes b.size m numbers.length) : Prop where
  scale_eq : scale b ⟨b.size, m, numbers.length, X⟩ rows = .ok ⟨b.size, m, numbers.length, Y⟩
  areResidues : b.AreResidues Y
  /-- An entry is computed in doubles, which hold every number that is formed for it. -/
  formed : ∀ h i j,
    let e := Basis.scaleEntry traced (.given (b.moduli.get h)) (.given ((X.get h).entry i j))
      (.given ((rows.getD h []).getD j 0))
    e.value = (Y.get h).entry i j ∧ ∀ u ∈ e.formed, |u| ≤ 2 ^ 53 - 1
  /-- Any residues are those of an integer. -/
  holds : ∀ i j, ∃ v, ∀ h, (X.get h).entry i j ≡ v [ZMOD b.moduli.get h]
  /-- What is read is the one quotient in the balanced range. An exact quotient in that range is
  found, however large the number is that it is the quotient of. -/
  quotients : ∃ W, toIntegers b ⟨b.size, m, numbers.length, Y⟩ = .ok W ∧
    ∀ i j v, (∀ h, (X.get h).entry i j ≡ v [ZMOD b.moduli.get h]) →
      (∀ w, W.entry i j = w ↔ b.IsBalanced w ∧ numbers.get j * w ≡ v [ZMOD b.product]) ∧
      ∀ c, v = numbers.get j * c → 2 * |c| < b.product → W.entry i j = c

/-- There is a table of inverses unless a number shares a factor with a modulus, and then scaling by
it divides exactly, in every column and whatever the signs of the residues. -/
theorem divides_of_inverseTable {moduli : List ℤ} (hbasis : Basis.ofList moduli = .ok b)
    (numbers : List ℤ) :
    (b.inverseTable numbers = .error (.argument .notInvertible) ↔
      ∃ p ∈ numbers, ∃ q ∈ moduli, ¬ IsCoprime p q) ∧
    ((∀ p ∈ numbers, ∀ q ∈ moduli, IsCoprime p q) →
      ∃ rows, b.inverseTable numbers = .ok rows ∧
        ∀ {m : ℕ} (X : Planes b.size m numbers.length), b.AreResidues X →
          ∃ Y, Divides b numbers rows X Y) := by
  obtain ⟨hb, -⟩ := Basis.wellFormed_of_ofList hbasis
  have hmoduli : ∀ q, q ∈ moduli ↔ ∃ h, (b.moduli.get h : ℤ) = q := by
    intro q
    rw [Basis.eq_ofFn_of_ofList hbasis, List.mem_ofFn]
  refine ⟨?_, fun hcoprime => ?_⟩
  · rw [hb.inverseTable_eq_error_iff]
    simp only [hmoduli, exists_exists_eq_and]
  -- Coprime numbers exclude the only failure of the table.
  cases hrows : b.inverseTable numbers with
  | error f =>
    rw [Basis.inverseTable_eq_error hrows] at hrows
    obtain ⟨p, hp, h, hshared⟩ := hb.inverseTable_eq_error_iff.1 hrows
    exact absurd (hcoprime p hp _ ((hmoduli _).2 ⟨h, rfl⟩)) hshared
  | ok rows =>
    refine ⟨rows, rfl, fun X hX => ?_⟩
    obtain ⟨hsize, hwidth⟩ := Basis.length_inverseTable hrows
    have htable := hb.inverts_tableOf hrows
    have hscaled := hb.areResidues_scale hX htable.abs_lt
    refine ⟨_, scale_eq_ok X hsize hwidth, hscaled, fun h i j => ?_, fun i j => ?_,
      _, toIntegers_eq_ok hb hscaled, fun i j v hv => ?_⟩
    · have hfactor := htable.abs_lt h j
      rw [Basis.tableOf, Mat.entry_ofFn] at hfactor
      obtain ⟨hfits, -⟩ := hb.scaleEntry_exact traced_isExact Traced.given Traced.fits_given
        (fun _ => rfl) h (hX h i j) hfactor
      refine ⟨?_, hfits⟩
      rw [Basis.entry_scale_eq, Basis.tableOf, Mat.entry_ofFn]
      rfl
    · exact ⟨_, fun h => (hb.decode_modEq (fun h => (X.get h).entry i j) h).symm⟩
    · -- A small quotient is balanced, and there is only one balanced number with its residues.
      have hquotient := fun w => hb.entry_decodeMat_scale_eq_iff (w := w) hX htable hv
      refine ⟨hquotient, fun c hc hsmall => (hquotient c).2 ⟨?_, by rw [hc]⟩⟩
      have habs := abs_lt.1 (show |2 * c| < b.product by rwa [abs_mul])
      exact ⟨habs.1, habs.2.le⟩

/-- With the moduli 7 and 11 the columns hold 114 and -190, out of the range from -38 to 38, as
negative residues. Their quotients by 3 and 5 are the ends of that range. The number 14 has no
inverse modulo 7. -/
theorem divides_of_inverseTable_out_of_range : ∃ b, Basis.ofList [7, 11] = .ok b ∧
    b.inverseTable [3, 14] = .error (.argument .notInvertible) ∧
    ∃ rows, b.inverseTable [3, 5] = .ok rows ∧
      let X : Planes b.size 1 2 := Vector.ofFn fun h => Mat.ofFn fun _ j =>
        ([[-5, -1], [-7, -3]].getD h.val []).getD j.val 0
      ∃ Y W, Divides b [3, 5] rows X Y ∧ toIntegers b ⟨b.size, 1, 2, Y⟩ = .ok W ∧
        W.entry 0 0 = 38 ∧ W.entry 0 1 = -38 := by
  have hbasis : Basis.ofList [7, 11] = .ok ⟨2, #v[7, 11], #v[22, 56]⟩ := by decide +kernel
  have hproduct : Basis.product ⟨2, #v[7, 11], #v[22, 56]⟩ = 77 := by decide +kernel
  obtain ⟨hshared, -⟩ := divides_of_inverseTable hbasis [3, 14]
  obtain ⟨-, hcoprime⟩ := divides_of_inverseTable hbasis [3, 5]
  obtain ⟨rows, hrows, hdivides⟩ := hcoprime (by decide)
  refine ⟨_, hbasis, hshared.2 ⟨14, by simp, 7, by simp, by decide⟩, rows, hrows, ?_⟩
  intro X
  have hX : Basis.AreResidues _ X := by
    unfold Basis.AreResidues
    decide
  obtain ⟨Y, hY⟩ := hdivides X hX
  obtain ⟨W, hW, hquotients⟩ := hY.quotients
  refine ⟨Y, W, hY, hW, ?_, ?_⟩
  · exact (hquotients 0 0 114 (by decide)).2 38 (by decide) (by rw [hproduct]; decide)
  · exact (hquotients 0 1 (-190) (by decide)).2 (-38) (by decide) (by rw [hproduct]; decide)

end Buffer
end PadicLift
