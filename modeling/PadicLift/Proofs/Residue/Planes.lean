import Mathlib.Algebra.BigOperators.ModEq
import PadicLift.Proofs.Number.Machine
import PadicLift.Proofs.Residue.Basis
import PadicLift.Residue.Planes

/-!
# Exact products of residues

A double holds the whole numbers up to `2 ^ 53 - 1`. The block length of a basis is chosen so that
nothing that `multiply` forms for one entry is larger: not the sum of a block, whatever the order of
its products, not the running total, and not the product with a reduced factor. So `multiply` yields
the residues of `β D + α A C`, and `scale` those of a product with a factor for each column.
-/

namespace PadicLift
namespace Basis

open Machine

variable {α : Type} {m n k : ℕ}

/-! ## One entry -/

/-- One entry as `multiplyEntry` computes it, with the products of each block added in an order of
one's own. -/
def multiplyEntryBy (M : Machine α) (order : List (α × α) → Summation α) (block : ℕ) (q alpha : α)
    (beta? : Option α) (d : α) (terms : List (α × α)) : α :=
  let product := M.dotBy order block q terms M.zero
  let scaled := M.rem (M.mul product alpha) q
  match beta? with
  | none => M.mod scaled q
  | some beta => M.mod (M.add scaled (M.rem (M.mul d beta) q)) q

/-- Summed from left to right, an entry is the one that is run. -/
theorem multiplyEntryBy_leftToRight (M : Machine α) (block : ℕ) (q alpha : α) (beta? : Option α)
    (d : α) (terms : List (α × α)) :
    multiplyEntryBy M Summation.leftToRight block q alpha beta? d terms
      = multiplyEntry M block q alpha beta? d terms := by
  cases beta? with
  | none => simp only [multiplyEntryBy, multiplyEntry, dotBy_leftToRight]
  | some beta => simp only [multiplyEntryBy, multiplyEntry, dotBy_leftToRight]

/-- What the entry `d` contributes: nothing without a factor. -/
def contribution (R : Reading α) (beta? : Option α) (d : α) : ℤ :=
  match beta? with
  | none => 0
  | some beta => R.value d * R.value beta

/-- Products of residues and blocks of them fit the capacity. -/
structure Admits (capacity : ℤ) (block : ℕ) (q : ℤ) : Prop where
  block_pos : 0 < block
  modulus_pos : 0 < q
  twice_le : 2 * q ≤ capacity
  square_le : (q - 1) * (q - 1) ≤ capacity
  block_le : block * ((q - 1) * (q - 1)) ≤ capacity

/-- The product of two residues fits before it is reduced, and is a residue afterwards. -/
theorem Admits.mul_rem {M : Machine α} {R : Reading α} {capacity : ℤ} (hM : M.IsExact R capacity)
    {block : ℕ} {q : α} (hq : R.Fits q) (hadmits : Admits capacity block (R.value q)) {x y : α}
    (hx : R.IsResidue (R.value q) x) (hy : R.IsResidue (R.value q) y) :
    R.IsResidue (R.value q) (M.rem (M.mul x y) q) ∧
      R.value (M.rem (M.mul x y) q) ≡ R.value x * R.value y [ZMOD R.value q] := by
  have hpos := hadmits.modulus_pos
  have htwice := hadmits.twice_le
  obtain ⟨hmul, hvalue⟩ := hM.mul hx.1 hy.1
    ((abs_mul_le_of_abs_lt hx.2 hy.2).trans hadmits.square_le)
  obtain ⟨hrem, hmod, hlt⟩ := hM.rem hmul hq hpos (by omega)
  rw [hvalue] at hmod
  exact ⟨⟨hrem, hlt⟩, hmod⟩

/-- On an exact machine one entry is the residue of `β d + α a c`. -/
theorem multiplyEntryBy_exact {M : Machine α} {R : Reading α} {capacity : ℤ}
    (hM : M.IsExact R capacity) {order : List (α × α) → Summation α}
    (horder : ∀ terms, (order terms).terms.Perm terms) {block : ℕ} {q : α} (hq : R.Fits q)
    (hadmits : Admits capacity block (R.value q)) {alpha : α}
    (halpha : R.IsResidue (R.value q) alpha) {beta? : Option α}
    (hbeta : ∀ beta ∈ beta?, R.IsResidue (R.value q) beta) {d : α}
    (hd : R.IsResidue (R.value q) d) {terms : List (α × α)}
    (hterms : R.AreResidues (R.value q) terms) :
    R.Fits (multiplyEntryBy M order block q alpha beta? d terms) ∧
      R.value (multiplyEntryBy M order block q alpha beta? d terms)
        = (contribution R beta? d + R.value alpha * R.dot terms) % R.value q := by
  have hpos := hadmits.modulus_pos
  have htwice := hadmits.twice_le
  have hle : R.value q ≤ capacity := by omega
  have hzero : R.IsResidue (R.value q) M.zero := by
    refine ⟨hM.zero.1, ?_⟩
    rw [hM.zero.2, abs_zero]
    exact hpos
  obtain ⟨hdot, hdotMod⟩ := dotBy_exact hM horder hadmits.block_pos hq hpos htwice
    hadmits.block_le hterms hzero
  rw [hM.zero.2, zero_add] at hdotMod
  set product := M.dotBy order block q terms M.zero
  obtain ⟨⟨hscaled, hscaledLt⟩, hscaledMod⟩ := hadmits.mul_rem hM hq hdot halpha
  have hscaledDot : R.value (M.rem (M.mul product alpha) q)
      ≡ R.value alpha * R.dot terms [ZMOD R.value q] := by
    rw [mul_comm (R.value alpha)]
    exact hscaledMod.trans (hdotMod.mul_right _)
  cases beta? with
  | none =>
    obtain ⟨hresult, hvalue⟩ := hM.mod hscaled hq hpos hle
    refine ⟨hresult, hvalue.trans ?_⟩
    rw [contribution, zero_add]
    exact hscaledDot
  | some beta =>
    have hbeta := hbeta beta rfl
    obtain ⟨⟨hkept, hkeptLt⟩, hkeptMod⟩ := hadmits.mul_rem hM hq hd hbeta
    -- Both terms are residues, so their sum is below twice the modulus.
    obtain ⟨hsum, hsumValue⟩ := hM.add hscaled hkept (by
      have := abs_add_le (R.value (M.rem (M.mul product alpha) q))
        (R.value (M.rem (M.mul d beta) q))
      omega)
    obtain ⟨hresult, hvalue⟩ := hM.mod hsum hq hpos hle
    refine ⟨hresult, hvalue.trans ?_⟩
    rw [hsumValue, contribution, add_comm]
    exact hkeptMod.add hscaledDot

/-! ## The entries of a product -/

variable {b : Basis}

/-- The blocks of a basis fit a double in every plane. -/
theorem WellFormed.admits (hb : b.WellFormed) (h : Fin b.size) :
    Admits doubleCapacity b.block (b.moduli.get h) := by
  set largest := b.moduli.toList.foldl max 0
  have hle : b.moduli.get h ≤ largest :=
    (le_foldl_max id b.moduli.toList 0).2 _ (mem_toList_iff.2 ⟨h, rfl⟩)
  have hlargest : largest ≤ maxModulus := by
    apply foldl_max_le (f := id) (Nat.zero_le _)
    intro q hq
    obtain ⟨g, rfl⟩ := mem_toList_iff.1 hq
    exact hb.le_max g
  have htwo := hb.two_le h
  -- The square of the largest admissible residue is just below `2 ^ 53`.
  have hsquare : ((largest : ℤ) - 1) * (largest - 1) + 1 ≤ (doubleCapacity : ℕ) := by
    rw [maxModulus] at hlargest
    have hbound : ((largest : ℤ) - 1) * (largest - 1) ≤ 94906264 * 94906264 :=
      mul_le_mul (by omega) (by omega) (by omega) (by omega)
    have hcapacity : ((doubleCapacity : ℕ) : ℤ) = 9007199254740991 := by decide
    omega
  have hmodulus : ((b.moduli.get h : ℤ) - 1) * (b.moduli.get h - 1)
      ≤ ((largest : ℤ) - 1) * (largest - 1) :=
    mul_le_mul (by omega) (by omega) (by omega) (by omega)
  refine ⟨blockLength_pos _ _, by omega, ?_, by omega, ?_⟩
  · rw [maxModulus] at hlargest
    have hcapacity : ((doubleCapacity : ℕ) : ℤ) = 9007199254740991 := by decide
    omega
  · exact blockLength_mul_le (by omega) (by omega) hsquare

/-- Residues of either sign in every plane. -/
def AreResidues (b : Basis) (X : Planes b.size m n) : Prop :=
  ∀ h i j, |(X.get h).entry i j| < b.moduli.get h

/-- One entry of `β D + α A C` in one plane as a machine computes it from given numbers, with the
products of each block added in an order of one's own. -/
def entryBy (M : Machine α) (given : ℤ → α) (order : List (α × α) → Summation α) (b : Basis)
    (D : Planes b.size m n) (A : Planes b.size m k) (C : Planes b.size k n) (alpha beta : ℤ)
    (h : Fin b.size) (i : Fin m) (j : Fin n) : α :=
  let q : ℤ := b.moduli.get h
  multiplyEntryBy M order b.block (given q) (given (alpha % q))
    (if beta = 0 then none else some (given (beta % q))) (given ((D.get h).entry i j))
    (List.ofFn fun t : Fin k => (given ((A.get h).entry i t), given ((C.get h).entry t j)))

section Product

variable (D : Planes b.size m n) (A : Planes b.size m k) (C : Planes b.size k n) (alpha beta : ℤ)
  (h : Fin b.size) (i : Fin m) (j : Fin n)

/-- The entries of `multiply` are computed in doubles, each block from left to right. -/
theorem entry_multiply_eq : ((b.multiply D A C alpha beta).get h).entry i j
    = b.entryBy double id Summation.leftToRight D A C alpha beta h i j := by
  unfold multiply entryBy
  rw [multiplyEntryBy_leftToRight, get_ofFn, Mat.entry_ofFn]
  rfl

variable {D A C}

/-- On an exact machine every order of summation gives the residue of `β d + α a c`. -/
theorem WellFormed.entryBy_exact (hb : b.WellFormed) {M : Machine α} {R : Reading α}
    (hM : M.IsExact R doubleCapacity) (given : ℤ → α) (hfits : ∀ v, R.Fits (given v))
    (hvalue : ∀ v, R.value (given v) = v) {order : List (α × α) → Summation α}
    (horder : ∀ terms, (order terms).terms.Perm terms) (hD : b.AreResidues D)
    (hA : b.AreResidues A) (hC : b.AreResidues C) :
    R.Fits (b.entryBy M given order D A C alpha beta h i j) ∧
      R.value (b.entryBy M given order D A C alpha beta h i j)
        = (beta * (D.get h).entry i j
            + alpha * ∑ t, (A.get h).entry i t * (C.get h).entry t j) % b.moduli.get h := by
  have hadmits := hb.admits h
  have hq : (0 : ℤ) < b.moduli.get h := hadmits.modulus_pos
  have hresidue : ∀ v : ℤ, |v| < b.moduli.get h →
      R.IsResidue (R.value (given (b.moduli.get h))) (given v) := by
    intro v hv
    refine ⟨hfits v, ?_⟩
    rw [hvalue, hvalue]
    exact hv
  rw [← hvalue (b.moduli.get h)] at hadmits
  -- A factor `beta = 0` is left out, so that the old target is not read.
  have hbeta : ∀ factor ∈ (if beta = 0 then none else some (given (beta % b.moduli.get h))),
      R.IsResidue (R.value (given (b.moduli.get h))) factor := by
    intro factor hfactor
    split at hfactor
    · cases hfactor
    · cases hfactor
      exact hresidue _ (abs_emod_lt beta hq)
  have hterms : R.AreResidues (R.value (given (b.moduli.get h)))
      (List.ofFn fun t : Fin k =>
        (given ((A.get h).entry i t), given ((C.get h).entry t j))) := by
    intro t ht
    obtain ⟨s, rfl⟩ := List.mem_ofFn.1 ht
    exact ⟨hresidue _ (hA h i s), hresidue _ (hC h s j)⟩
  obtain ⟨hresult, hentry⟩ := multiplyEntryBy_exact hM horder (hfits _) hadmits
    (hresidue (alpha % b.moduli.get h) (abs_emod_lt alpha hq)) hbeta (hresidue _ (hD h i j)) hterms
  refine ⟨hresult, hentry.trans ?_⟩
  -- What is left are the values of the numbers handed over.
  have hdot : R.dot (List.ofFn fun t : Fin k =>
      (given ((A.get h).entry i t), given ((C.get h).entry t j)))
      = ∑ t, (A.get h).entry i t * (C.get h).entry t j := by
    rw [Reading.dot, List.map_ofFn, List.sum_ofFn]
    exact Finset.sum_congr rfl fun t _ => by simp only [Function.comp, hvalue]
  have hcontribution : contribution R (if beta = 0 then none
      else some (given (beta % b.moduli.get h))) (given ((D.get h).entry i j))
      ≡ beta * (D.get h).entry i j [ZMOD b.moduli.get h] := by
    split
    · rename_i hbeta
      rw [hbeta, zero_mul]
      rfl
    · rw [contribution, hvalue, hvalue, mul_comm]
      exact (Int.mod_modEq _ _).mul_right _
  rw [hdot, hvalue, hvalue]
  exact hcontribution.add ((Int.mod_modEq _ _).mul_right _)

/-- Every entry of `multiply` is the residue of `β d + α a c` in `[0, q)`. -/
theorem WellFormed.entry_multiply (hb : b.WellFormed) (hD : b.AreResidues D)
    (hA : b.AreResidues A) (hC : b.AreResidues C) :
    ((b.multiply D A C alpha beta).get h).entry i j
      = (beta * (D.get h).entry i j
          + alpha * ∑ t, (A.get h).entry i t * (C.get h).entry t j) % b.moduli.get h := by
  rw [entry_multiply_eq]
  exact (hb.entryBy_exact alpha beta h i j double_isExact id (fun _ => trivial) (fun _ => rfl)
    (fun terms => by rw [Summation.terms_leftToRight]) hD hA hC).2

/-- A product consists of residues if its factors and the old target do. -/
theorem WellFormed.areResidues_multiply (hb : b.WellFormed) (hD : b.AreResidues D)
    (hA : b.AreResidues A) (hC : b.AreResidues C) :
    b.AreResidues (b.multiply D A C alpha beta) := by
  intro h i j
  rw [hb.entry_multiply alpha beta h i j hD hA hC]
  exact abs_emod_lt _ (hb.admits h).modulus_pos

end Product

/-! ## Products in place -/

section InPlace

variable (A : Planes b.size m k) (C : Planes b.size k n)

/-- The running total of an entry is that of its blocked inner product. -/
theorem entry_addBlocks (s : ℕ) (work : Workspace b.size m n) (h : Fin b.size) (i : Fin m)
    (j : Fin n) : ((b.addBlocks A C s work).total.get h).entry i j
      = double.blockedDot b.block (b.moduli.get h : ℤ)
        ((List.ofFn fun t : Fin k => ((A.get h).entry i t, (C.get h).entry t j)).drop s)
        ((work.total.get h).entry i j) := by
  fun_induction b.addBlocks A C s work with
  | case1 s work M hs part total ih =>
    have hne : (List.ofFn fun t : Fin k => ((A.get h).entry i t, (C.get h).entry t j)).drop s
        ≠ [] := by
      rw [Ne, List.drop_eq_nil_iff, List.length_ofFn]
      omega
    rw [ih, blockedDot_of_ne_nil _ b.block_pos _ hne, List.drop_drop]
    simp only [total, part, M, zipResidues, blockProduct, get_ofFn, Mat.entry_ofFn]
  | case2 s work hs =>
    rw [List.drop_eq_nil_of_le (by rw [List.length_ofFn]; omega), blockedDot]

/-- Whatever the storage holds before it, the product in place is the product. -/
theorem multiplyIn_fst (work : Workspace b.size m n) (D : Planes b.size m n) (alpha beta : ℤ) :
    (b.multiplyIn work D A C alpha beta).1 = b.multiply D A C alpha beta := by
  refine ext_get fun h => Mat.ext_entry fun i j => ?_
  have hcleared : (work.clear.total.get h).entry i j = 0 := by
    rw [Workspace.clear, get_map, Mat.entry_map]
  have hsum := entry_addBlocks A C 0 work.clear h i j
  rw [hcleared, List.drop_zero] at hsum
  unfold multiply multiplyIn multiplyEntry
  dsimp only
  rw [get_ofFn, Mat.entry_ofFn, mapResidues, get_ofFn, Mat.entry_map]
  by_cases hbeta : beta = 0
  · rw [if_pos hbeta, if_pos hbeta, mapResidues, get_ofFn, Mat.entry_map, hsum]
    rfl
  · rw [if_neg hbeta, if_neg hbeta, zipResidues, get_ofFn, Mat.entry_ofFn, mapResidues, get_ofFn,
      Mat.entry_map, hsum]
    rfl

end InPlace

/-! ## Encoding, decoding and scaling -/

theorem entry_encodeMat (A : Mat m n) (h : Fin b.size) (i : Fin m) (j : Fin n) :
    ((b.encodeMat A).get h).entry i j = A.entry i j % b.moduli.get h := by
  rw [encodeMat, get_map, Mat.entry_map]
  rfl

/-- The planes of an encoded matrix consist of residues. -/
theorem WellFormed.areResidues_encodeMat (hb : b.WellFormed) (A : Mat m n) :
    b.AreResidues (b.encodeMat A) := by
  intro h i j
  rw [entry_encodeMat]
  exact abs_emod_lt _ (hb.admits h).modulus_pos

/-- The product of encoded matrices is congruent to that of the matrices, in every plane. -/
theorem WellFormed.entry_multiply_encodeMat (hb : b.WellFormed) (R : Mat m n) (X : Mat m k)
    (Y : Mat k n) (alpha beta : ℤ) (h : Fin b.size) (i : Fin m) (j : Fin n) :
    ((b.multiply (b.encodeMat R) (b.encodeMat X) (b.encodeMat Y) alpha beta).get h).entry i j
      ≡ beta * R.entry i j + alpha * ∑ t, X.entry i t * Y.entry t j [ZMOD b.moduli.get h] := by
  rw [hb.entry_multiply alpha beta h i j (hb.areResidues_encodeMat R)
    (hb.areResidues_encodeMat X) (hb.areResidues_encodeMat Y)]
  refine (Int.mod_modEq _ _).trans (Int.ModEq.add ?_ (Int.ModEq.mul_left _ ?_))
  · rw [entry_encodeMat]
    exact (Int.mod_modEq _ _).mul_left _
  · apply Int.ModEq.sum
    intro t _
    rw [entry_encodeMat, entry_encodeMat]
    exact (Int.mod_modEq _ _).mul (Int.mod_modEq _ _)

theorem entry_decodeMat (X : Planes b.size m n) (i : Fin m) (j : Fin n) :
    (b.decodeMat X).entry i j
      = b.balance (∑ h, (X.get h).entry i j * (b.weights.get h : ℤ)) := by
  rw [decodeMat, Mat.entry_ofFn, foldl_add_eq_sum]
  rfl

/-- Residues of `v` decode to the number congruent to `v` in the balanced range. -/
theorem WellFormed.entry_decodeMat_eq (hb : b.WellFormed) {X : Planes b.size m n} {i : Fin m}
    {j : Fin n} {v : ℤ} (hX : ∀ h, (X.get h).entry i j ≡ v [ZMOD b.moduli.get h]) :
    (b.decodeMat X).entry i j = b.balance v := by
  rw [entry_decodeMat]
  exact balanceIn_congr (hb.sum_weights_modEq hX)

/-- On an exact machine a scaled residue is a residue of the product with the factor. -/
theorem WellFormed.scaleEntry_exact (hb : b.WellFormed) {M : Machine α} {R : Reading α}
    (hM : M.IsExact R doubleCapacity) (given : ℤ → α) (hfits : ∀ v, R.Fits (given v))
    (hvalue : ∀ v, R.value (given v) = v) (h : Fin b.size) {x factor : ℤ}
    (hx : |x| < b.moduli.get h) (hfactor : |factor| < b.moduli.get h) :
    let e := scaleEntry M (given (b.moduli.get h)) (given x) (given factor)
    R.Fits e ∧ |R.value e| < b.moduli.get h ∧ R.value e ≡ x * factor [ZMOD b.moduli.get h] := by
  have hadmits := hb.admits h
  rw [← hvalue (b.moduli.get h)] at hadmits hx hfactor
  rw [← hvalue x] at hx
  rw [← hvalue factor] at hfactor
  obtain ⟨⟨hresult, hlt⟩, hmod⟩ :=
    hadmits.mul_rem hM (hfits _) ⟨hfits x, hx⟩ ⟨hfits factor, hfactor⟩
  rw [hvalue] at hlt hmod
  rw [hvalue, hvalue] at hmod
  exact ⟨hresult, hlt, hmod⟩

section Scaling

variable {X : Planes b.size m n} {table : Mat b.size n}

theorem entry_scale_eq (h : Fin b.size) (i : Fin m) (j : Fin n) :
    ((b.scale X table).get h).entry i j
      = scaleEntry double (b.moduli.get h : ℤ) ((X.get h).entry i j) (table.entry h j) := by
  rw [scale, get_ofFn, scalePlane, Mat.entry_ofFn]
  rfl

/-- Scaling a column multiplies its residues by the factor of the column. -/
theorem WellFormed.entry_scale (hb : b.WellFormed) (hX : b.AreResidues X)
    (htable : ∀ h j, |table.entry h j| < b.moduli.get h) (h : Fin b.size) (i : Fin m)
    (j : Fin n) :
    ((b.scale X table).get h).entry i j
      ≡ (X.get h).entry i j * table.entry h j [ZMOD b.moduli.get h] := by
  rw [entry_scale_eq]
  exact (hb.scaleEntry_exact double_isExact id (fun _ => trivial) (fun _ => rfl) h (hX h i j)
    (htable h j)).2.2

/-- Scaling residues by residues leaves residues. -/
theorem WellFormed.areResidues_scale (hb : b.WellFormed) (hX : b.AreResidues X)
    (htable : ∀ h j, |table.entry h j| < b.moduli.get h) : b.AreResidues (b.scale X table) := by
  intro h i j
  rw [entry_scale_eq]
  exact (hb.scaleEntry_exact double_isExact id (fun _ => trivial) (fun _ => rfl) h (hX h i j)
    (htable h j)).2.1

end Scaling

end Basis
end PadicLift
