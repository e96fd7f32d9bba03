import PadicLift.Proofs.Matrix.Tensor
import PadicLift.Proofs.Modular.Inversion

/-!
# Blocked products are the plain ones

Arrays are multiplied modulo `p` by cutting the inner dimension into blocks. After every block each
cell of the running total is the residue of the inner product over the columns so far
(`Tensor.productMod_ofFn`). So the product of arrays of residues is the one that `Mat.mulMod` and
`Mat.mulVecMod` compute, whatever the sizes, and no number that is formed leaves the range of a word
(`IsExactDot`).
-/

namespace PadicLift

open Machine

variable {m k n p : ℕ}

theorem isWord_modulus (hmax : p ≤ maxModulus) : isWord (p : ℤ) = true := by
  have hcapacity : maxModulus ≤ wordCapacity := by decide
  apply isWord_of_abs_le
  rw [abs_of_nonneg (Int.natCast_nonneg p)]
  omega

/-! ## Single blocks -/

section Blocks

variable (hp : 0 < p) (hmax : p ≤ maxModulus)
include hp hmax

/-- A block that is not too long is summed exactly. -/
theorem rem_blockSum_word {terms : List (ℤ × ℤ)} (hterms : Reading.plain.AreResidues p terms)
    (hlength : terms.length ≤ wordBlock p) :
    word.rem (word.blockSum terms) p = Reading.plain.dot terms % p := by
  have hsquare : 0 ≤ ((p : ℤ) - 1) * (p - 1) := mul_self_nonneg _
  have hshort : (terms.length : ℤ) * (((p : ℤ) - 1) * (p - 1)) ≤ (wordCapacity : ℕ) :=
    (mul_le_mul_of_nonneg_right (by omega) hsquare).trans (wordBlock_mul_le hp hmax).1
  have hsum := Summation.run_exact word_isExact (s := Summation.leftToRight terms) (q := (p : ℤ))
    (by rwa [Summation.terms_leftToRight]) (by rwa [Summation.terms_leftToRight])
  rw [Summation.run_leftToRight, Summation.terms_leftToRight] at hsum
  have hvalue : word.blockSum terms = Reading.plain.dot terms := hsum.2
  rw [word_rem_eq _ (by omega), hvalue]

/-- Two residues are added exactly. -/
theorem rem_add_word (x y : ℤ) : word.rem (word.add (x % p) (y % p)) p = (x + y) % p := by
  have hpos : (0 : ℤ) < p := by omega
  have hsum := (wordBlock_mul_le hp hmax).2
  have hx := abs_emod_lt x hpos
  have hy := abs_emod_lt y hpos
  have hle := abs_add_le (x % p) (y % p)
  rw [word_rem_eq _ hpos]
  show wrap (x % p + y % p) % p = _
  rw [wrap_eq_self (by omega)]
  exact (Int.add_emod x y p).symm

end Blocks

/-! ## Arrays -/

namespace Tensor

variable {f g : List ℕ → ℤ} {rest : Shape}

/-- The array whose cells are the inner products over the first `s` columns, modulo `p`. -/
def partialProduct (p : ℕ) (f g : List ℕ → ℤ) (m k : ℕ) (rest : Shape) (s : ℕ) : Tensor ℤ :=
  ofFn (m :: rest) fun position => Reading.plain.dot ((pairs f g k position).take s) % p

variable (hp : 0 < p) (hmax : p ≤ maxModulus) (hrest : rest.length ≤ 1)
  (hpairs : ∀ position, IsWithin (m :: rest) position →
    Reading.plain.AreResidues p (pairs f g k position))
include hp hmax hrest hpairs

/-- One block of columns against as many rows. -/
theorem blockProduct_ofFn (first : ℕ) :
    blockProduct p (ofFn [m, k] f) (ofFn (k :: rest) g) first (wordBlock p)
      = .ok (ofFn (m :: rest) fun position =>
          Reading.plain.dot (((pairs f g k position).drop first).take (wordBlock p)) % p) := by
  have hslices : matMul (word.blockSum ·) ((ofFn [m, k] f).slice 0 1 first (wordBlock p))
      ((ofFn (k :: rest) g).slice 0 0 first (wordBlock p)) = .ok (ofFn (m :: rest) fun position =>
        word.blockSum (pairs (fun q => f (q.modify 1 (first + ·)))
          (fun q => g (q.modify 0 (first + ·))) (min (wordBlock p) (k - first)) position)) := by
    rw [slice_columns, slice_rows, matMul_ofFn _ _ _ _ _ hrest]
  refine Outcome.bind_eq_ok.2 ⟨_, hslices, ?_⟩
  rw [if_pos (isWord_modulus hmax)]
  refine congrArg Except.ok ((map_ofFn _ _ _).trans (ofFn_congr fun position hposition => ?_))
  have hresidues := hpairs position hposition
  obtain ⟨i, tail, -, -, rfl⟩ := isWithin_cons.1 hposition
  rw [pairs_slice]
  apply rem_blockSum_word hp hmax
  · intro u hu
    exact hresidues u (List.mem_of_mem_drop (List.mem_of_mem_take hu))
  · exact List.length_take_le _ _

/-- A block is added to the running total. -/
theorem combine_block (s : ℕ) :
    (blockProduct p (ofFn [m, k] f) (ofFn (k :: rest) g) s (wordBlock p) >>= fun part =>
      (partialProduct p f g m k rest s).combine (fun x y => word.rem (word.add x y) p) part)
      = .ok (partialProduct p f g m k rest (s + wordBlock p)) := by
  refine Outcome.bind_eq_ok.2 ⟨_, blockProduct_ofFn hp hmax hrest hpairs s, ?_⟩
  rw [partialProduct, combine_ofFn]
  refine congrArg Except.ok (ofFn_congr fun position _ => ?_)
  rw [rem_add_word hp hmax, ← Reading.dot_append, List.take_add]

/-- After `c` further blocks the running total is the partial product over `c + 1` blocks. -/
theorem foldlM_blocks (c : ℕ) :
    ((List.range c).map fun i => (i + 1) * wordBlock p).foldlM
      (fun total s => do
        let part ← blockProduct p (ofFn [m, k] f) (ofFn (k :: rest) g) s (wordBlock p)
        total.combine (fun x y => word.rem (word.add x y) p) part)
      (partialProduct p f g m k rest (wordBlock p))
      = .ok (partialProduct p f g m k rest ((c + 1) * wordBlock p)) := by
  induction c with
  | zero =>
    rw [zero_add, one_mul]
    rfl
  | succ c ih =>
    rw [List.range_succ, List.map_append, List.foldlM_append]
    refine Outcome.bind_eq_ok.2 ⟨_, ih, ?_⟩
    refine Outcome.bind_eq_ok.2 ⟨_, combine_block hp hmax hrest hpairs _, ?_⟩
    rw [Nat.succ_mul (c + 1)]
    rfl

/-- The blocks cover all columns; the last one may be short. -/
theorem productMod_ofFn :
    productMod p (ofFn [m, k] f) (ofFn (k :: rest) g)
      = .ok (ofFn (m :: rest) fun position => Reading.plain.dot (pairs f g k position) % p) := by
  cases k with
  | zero =>
    -- There are no blocks, and no terms in any cell.
    exact congrArg Except.ok (ofFn_congr fun position _ => rfl)
  | succ k =>
    have hcover : k < k / wordBlock p * wordBlock p + wordBlock p :=
      Nat.lt_div_mul_add (blockLength_pos _ _)
    have hfirst := blockProduct_ofFn hp hmax hrest hpairs 0
    refine Outcome.bind_eq_ok.2 ⟨_, hfirst, ?_⟩
    refine (foldlM_blocks hp hmax hrest hpairs (k / wordBlock p)).trans ?_
    refine congrArg Except.ok (ofFn_congr fun position _ => ?_)
    rw [List.take_of_length_le]
    rw [pairs, List.length_map, List.length_range, Nat.succ_mul]
    exact hcover

end Tensor

/-! ## Matrices and vectors as arrays -/

/-- The entry at a position. -/
def Mat.place (A : Mat m n) (position : List ℕ) : ℤ :=
  if h : position.headD 0 < m ∧ position.tail.headD 0 < n then A.entry ⟨_, h.1⟩ ⟨_, h.2⟩ else 0

theorem Mat.place_eq (A : Mat m n) (i : Fin m) (j : Fin n) : A.place [i, j] = A.entry i j :=
  dif_pos ⟨i.isLt, j.isLt⟩

/-- The entry of a vector at a position. -/
def placeVector (v : Vector ℤ n) (position : List ℕ) : ℤ :=
  if h : position.headD 0 < n then v.get ⟨_, h⟩ else 0

theorem placeVector_eq (v : Vector ℤ n) (tail : List ℕ) (j : Fin n) :
    placeVector v (j :: tail) = v.get j :=
  dif_pos j.isLt

namespace Tensor

theorem ofFn_place (A : Mat m n) : ofFn [m, n] A.place = ofMat A := by
  rw [ofFn_two]
  exact congrArg ofMat (Mat.ext_entry fun i j => by rw [Mat.entry_ofFn, Mat.place_eq])

theorem ofFn_placeVector (v : Vector ℤ n) : ofFn [n] (placeVector v) = ofVector v := by
  rw [ofFn_one]
  exact congrArg ofVector (ext_get fun j => by rw [get_ofFn, placeVector_eq])

/-- The terms of a cell make up an entry of the product. -/
theorem dot_pairs (f g : List ℕ → ℤ) (k : ℕ) (position : List ℕ) :
    Reading.plain.dot (pairs f g k position)
      = ∑ t : Fin k, f [position.headD 0, t] * g (t :: position.tail) := by
  rw [pairs, ← List.map_coe_finRange_eq_range, List.map_map, ← List.ofFn_eq_map, Reading.dot,
    List.map_ofFn, List.sum_ofFn]
  rfl

/-- The product of a matrix of residues and an array of residues. -/
theorem productMod_place (hp : 0 < p) (hmax : p ≤ maxModulus) {rest : Shape}
    (hrest : rest.length ≤ 1) {A : Mat m k} (hA : A.IsReduced p) {g : List ℕ → ℤ}
    (hg : ∀ position, IsWithin (k :: rest) position → |g position| < p) :
    productMod p (ofMat A) (ofFn (k :: rest) g) = .ok (ofFn (m :: rest) fun position =>
      (∑ t : Fin k, A.place [position.headD 0, t] * g (t :: position.tail)) % p) := by
  have hpairs : ∀ position, IsWithin (m :: rest) position →
      Reading.plain.AreResidues p (pairs A.place g k position) := by
    intro position hposition pair hpair
    obtain ⟨i, tail, hi, htail, rfl⟩ := isWithin_cons.1 hposition
    obtain ⟨t, ht, rfl⟩ := List.mem_map.1 hpair
    rw [List.mem_range] at ht
    have hplace : A.place [i, t] = A.entry ⟨i, hi⟩ ⟨t, ht⟩ := A.place_eq ⟨i, hi⟩ ⟨t, ht⟩
    refine ⟨⟨trivial, ?_⟩, trivial, hg _ (isWithin_cons.2 ⟨t, tail, ht, htail, rfl⟩)⟩
    show |A.place [i, t]| < p
    rw [hplace]
    exact hA.abs_lt _ _
  rw [← ofFn_place A, productMod_ofFn hp hmax hrest hpairs]
  simp only [dot_pairs]

end Tensor

/-! ## Inner products within words -/

/-- `x` is the inner product of `u` and `w` modulo `p` as words compute it, block by block. Whatever
the order in which the products of a block are added, the result is the same, and every product,
every sum within a block and every running total is at most the largest word. -/
structure IsExactDot (p : ℕ) (u w : Fin k → ℤ) (x : ℤ) : Prop where
  value : x = (∑ t, u t * w t) % p
  any_order : ∀ order : List (ℤ × ℤ) → Summation ℤ, (∀ terms, (order terms).terms.Perm terms) →
    word.dotBy order (wordBlock p) p (List.ofFn fun t => (u t, w t)) 0 = x
  formed_le : ∀ order : List (Traced × Traced) → Summation Traced,
    (∀ terms, (order terms).terms.Perm terms) →
    ∀ v ∈ ((recording word).dotBy order (wordBlock p) (.given p)
      (List.ofFn fun t => (.given (u t), .given (w t))) (.given 0)).formed, |v| ≤ 2 ^ 63 - 1

theorem IsExactDot.mem_range {u w : Fin k → ℤ} {x : ℤ} (h : IsExactDot p u w x) (hp : 0 < p) :
    0 ≤ x ∧ x < p := by
  rw [h.value]
  exact ⟨Int.emod_nonneg _ (by omega), Int.emod_lt_of_pos _ (by omega)⟩

/-- Dot products of residues are exact in blocks of words. -/
theorem isExactDot (hp : 0 < p) (hmax : p ≤ maxModulus) {u w : Fin k → ℤ} (hu : ∀ t, |u t| < p)
    (hw : ∀ t, |w t| < p) :
    IsExactDot p u w (word.blockedDot (wordBlock p) p (List.ofFn fun t => (u t, w t)) 0) := by
  have hterms : Reading.plain.AreResidues p (List.ofFn fun t => (u t, w t)) := by
    intro pair hpair
    obtain ⟨t, rfl⟩ := List.mem_ofFn.1 hpair
    exact ⟨⟨trivial, hu t⟩, ⟨trivial, hw t⟩⟩
  have hvalue := blockedDot_word_eq hp hmax hterms
  refine ⟨?_, ?_, ?_⟩
  · rw [hvalue, Reading.dot, List.map_ofFn, List.sum_ofFn]
    rfl
  · intro order horder
    rw [hvalue]
    exact dotBy_word_eq horder hp hmax hterms
  · intro order horder
    have hgiven : (Traced.reading wordCapacity).AreResidues p
        (List.ofFn fun t => (Traced.given (u t), Traced.given (w t))) := by
      intro pair hpair
      obtain ⟨t, rfl⟩ := List.mem_ofFn.1 hpair
      exact ⟨⟨Traced.fits_given _, hu t⟩, ⟨Traced.fits_given _, hw t⟩⟩
    obtain ⟨⟨hfits, -⟩, -⟩ := dotBy_wordBlock_exact (recording_isExact word_isExact) horder hp hmax
      (q := Traced.given p) (Traced.fits_given _) rfl hgiven
    exact hfits

/-! ## Products -/

namespace Nested

/-- Residues are words. -/
theorem asWords_of_lt (hmax : p ≤ maxModulus) {x : Nested}
    (hx : ∀ v ∈ x.toList, 0 ≤ v ∧ v < p) : asWords x = .ok x := by
  have hcapacity : maxModulus ≤ wordCapacity := by decide
  unfold asWords
  rw [if_pos]
  rw [List.all_eq_true]
  intro v hv
  have hrange := hx v hv
  apply isWord_of_abs_le
  rw [abs_of_nonneg hrange.1]
  omega

theorem mem_range_of_isReduced {A : Mat m n} (hA : A.IsReduced p) :
    ∀ v ∈ (ofMat A).toList, 0 ≤ v ∧ v < p := by
  intro v hv
  obtain ⟨i, j, rfl⟩ := mem_toList_ofMat hv
  exact hA i j

end Nested

/-- Regular nested lists of residues are multiplied as they are. -/
theorem productMod_eq_productRegular (hmax : p ≤ maxModulus) {a b : Nested}
    (ha : a.isRegular = true) (hb : b.isRegular = true) (hva : ∀ v ∈ a.toList, 0 ≤ v ∧ v < p)
    (hvb : ∀ v ∈ b.toList, 0 ≤ v ∧ v < p) : productMod a b p = productRegular a b p := by
  unfold productMod
  rw [ha, hb, Nested.asWords_of_lt hmax hva, Nested.asWords_of_lt hmax hvb]
  rfl

namespace Mat

/-- `C` is the product of `A` and `B` modulo `p`. -/
structure IsProductMod (p : ℕ) (A : Mat m k) (B : Mat k n) (C : Mat m n) : Prop where
  ofArrays : Tensor.productMod p (.ofMat A) (.ofMat B) = .ok (.ofMat C)
  ofNested : 0 < m → 0 < k → 0 < n → productMod (.ofMat A) (.ofMat B) p = .ok (.ofMat C)
  reduced : C.IsReduced p
  entries : ∀ i j, IsExactDot p (A.entry i) (fun t => B.entry t j) (C.entry i j)

/-- `w` is the product of `A` and the vector `v` modulo `p`. -/
structure IsProductVecMod (p : ℕ) (A : Mat m k) (v : Vector ℤ k) (w : Vector ℤ m) : Prop where
  ofArrays : Tensor.productMod p (.ofMat A) (.ofVector v) = .ok (.ofVector w)
  ofNested : 0 < m → 0 < k → productMod (.ofMat A) (.ofVector v) p = .ok (.ofVector w)
  reduced : ∀ i, 0 ≤ w.get i ∧ w.get i < p
  entries : ∀ i, IsExactDot p (A.entry i) v.get (w.get i)

section
variable (hp : 0 < p) (hmax : p ≤ maxModulus)
include hp hmax

/-- The product that is run is the product of the matrices, reduced. -/
theorem isProductMod_mulMod {A : Mat m k} {B : Mat k n} (hA : A.IsReduced p)
    (hB : B.IsReduced p) : IsProductMod p A B (A.mulMod p B) := by
  have hentries : ∀ i j, IsExactDot p (A.entry i) (fun t => B.entry t j)
      ((A.mulMod p B).entry i j) := by
    intro i j
    rw [mulMod, entry_ofFn]
    exact isExactDot hp hmax (hA.abs_lt i) fun t => hB.abs_lt t j
  refine ⟨?_, ?_, fun i j => (hentries i j).mem_range hp, hentries⟩
  · have hplaces : ∀ position, Tensor.IsWithin [k, n] position → |B.place position| < p := by
      intro position hposition
      obtain ⟨t, j, ht, hj, rfl⟩ := Tensor.isWithin_two.1 hposition
      have hplace : B.place [t, j] = B.entry ⟨t, ht⟩ ⟨j, hj⟩ := B.place_eq ⟨t, ht⟩ ⟨j, hj⟩
      rw [hplace]
      exact hB.abs_lt _ _
    rw [← Tensor.ofFn_place B, Tensor.productMod_place hp hmax (by simp) hA hplaces,
      Tensor.ofFn_two]
    refine congrArg (fun C => Except.ok (Tensor.ofMat C)) (ext_entry fun i j => ?_)
    rw [entry_ofFn, (hentries i j).value]
    simp only [List.headD_cons, List.tail_cons, place_eq]
  · intro hm hk hn
    rw [productMod_eq_productRegular hmax (Nested.isRegular_ofMat hm hk A)
      (Nested.isRegular_ofMat hk hn B) (Nested.mem_range_of_isReduced hA)
      (Nested.mem_range_of_isReduced hB), productRegular, Nested.shape_ofMat hm hk,
      Nested.shape_ofMat hk hn]
    dsimp only
    rw [if_pos ⟨rfl, isWord_modulus hmax⟩, Nested.readMat_ofMat, Nested.readMat_ofMat]
    rfl

/-- So is the product with a vector. -/
theorem isProductVecMod_mulVecMod {A : Mat m k} {v : Vector ℤ k} (hA : A.IsReduced p)
    (hv : ∀ t, 0 ≤ v.get t ∧ v.get t < p) : IsProductVecMod p A v (A.mulVecMod p v) := by
  have habs : ∀ t, |v.get t| < p := by
    intro t
    rw [abs_of_nonneg (hv t).1]
    exact (hv t).2
  have hentries : ∀ i, IsExactDot p (A.entry i) v.get ((A.mulVecMod p v).get i) := by
    intro i
    rw [mulVecMod, get_ofFn]
    exact isExactDot hp hmax (hA.abs_lt i) habs
  refine ⟨?_, ?_, fun i => (hentries i).mem_range hp, hentries⟩
  · -- The product of arrays, block by block.
    have hplaces : ∀ position, Tensor.IsWithin [k] position → |placeVector v position| < p := by
      intro position hposition
      obtain ⟨t, tail, ht, -, rfl⟩ := Tensor.isWithin_cons.1 hposition
      have hplace : placeVector v (t :: tail) = v.get ⟨t, ht⟩ := placeVector_eq v tail ⟨t, ht⟩
      rw [hplace]
      exact habs _
    rw [← Tensor.ofFn_placeVector v, Tensor.productMod_place hp hmax (by simp) hA hplaces,
      Tensor.ofFn_one]
    refine congrArg (fun w => Except.ok (Tensor.ofVector w)) (ext_get fun i => ?_)
    rw [get_ofFn, (hentries i).value]
    simp only [List.headD_cons, List.tail_cons, place_eq, placeVector_eq]
  · -- The product of nested lists: regular ones of reduced words are read as arrays.
    intro hm hk
    have hvector : (Nested.ofVector v).toList = v.toList := Nested.toList_list_entry v.toList
    have hrange : ∀ x ∈ (Nested.ofVector v).toList, 0 ≤ x ∧ x < p := by
      rw [hvector, toList_eq_ofFn]
      intro x hx
      obtain ⟨t, rfl⟩ := List.mem_ofFn.1 hx
      exact hv t
    rw [productMod_eq_productRegular hmax (Nested.isRegular_ofMat hm hk A)
      (Nested.isRegular_ofVector hk v) (Nested.mem_range_of_isReduced hA) hrange, productRegular,
      Nested.shape_ofMat hm hk, Nested.shape_ofVector hk]
    dsimp only
    rw [if_pos ⟨rfl, isWord_modulus hmax⟩, Nested.readMat_ofMat, hvector,
      Nested.toVector_toList]
    rfl

end

/-! ## The test for inverses -/

theorem isReduced_identity (hp : 2 ≤ p) : (identity n).IsReduced p := by
  intro i j
  rw [identity, entry_ofFn]
  split <;> omega

/-- The test decides whether the product is the identity matrix modulo `p`. -/
theorem isInverseMod_iff (hp : 2 ≤ p) (hmax : p ≤ maxModulus) (A B : Mat n n) :
    (A.reduce p).isInverseMod p (B.reduce p) = true ↔ A.modulo p * B.modulo p = 1 := by
  have hpos : 0 < p := by omega
  have hA := isReduced_reduce hpos A
  have hB := isReduced_reduce hpos B
  have hproduct := modulo_mulMod hpos hmax hA hB
  rw [modulo_reduce, modulo_reduce] at hproduct
  rw [isInverseMod, beq_iff_eq, ← hproduct, ← modulo_identity]
  constructor
  · intro h
    rw [h]
  · intro h
    exact (isProductMod_mulMod hpos hmax hA hB).reduced.eq_of_modulo_eq (isReduced_identity hp) h

/-- Square matrices of integers are tested in their residues. -/
theorem areInverse_ofMat (hp : 2 ≤ p) (hmax : p ≤ maxModulus) (hn : 0 < n) (A B : Mat n n) :
    areInverse (.ofMat A) (.ofMat B) p
      = .ok ((A.reduce p).isInverseMod p (B.reduce p)) := by
  have hpos : 0 < p := by omega
  refine Outcome.bind_eq_ok.2 ⟨_, reduceExact_ofMat hn hn hpos hmax A, ?_⟩
  refine Outcome.bind_eq_ok.2 ⟨_, reduceExact_ofMat hn hn hpos hmax B, ?_⟩
  rw [Nested.shape_ofMat hn hn, Nested.shape_ofMat hn hn, if_neg (not_not.2 rfl)]
  dsimp only
  rw [if_neg (not_not.2 rfl), if_pos ⟨rfl, isWord_modulus hmax⟩, Nested.readMat_ofMat,
    Nested.readMat_ofMat]
  rfl

/-- For every modulus from 2 up to `maxModulus` and all sizes, products of residues modulo `p` are
exact and stay within words, and the test for inverses says whether two square matrices of integers
are inverse to each other modulo `p`. -/
theorem mulMod_exact (hp : 2 ≤ p) (hmax : p ≤ maxModulus) :
    (∀ {m k n : ℕ} {A : Mat m k} {B : Mat k n}, A.IsReduced p → B.IsReduced p →
      IsProductMod p A B (A.mulMod p B)) ∧
    (∀ {m k : ℕ} {A : Mat m k} {v : Vector ℤ k}, A.IsReduced p →
      (∀ t, 0 ≤ v.get t ∧ v.get t < p) → IsProductVecMod p A v (A.mulVecMod p v)) ∧
    ∀ {n : ℕ} (A B : Mat n n),
      (0 < n → areInverse (.ofMat A) (.ofMat B) p
        = .ok ((A.reduce p).isInverseMod p (B.reduce p))) ∧
      ((A.reduce p).isInverseMod p (B.reduce p) = true ↔ A.modulo p * B.modulo p = 1) := by
  have hpos : 0 < p := by omega
  refine ⟨isProductMod_mulMod hpos hmax, isProductVecMod_mulVecMod hpos hmax, ?_⟩
  intro n A B
  exact ⟨fun hn => areInverse_ofMat hp hmax hn A B, isInverseMod_iff hp hmax A B⟩

/-- For the largest modulus a block holds 1024 products. A row of 2049 times the largest residue,
which is one product more than two blocks, times itself is 2049 modulo `p`. -/
theorem mulMod_exact_largest_modulus :
    wordBlock maxModulus = 1024 ∧
    ∃ C : Mat 1 1, IsProductMod maxModulus (Mat.ofFn fun (_ : Fin 1) (_ : Fin 2049) => 94906264)
      (Mat.ofFn fun (_ : Fin 2049) (_ : Fin 1) => 94906264) C ∧ C.entry 0 0 = 2049 := by
  obtain ⟨hproduct, -⟩ := mulMod_exact (p := maxModulus) (by decide) le_rfl
  have hresidue : (0 : ℤ) ≤ 94906264 ∧ (94906264 : ℤ) < maxModulus := by decide
  have hC := hproduct (A := Mat.ofFn fun (_ : Fin 1) (_ : Fin 2049) => 94906264)
    (B := Mat.ofFn fun (_ : Fin 2049) (_ : Fin 1) => 94906264)
    (fun i j => by rw [entry_ofFn]; exact hresidue) (fun i j => by rw [entry_ofFn]; exact hresidue)
  refine ⟨by decide, _, hC, ?_⟩
  rw [(hC.entries 0 0).value]
  simp only [entry_ofFn, Finset.sum_const, Finset.card_univ, Fintype.card_fin, nsmul_eq_mul]
  decide

end Mat

end PadicLift
