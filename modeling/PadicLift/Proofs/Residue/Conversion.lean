import PadicLift.Proofs.Matrix.Nested
import PadicLift.Proofs.Modular.Inversion
import PadicLift.Proofs.Reconstruction.Remainders
import PadicLift.Proofs.Residue.Buffer

/-!
# Conversion to residues and back

A basis exists exactly for pairwise coprime moduli: one that shares a factor with the others has no
weight. Residues and the integers in the balanced range determine each other. A weighted sum of
residues and a reconstruction one modulus at a time find integers with the same residues, so both
agree once they are moved into that range, and for a matrix of integers both are done entry by
entry.
-/

namespace PadicLift

/-! ## Lists of a known length -/

section Lists

variable {α β : Type} {n : ℕ}

theorem exists_eq_ofFn {xs : List α} (h : xs.length = n) : ∃ f : Fin n → α, xs = List.ofFn f := by
  subst h
  exact ⟨xs.get, (List.ofFn_get xs).symm⟩

theorem forall₂_ofFn_iff {R : α → β → Prop} {f : Fin n → α} {g : Fin n → β} :
    List.Forall₂ R (List.ofFn f) (List.ofFn g) ↔ ∀ h, R (f h) (g h) := by
  rw [List.forall₂_iff_get]
  constructor
  · intro hall h
    simpa using hall.2 h.val (by simp) (by simp)
  · intro hall
    refine ⟨by simp, fun i hi _ => ?_⟩
    rw [List.length_ofFn] at hi
    simpa using hall ⟨i, hi⟩

theorem zipWith_ofFn {γ : Type} (op : α → β → γ) (f : Fin n → α) (g : Fin n → β) :
    List.zipWith op (List.ofFn f) (List.ofFn g) = List.ofFn fun h => op (f h) (g h) :=
  List.ext_getElem (by simp) fun i _ _ => by simp

end Lists

namespace Basis

/-! ## Admitted moduli -/

/-- Moduli in range pass the check. -/
theorem checkModuli_eq_ok_of_range {moduli : List ℤ}
    (h : ∀ q ∈ moduli, 2 ≤ q ∧ q ≤ maxModulus) : ∃ qs, checkModuli moduli = .ok qs := by
  induction moduli with
  | nil => exact ⟨[], rfl⟩
  | cons p rest ih =>
    rw [List.forall_mem_cons] at h
    obtain ⟨q, rfl⟩ := Int.eq_ofNat_of_zero_le (show 0 ≤ p by omega)
    obtain ⟨qs, hqs⟩ := ih h.2
    have hq : checkModulus q = .ok q := checkModulus_natCast (by omega) (by omega)
    exact ⟨q :: qs, Outcome.bind_eq_ok.2 ⟨q, hq, Outcome.bind_eq_ok.2 ⟨qs, hqs, rfl⟩⟩⟩

theorem hasRepetition_eq_false {qs : List ℕ} (h : qs.Nodup) : hasRepetition qs = false := by
  induction qs with
  | nil => rfl
  | cons q rest ih =>
    rw [List.nodup_cons] at h
    rw [hasRepetition, ih h.2, Bool.or_false]
    simpa using h.1

/-- Coprime moduli from 2 up are distinct. -/
theorem nodup_of_coprime {qs : List ℕ} (htwo : ∀ q ∈ qs, 2 ≤ q) (h : qs.Pairwise Nat.Coprime) :
    qs.Nodup := by
  refine h.imp_of_mem fun hq _ hcoprime heq => ?_
  have hone := (Nat.coprime_self _).1 (heq ▸ hcoprime)
  have := htwo _ hq
  omega

/-- A modulus that is coprime to all others has a weight. -/
theorem exists_weight {n : ℕ} {q : Fin n → ℕ} {h : Fin n} (hpos : 0 < q h)
    (hcoprime : ∀ g, g ≠ h → Nat.Coprime (q g) (q h)) : ∃ w, weight (∏ g, q g) (q h) = .ok w := by
  have hothers : Nat.Coprime (∏ g ∈ Finset.univ.erase h, q g) (q h) :=
    Nat.Coprime.prod_left fun g hg => hcoprime g (Finset.ne_of_mem_erase hg)
  have hreduced : Nat.Coprime ((∏ g ∈ Finset.univ.erase h, q g) % q h) (q h) := by
    rwa [Nat.Coprime, ← Nat.gcd_rec, Nat.gcd_comm]
  obtain ⟨b, hb⟩ := exists_inverse? hreduced
  unfold weight
  rw [prod_div_eq q h hpos]
  simp only [hb]
  exact ⟨_, rfl⟩

/-- Coprime moduli are accepted. -/
theorem exists_ofModuli {n : ℕ} {q : Fin n → ℕ} (hpos : ∀ h, 0 < q h)
    (hcoprime : ∀ g h, g ≠ h → Nat.Coprime (q g) (q h)) : ∃ b, ofModuli (List.ofFn q) = .ok b := by
  obtain ⟨weights, hweights⟩ : ∃ ws,
      (List.ofFn q).mapM (weight (productOf (List.ofFn q))) = .ok ws := by
    rw [productOf_ofFn]
    cases hresult : (List.ofFn q).mapM (weight (∏ g, q g)) with
    | ok ws => exact ⟨ws, rfl⟩
    | error f =>
      obtain ⟨_, hmem, hf⟩ := Outcome.exists_mem_of_mapM_eq_error hresult
      obtain ⟨h, rfl⟩ := List.mem_ofFn.1 hmem
      obtain ⟨w, hw⟩ := exists_weight (hpos h) fun g hgh => hcoprime g h hgh
      rw [hw] at hf
      cases hf
  exact ⟨_, Outcome.bind_eq_ok.2 ⟨weights, hweights, rfl⟩⟩

/-- The moduli of a basis, as they were given. -/
theorem eq_ofFn_of_ofList {moduli : List ℤ} {b : Basis} (hb : ofList moduli = .ok b) :
    moduli = List.ofFn fun h => (b.moduli.get h : ℤ) := by
  obtain ⟨-, hmap⟩ := wellFormed_of_ofList hb
  rw [← hmap, toList_eq_ofFn, List.map_ofFn]
  rfl

/-- A basis exists exactly for pairwise coprime moduli, at least one, in the range of moduli. -/
theorem exists_ofList_iff {moduli : List ℤ} : (∃ b, ofList moduli = .ok b) ↔
    moduli ≠ [] ∧ (∀ q ∈ moduli, 2 ≤ q ∧ q ≤ maxModulus) ∧ moduli.Pairwise IsCoprime := by
  constructor
  · rintro ⟨b, hb⟩
    obtain ⟨hwell, -⟩ := wellFormed_of_ofList hb
    refine ⟨fun hnil => ?_, ?_⟩
    · rw [hnil] at hb
      cases hb
    · rw [eq_ofFn_of_ofList hb]
      refine ⟨fun q hq => ?_, ?_⟩
      · obtain ⟨h, rfl⟩ := List.mem_ofFn.1 hq
        have htwo := hwell.two_le h
        have hmax := hwell.le_max h
        exact ⟨by omega, by omega⟩
      · rw [List.pairwise_ofFn]
        exact fun g h hgh => Nat.isCoprime_iff_coprime.2 (hwell.coprime hgh.ne)
  · rintro ⟨hne, hrange, hpair⟩
    obtain ⟨qs, hqs⟩ := checkModuli_eq_ok_of_range hrange
    obtain ⟨rfl, htwo⟩ := checkModuli_eq_ok hqs
    -- Coprime moduli are distinct, so only a missing weight could still be in the way.
    have hcoprime : qs.Pairwise Nat.Coprime :=
      (List.pairwise_map.1 hpair).imp Nat.isCoprime_iff_coprime.1
    have hdistinct := hasRepetition_eq_false (nodup_of_coprime (fun q hq => (htwo q hq).1) hcoprime)
    obtain ⟨q, hq⟩ : ∃ q : Fin qs.length → ℕ, qs = List.ofFn q := exists_eq_ofFn rfl
    have hget : ∀ h, 0 < q h := fun h => by
      have := htwo (q h) (hq ▸ List.mem_ofFn.2 ⟨h, rfl⟩)
      omega
    rw [hq, List.pairwise_ofFn] at hcoprime
    obtain ⟨b, hb⟩ := exists_ofModuli hget fun g h hgh => by
      rcases lt_or_gt_of_ne hgh with hlt | hlt
      · exact hcoprime hlt
      · exact (hcoprime hlt).symm
    rw [← hq] at hb
    refine ⟨b, ?_⟩
    unfold ofList
    rw [if_neg (by simpa using hne)]
    refine Outcome.bind_eq_ok.2 ⟨qs, hqs, ?_⟩
    dsimp only
    rw [hdistinct]
    exact hb

/-! ## Decoding -/

/-- The balanced range of a basis. -/
def IsBalanced (b : Basis) (x : ℤ) : Prop := -(b.product : ℤ) < 2 * x ∧ 2 * x ≤ b.product

section Decoding

variable {b : Basis}

theorem decode_ofFn (b : Basis) (r : Fin b.size → ℤ) :
    b.decode (List.ofFn r) = b.balance (∑ h, r h * b.weights.get h) := by
  rw [decode, toList_eq_ofFn, List.zip, zipWith_ofFn]
  refine congrArg b.balance ?_
  rw [← List.foldl_map (f := fun t : ℤ × ℕ => t.1 * (t.2 : ℤ)) (g := (· + ·)), ← List.sum_eq_foldl,
    List.map_ofFn, List.sum_ofFn]
  rfl

theorem toList_encode (b : Basis) (x : ℤ) :
    (b.encode x).toList = List.ofFn fun h => x % b.moduli.get h := by
  rw [encode, toList_eq_ofFn]
  exact congrArg List.ofFn (funext fun h => get_map _ _ h)

theorem IsBalanced.balance_eq {x : ℤ} (h : b.IsBalanced x) : b.balance x = x :=
  balanceIn_eq_self h.1 h.2

theorem dvd_product (b : Basis) (h : Fin b.size) : (b.moduli.get h : ℤ) ∣ b.product := by
  rw [product_eq]
  exact Int.natCast_dvd_natCast.2 (Finset.dvd_prod_of_mem _ (Finset.mem_univ h))

namespace WellFormed

theorem isBalanced_balance (hb : b.WellFormed) (x : ℤ) : b.IsBalanced (b.balance x) :=
  ⟨neg_lt_balanceIn hb.product_pos x, balanceIn_le hb.product_pos x⟩

/-- Residues of `v` decode to the representative of `v`. -/
theorem decode_eq (hb : b.WellFormed) {r : Fin b.size → ℤ} {v : ℤ}
    (hr : ∀ h, r h ≡ v [ZMOD b.moduli.get h]) : b.decode (List.ofFn r) = b.balance v := by
  rw [decode_ofFn]
  exact balanceIn_congr (hb.sum_weights_modEq hr)

/-- The residues of a number give it back, balanced. -/
theorem decode_encode (hb : b.WellFormed) (x : ℤ) : b.decode (b.encode x).toList = b.balance x := by
  rw [toList_encode]
  exact hb.decode_eq fun h => Int.mod_modEq x _

/-- What is decoded has the residues that it is decoded from. -/
theorem decode_modEq (hb : b.WellFormed) (r : Fin b.size → ℤ) (h : Fin b.size) :
    b.decode (List.ofFn r) ≡ r h [ZMOD b.moduli.get h] := by
  rw [decode_ofFn]
  exact ((balanceIn_modEq _).of_dvd (b.dvd_product h)).trans (hb.sum_weights_modEq_get r h)

/-- The balanced range holds one integer with given residues, the one that is decoded. -/
theorem decode_eq_iff (hb : b.WellFormed) {r : Fin b.size → ℤ} {x : ℤ} :
    b.decode (List.ofFn r) = x ↔ b.IsBalanced x ∧ ∀ h, x ≡ r h [ZMOD b.moduli.get h] := by
  constructor
  · rintro rfl
    refine ⟨?_, hb.decode_modEq r⟩
    rw [decode_ofFn]
    exact hb.isBalanced_balance _
  · rintro ⟨hbalanced, hx⟩
    rw [hb.decode_eq fun h => (hx h).symm, hbalanced.balance_eq]

end WellFormed

/-- The moduli of a basis have an integer with given residues, and it is reconstructed. -/
theorem exists_combine {moduli : List ℤ} (hb : ofList moduli = .ok b) (r : Fin b.size → ℤ) :
    ∃ y, Remainders.combine (List.ofFn r) moduli = .ok y ∧ 0 ≤ y ∧ y < b.product ∧
      ∀ h, y ≡ r h [ZMOD b.moduli.get h] := by
  obtain ⟨hne, hrange, hpair⟩ := exists_ofList_iff.1 ⟨b, hb⟩
  have hmoduli := eq_ofFn_of_ofList hb
  have hlength : (List.ofFn r).length = moduli.length := by
    rw [hmoduli, List.length_ofFn, List.length_ofFn]
  have hpos : ∀ q ∈ moduli, 0 < q := fun q hq => by
    have := (hrange q hq).1
    omega
  obtain ⟨y, hy, hresidues⟩ := Remainders.combine_eq_ok hlength hne hpos hpair
  obtain ⟨hnonneg, hlt⟩ := Remainders.combine_mem_range hy hlength hpos
  have hproduct : moduli.prod = b.product := by
    rw [hmoduli, List.prod_ofFn, product_eq, Nat.cast_prod]
  rw [hproduct] at hlt
  rw [hmoduli, forall₂_ofFn_iff] at hresidues
  exact ⟨y, hy, hnonneg, hlt, hresidues⟩

end Decoding

end Basis

/-! ## Matrices -/

namespace Buffer

variable {b : Basis} {m n : ℕ}

/-- Regular nested lists describe a matrix: by its rows, or by its only column. -/
structure Describes (source : Nested) (X : Mat m n) : Prop where
  isRegular : source.isRegular = true
  shape_eq : sourceShape source = [m, n]
  mat_eq : sourceMat source m n = X

/-- The rows of a matrix describe it. -/
theorem describes_ofMat (hm : 0 < m) (hn : 0 < n) (X : Mat m n) : Describes (.ofMat X) X := by
  have hshape := Nested.shape_ofMat hm hn X
  refine ⟨Nested.isRegular_ofMat hm hn X, ?_, ?_⟩
  · rw [sourceShape, hshape]
  · rw [sourceMat, hshape]
    exact Nested.readMat_ofMat X

/-- A description of a matrix is encoded plane by plane. -/
theorem Describes.ofSource_eq_ok {source : Nested} {X : Mat m n} (h : Describes source X) :
    ofSource b source none = .ok ⟨b.size, m, n, b.encodeMat X⟩ := by
  have hdata : (Vector.ofFn fun g : Fin b.size => if hg : g.val < b.size then
      (b.encodeMat X).get ⟨g.val, hg⟩ else (Vector.replicate b.size (Mat.zero m n)).get g)
      = b.encodeMat X :=
    ext_get fun g => by rw [get_ofFn, dif_pos g.isLt]
  unfold ofSource
  rw [h.shape_eq]
  dsimp only [fill, zeros]
  rw [if_neg (not_not.2 h.shape_eq), h.isRegular, h.mat_eq, if_neg (lt_irrefl b.size)]
  exact congrArg (fun data => Except.ok (Buffer.mk b.size m n data)) hdata

/-- Every entry comes back as the representative of what was stored. -/
theorem toIntegers_encodeMat (hb : b.WellFormed) (X : Mat m n) :
    ∃ V, toIntegers b ⟨b.size, m, n, b.encodeMat X⟩ = .ok V ∧
      ∀ i j, V.entry i j = b.balance (X.entry i j) := by
  refine ⟨_, toIntegers_eq_ok hb (hb.areResidues_encodeMat X), fun i j => ?_⟩
  refine hb.entry_decodeMat_eq fun h => ?_
  rw [Basis.entry_encodeMat]
  exact Int.mod_modEq _ _

end Buffer

/-- Conversion of integers to residues for the given moduli, and back. -/
structure Basis.Converts (b : Basis) (moduli : List ℤ) : Prop where
  size_eq : b.size = moduli.length
  product_eq : (b.product : ℤ) = moduli.prod
  /-- Any residues decode to the one integer in the balanced range that has them. -/
  decode_iff : ∀ r : List ℤ, r.length = moduli.length → ∀ x, b.decode r = x ↔
    b.IsBalanced x ∧ List.Forall₂ (fun s q => x ≡ s [ZMOD q]) r moduli
  /-- The reconstruction finds the same integer, but for the range. -/
  decode_combine : ∀ r : List ℤ, r.length = moduli.length →
    ∃ y, Remainders.combine r moduli = .ok y ∧ b.decode r = if b.half < y then y - b.product else y
  encode_decode : ∀ r : List ℤ, r.length = moduli.length →
    (b.encode (b.decode r)).toList = List.zipWith (· % ·) r moduli
  decode_encode : ∀ x, b.IsBalanced x → b.decode (b.encode x).toList = x
  writes : ∀ {m n : ℕ} {source : Nested} {X : Mat m n}, Buffer.Describes source X →
    Buffer.ofSource b source none = .ok ⟨b.size, m, n, b.encodeMat X⟩
  /-- A matrix comes back entry by entry: as it was, or moved into the balanced range. -/
  reads : ∀ {m n : ℕ} (X : Mat m n), ∃ V,
    Buffer.toIntegers b ⟨b.size, m, n, b.encodeMat X⟩ = .ok V ∧
    ∀ i j, V.entry i j = b.decode (b.encode (X.entry i j)).toList ∧
      V.entry i j ≡ X.entry i j [ZMOD b.product] ∧ b.IsBalanced (V.entry i j) ∧
      (b.IsBalanced (X.entry i j) → V.entry i j = X.entry i j)

/-- Pairwise coprime moduli, and no others, make a basis, and every basis converts exactly: residues
of either sign and of any size, in the balanced range of an even or an odd product, and matrices of
any shape. -/
theorem Basis.converts_of_ofList (moduli : List ℤ) :
    ((∃ b, ofList moduli = .ok b) ↔
      moduli ≠ [] ∧ (∀ q ∈ moduli, 2 ≤ q ∧ q ≤ maxModulus) ∧ moduli.Pairwise IsCoprime) ∧
    ∀ b, ofList moduli = .ok b → b.Converts moduli := by
  refine ⟨exists_ofList_iff, fun b hb => ?_⟩
  obtain ⟨hwell, -⟩ := wellFormed_of_ofList hb
  -- The moduli are kept in order, so lists of residues can be told by their positions.
  have hmoduli := eq_ofFn_of_ofList hb
  have hsize : b.size = moduli.length := by rw [hmoduli, List.length_ofFn]
  refine ⟨hsize, ?_, ?_, ?_, ?_, ?_, Buffer.Describes.ofSource_eq_ok, fun X => ?_⟩
  · rw [hmoduli, List.prod_ofFn, Basis.product_eq, Nat.cast_prod]
  · intro r hr x
    obtain ⟨r, rfl⟩ := exists_eq_ofFn (hr.trans hsize.symm)
    rw [hwell.decode_eq_iff, hmoduli, forall₂_ofFn_iff]
  · intro r hr
    obtain ⟨r, rfl⟩ := exists_eq_ofFn (hr.trans hsize.symm)
    obtain ⟨y, hy, hnonneg, hlt, hresidues⟩ := exists_combine hb r
    refine ⟨y, hy, ?_⟩
    rw [hwell.decode_eq fun h => (hresidues h).symm, balance, balanceIn_eq,
      Int.emod_eq_of_lt hnonneg hlt]
    rfl
  · intro r hr
    obtain ⟨r, rfl⟩ := exists_eq_ofFn (hr.trans hsize.symm)
    rw [toList_encode, hmoduli, zipWith_ofFn]
    exact congrArg List.ofFn (funext (hwell.decode_modEq r))
  · intro x hx
    rw [hwell.decode_encode, hx.balance_eq]
  · obtain ⟨V, hV, hentry⟩ := Buffer.toIntegers_encodeMat hwell X
    refine ⟨V, hV, fun i j => ?_⟩
    rw [hentry, hwell.decode_encode]
    exact ⟨rfl, balanceIn_modEq _, hwell.isBalanced_balance _, fun h => h.balance_eq⟩

/-- With the moduli 4, 9 and 5 the balanced range ends at 90, half the product, so 90 and 270 are
read as 90, and -90 is as well. -/
theorem Basis.converts_of_ofList_even : ∃ b, ofList [4, 9, 5] = .ok b ∧
    b.decode [2, -9, 10] = 90 ∧ (b.encode 90).toList = [2, 0, 0] ∧
    let X : Mat 1 3 := ⟨#v[#v[90, 270, -90]]⟩
    Buffer.ofSource b (.ofMat X) none = .ok ⟨b.size, 1, 3, b.encodeMat X⟩ ∧
    ∃ V, Buffer.toIntegers b ⟨b.size, 1, 3, b.encodeMat X⟩ = .ok V ∧ ∀ j, V.entry 0 j = 90 := by
  have hbasis : ofList [4, 9, 5] = .ok ⟨3, #v[4, 9, 5], #v[45, 100, 36]⟩ := by decide +kernel
  have hconverts := (converts_of_ofList [4, 9, 5]).2 _ hbasis
  have hbalanced : IsBalanced ⟨3, #v[4, 9, 5], #v[45, 100, 36]⟩ 90 :=
    ⟨by decide +kernel, by decide +kernel⟩
  have hdecode : decode ⟨3, #v[4, 9, 5], #v[45, 100, 36]⟩ [2, -9, 10] = 90 :=
    (hconverts.decode_iff [2, -9, 10] rfl 90).2 ⟨hbalanced, by simp [Int.ModEq]⟩
  have hencode := hconverts.encode_decode [2, -9, 10] rfl
  rw [hdecode] at hencode
  obtain ⟨V, hV, hentry⟩ := hconverts.reads (⟨#v[#v[90, 270, -90]]⟩ : Mat 1 3)
  refine ⟨_, hbasis, hdecode, hencode,
    hconverts.writes (Buffer.describes_ofMat one_pos three_pos _), V, hV, fun j => ?_⟩
  rw [(hentry 0 j).1]
  revert j
  decide +kernel

end PadicLift
