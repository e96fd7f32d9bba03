import Mathlib.Algebra.BigOperators.Group.List.Basic
import PadicLift.Matrix.Nested
import PadicLift.Proofs.Matrix.Basic

/-!
# Regular nested lists

Nested lists are regular if their shape describes them down to the numbers. Regular nested lists of
shape `[m, n]` are the rows of an `m × n` matrix (`ofMat`), which is the one that is read from them,
and regular nested lists of any shape hold as many numbers as the shape has room for. Nested lists
of integers only that are not regular have a list for a cell.
-/

namespace PadicLift
namespace Nested

/-! ## Branches -/

theorem allUniform_iff {depth : ℕ} {xs : List Nested} :
    allUniform depth xs = true ↔ ∀ x ∈ xs, x.uniform depth = true := by
  induction xs with
  | nil => exact ⟨fun _ x hx => absurd hx List.not_mem_nil, fun _ => rfl⟩
  | cons x rest ih => rw [allUniform, Bool.and_eq_true, ih, List.forall_mem_cons]

theorem concat_eq_flatMap (xs : List Nested) : concat xs = xs.flatMap toList := by
  induction xs with
  | nil => rfl
  | cons x rest ih => rw [concat, ih, List.flatMap_cons]

theorem mapList_eq_map (f : ℤ → ℤ) (xs : List Nested) : mapList f xs = xs.map (map f) := by
  induction xs with
  | nil => rfl
  | cons x rest ih => rw [mapList, ih, List.map_cons]

/-- What is uniform at depth 0 is a number. -/
theorem eq_entry_of_uniform {x : Nested} (h : x.uniform 0 = true) : ∃ v, x = .entry v := by
  cases x with
  | entry v => exact ⟨v, rfl⟩
  | list xs => cases h
  | foreign y => cases h

/-- What is uniform at a further depth is a list. -/
theorem eq_list_of_uniform {depth : ℕ} {x : Nested} (h : x.uniform (depth + 1) = true) :
    ∃ xs, x = .list xs ∧ ∀ y ∈ xs, y.uniform depth = true := by
  cases x with
  | entry v => cases h
  | list xs => exact ⟨xs, rfl, allUniform_iff.1 h⟩
  | foreign y => cases h

/-- The branches at the depth of the numbers are the numbers. -/
theorem branchesAt_of_uniform {depth : ℕ} {x : Nested} (h : x.uniform depth = true) :
    x.branchesAt depth = x.toList.map .entry := by
  induction depth generalizing x with
  | zero =>
    obtain ⟨v, rfl⟩ := eq_entry_of_uniform h
    rfl
  | succ depth ih =>
    obtain ⟨xs, rfl, hxs⟩ := eq_list_of_uniform h
    rw [branchesAt, items, toList, concat_eq_flatMap, List.map_flatMap]
    exact List.flatMap_congr fun y hy => ih (hxs y hy)

/-! ## Shapes -/

/-- What two shapes agree on is the beginning of both. -/
theorem agreement_isPrefix (s t : Shape) : agreement s t <+: s ∧ agreement s t <+: t := by
  induction s generalizing t with
  | nil => exact ⟨List.nil_prefix, List.nil_prefix⟩
  | cons a as ih =>
    cases t with
    | nil => exact ⟨List.nil_prefix, List.nil_prefix⟩
    | cons b bs =>
      rw [agreement]
      split
      next hab =>
        rw [← hab]
        exact ⟨List.prefix_cons_inj a |>.2 (ih bs).1, List.prefix_cons_inj a |>.2 (ih bs).2⟩
      next => exact ⟨List.nil_prefix, List.nil_prefix⟩

/-- The common lengths of a list's members are the first lengths of each. -/
theorem sharedLengths_isPrefix {xs : List Nested} {x : Nested} (hx : x ∈ xs) :
    sharedLengths xs <+: x.lengths := by
  induction xs with
  | nil => exact absurd hx List.not_mem_nil
  | cons y rest ih =>
    cases rest with
    | nil =>
      rw [List.mem_singleton.1 hx]
      exact List.prefix_rfl
    | cons z rest =>
      rw [sharedLengths]
      rcases List.mem_cons.1 hx with rfl | hx
      · exact (agreement_isPrefix _ _).1
      · exact (agreement_isPrefix _ _).2.trans (ih hx)

/-- Members of the same lengths have these lengths in common. -/
theorem sharedLengths_eq {xs : List Nested} {s : Shape} (hne : xs ≠ [])
    (h : ∀ x ∈ xs, x.lengths = s) : sharedLengths xs = s := by
  induction xs with
  | nil => exact absurd rfl hne
  | cons y rest ih =>
    cases rest with
    | nil => exact h y List.mem_cons_self
    | cons z rest =>
      have hself : ∀ s : Shape, agreement s s = s := by
        intro s
        induction s with
        | nil => rfl
        | cons a as ih => rw [agreement, if_pos rfl, ih]
      rw [sharedLengths, h y List.mem_cons_self,
        ih (List.cons_ne_nil _ _) fun x hx => h x (List.mem_cons_of_mem y hx), hself]

theorem volume_eq_prod (s : Shape) : volume s = s.prod := List.prod_eq_foldl.symm

/-- Numbers at the depth of a shape that describes the nesting are as many as it has room for. -/
theorem length_toList_of_uniform {s : Shape} {x : Nested} (hs : s <+: x.lengths)
    (hx : x.uniform s.length = true) : x.toList.length = volume s := by
  rw [volume_eq_prod]
  induction s generalizing x with
  | nil =>
    obtain ⟨v, rfl⟩ := eq_entry_of_uniform hx
    rfl
  | cons n rest ih =>
    obtain ⟨xs, rfl, hxs⟩ := eq_list_of_uniform hx
    rw [lengths, List.cons_prefix_cons] at hs
    have hlength : ∀ y ∈ xs, y.toList.length = rest.prod := fun y hy =>
      ih (hs.2.trans (sharedLengths_isPrefix hy)) (hxs y hy)
    rw [toList, concat_eq_flatMap, List.length_flatMap, List.map_congr_left hlength,
      List.map_const', List.sum_replicate, smul_eq_mul, ← hs.1, List.prod_cons]

theorem shape_isPrefix (x : Nested) : x.shape <+: x.lengths := List.take_prefix _ _

/-- Regular nested lists hold as many numbers as their shape has room for. -/
theorem length_toList {x : Nested} (hx : x.isRegular = true) :
    x.toList.length = volume x.shape := length_toList_of_uniform x.shape_isPrefix hx

/-! ## Integers -/

/-- Every place holds an integer. -/
inductive IsIntegral : Nested → Prop
  | entry (v : ℤ) : IsIntegral (.entry v)
  | list {xs : List Nested} (h : ∀ x ∈ xs, IsIntegral x) : IsIntegral (.list xs)

/-- Regular nested lists hold integers only. -/
theorem isIntegral_of_uniform {depth : ℕ} {x : Nested} (h : x.uniform depth = true) :
    x.IsIntegral := by
  induction depth generalizing x with
  | zero =>
    obtain ⟨v, rfl⟩ := eq_entry_of_uniform h
    exact .entry v
  | succ depth ih =>
    obtain ⟨xs, rfl, hxs⟩ := eq_list_of_uniform h
    exact .list fun y hy => ih (hxs y hy)

/-- Nested integers that are not uniform to a depth have a list there. -/
theorem IsIntegral.exists_list_of_uniform_eq_false {x : Nested} (hx : x.IsIntegral) {depth : ℕ}
    (hdepth : depth ≤ x.lengths.length) (h : x.uniform depth = false) :
    ∃ xs, .list xs ∈ x.branchesAt depth := by
  induction depth generalizing x with
  | zero =>
    cases hx with
    | entry v => cases h
    | list hxs => exact ⟨_, List.mem_singleton_self _⟩
  | succ depth ih =>
    cases hx with
    | entry v => exact absurd hdepth (Nat.not_succ_le_zero depth)
    | @list xs hxs =>
      have hsome : ¬ ∀ y ∈ xs, y.uniform depth = true := by
        rw [← allUniform_iff]
        exact Bool.eq_false_iff.1 h
      push Not at hsome
      obtain ⟨y, hy, huniform⟩ := hsome
      rw [lengths, List.length_cons] at hdepth
      have hshared := (sharedLengths_isPrefix hy).length_le
      obtain ⟨ys, hys⟩ := ih (hxs y hy) (by omega) (Bool.eq_false_iff.2 huniform)
      exact ⟨ys, List.mem_flatMap.2 ⟨y, hy, hys⟩⟩

/-- Nested lists of integers that are not regular have a list for a cell. -/
theorem IsIntegral.exists_list_mem_cells {x : Nested} (hx : x.IsIntegral)
    (h : x.isRegular = false) : ∃ xs, .list xs ∈ x.cells :=
  hx.exists_list_of_uniform_eq_false x.shape_isPrefix.length_le h

/-- Why a place has no integer: it is of another kind, infinite or undefined, or a text that spells
none. -/
theorem integer_eq_error {x : Nested} {f : Fault} (h : x.integer = .error f) :
    f = .kindMismatch ∨ f = .overflow ∨ f = .argument .undefinedInteger ∨
      ∃ shown, f = .argument (.noInteger 10 shown) := by
  unfold integer at h
  split at h
  · cases h
  next y =>
    unfold Foreign.integer at h
    split at h
    · unfold Number.integer at h
      split at h <;> cases h
      · exact .inr (.inl rfl)
      · exact .inr (.inr (.inl rfl))
    · unfold Numeral.integer at h
      dsimp only at h
      split at h <;> cases h
      exact .inr (.inr (.inr ⟨_, rfl⟩))
    · cases h
      exact .inl rfl
  · cases h
    exact .inl rfl

/-! ## Numbers in place -/

mutual
theorem toList_map (f : ℤ → ℤ) : (x : Nested) → (x.map f).toList = x.toList.map f
  | .entry _ => rfl
  | .list xs => concat_mapList f xs
  | .foreign _ => rfl

theorem concat_mapList (f : ℤ → ℤ) : (xs : List Nested) →
    concat (mapList f xs) = (concat xs).map f
  | [] => rfl
  | x :: rest => by
    rw [mapList, concat, concat, toList_map f x, concat_mapList f rest, List.map_append]
end

mutual
theorem map_map (f g : ℤ → ℤ) : (x : Nested) → (x.map f).map g = x.map fun v => g (f v)
  | .entry _ => rfl
  | .list xs => congrArg list (mapList_mapList f g xs)
  | .foreign _ => rfl

theorem mapList_mapList (f g : ℤ → ℤ) : (xs : List Nested) →
    mapList g (mapList f xs) = mapList (fun v => g (f v)) xs
  | [] => rfl
  | x :: rest => by
    rw [mapList, mapList, mapList, map_map f g x, mapList_mapList f g rest]
end

mutual
theorem lengths_map (f : ℤ → ℤ) : (x : Nested) → (x.map f).lengths = x.lengths
  | .entry _ => rfl
  | .list xs => by
    rw [map, lengths, lengths, sharedLengths_mapList f xs, mapList_eq_map, List.length_map]
  | .foreign _ => rfl

theorem sharedLengths_mapList (f : ℤ → ℤ) : (xs : List Nested) →
    sharedLengths (mapList f xs) = sharedLengths xs
  | [] => rfl
  | [x] => lengths_map f x
  | x :: y :: rest => by
    have hrest := sharedLengths_mapList f (y :: rest)
    rw [mapList] at hrest
    rw [mapList, mapList, sharedLengths, sharedLengths, lengths_map f x, hrest]
end

theorem shape_map (f : ℤ → ℤ) (x : Nested) : (x.map f).shape = x.shape := by
  rw [shape, shape, lengths_map]

theorem uniform_map (f : ℤ → ℤ) {depth : ℕ} {x : Nested} (h : x.uniform depth = true) :
    (x.map f).uniform depth = true := by
  induction depth generalizing x with
  | zero =>
    obtain ⟨v, rfl⟩ := eq_entry_of_uniform h
    rfl
  | succ depth ih =>
    obtain ⟨xs, rfl, hxs⟩ := eq_list_of_uniform h
    rw [map, mapList_eq_map]
    refine allUniform_iff.2 fun y hy => ?_
    obtain ⟨z, hz, rfl⟩ := List.mem_map.1 hy
    exact ih (hxs z hz)

/-- Other numbers in the same places leave nested lists regular. -/
theorem isRegular_map (f : ℤ → ℤ) {x : Nested} (h : x.isRegular = true) :
    (x.map f).isRegular = true := by
  rw [isRegular, shape_map]
  exact uniform_map f h

mutual
/-- Only the numbers decide what other numbers come to stand in their places. -/
theorem map_congr {f g : ℤ → ℤ} : (x : Nested) → (∀ v ∈ x.toList, f v = g v) →
    x.map f = x.map g
  | .entry v, h => congrArg entry (h v (List.mem_singleton_self v))
  | .list xs, h => congrArg list (mapList_congr xs h)
  | .foreign _, _ => rfl

theorem mapList_congr {f g : ℤ → ℤ} : (xs : List Nested) → (∀ v ∈ concat xs, f v = g v) →
    mapList f xs = mapList g xs
  | [], _ => rfl
  | x :: rest, h => by
    rw [concat, List.forall_mem_append] at h
    rw [mapList, mapList, map_congr x h.1, mapList_congr rest h.2]
end

/-- Two functions have the same effect exactly if they agree on the entries. -/
theorem map_eq_map_iff {f g : ℤ → ℤ} {x : Nested} :
    x.map f = x.map g ↔ ∀ v ∈ x.toList, f v = g v := by
  refine ⟨fun h => ?_, map_congr x⟩
  have hlist := congrArg toList h
  rw [toList_map, toList_map] at hlist
  exact List.map_inj_left.1 hlist

/-! ## Matrices -/

variable {m n : ℕ}

/-- The rows of a matrix as nested lists. -/
def ofMat (A : Mat m n) : Nested := .list (A.toLists.map fun row => .list (row.map .entry))

theorem toLists_eq_ofFn (A : Mat m n) :
    A.toLists = List.ofFn fun i => List.ofFn fun j => A.entry i j := by
  rw [Mat.toLists, toList_eq_ofFn, List.map_ofFn]
  exact congrArg List.ofFn (funext fun i => toList_eq_ofFn _)

theorem ofMat_eq (A : Mat m n) :
    ofMat A = .list (List.ofFn fun i => .list (List.ofFn fun j => .entry (A.entry i j))) := by
  rw [ofMat, toLists_eq_ofFn, List.map_ofFn]
  simp only [Function.comp_def, List.map_ofFn]

theorem uniform_ofMat (A : Mat m n) : (ofMat A).uniform 2 = true := by
  rw [ofMat_eq]
  refine allUniform_iff.2 fun row hrow => ?_
  obtain ⟨i, rfl⟩ := List.mem_ofFn.1 hrow
  refine allUniform_iff.2 fun x hx => ?_
  obtain ⟨j, rfl⟩ := List.mem_ofFn.1 hx
  rfl

/-- A matrix with rows has its dimensions for shape. -/
theorem shape_ofMat (hm : 0 < m) (hn : 0 < n) (A : Mat m n) : (ofMat A).shape = [m, n] := by
  have hrow : ∀ i, (Nested.list (List.ofFn fun j => .entry (A.entry i j))).lengths = [n] := by
    intro i
    rw [lengths, List.length_ofFn, sharedLengths_eq (s := [])]
    · rw [List.ofFn_eq_nil_iff.ne]
      omega
    · intro x hx
      obtain ⟨j, rfl⟩ := List.mem_ofFn.1 hx
      rfl
  have hlengths : (ofMat A).lengths = [m, n] := by
    rw [ofMat_eq, lengths, List.length_ofFn, sharedLengths_eq (s := [n])]
    · rw [List.ofFn_eq_nil_iff.ne]
      omega
    · intro x hx
      obtain ⟨i, rfl⟩ := List.mem_ofFn.1 hx
      exact hrow i
  rw [shape, hlengths]
  rfl

theorem isRegular_ofMat (hm : 0 < m) (hn : 0 < n) (A : Mat m n) :
    (ofMat A).isRegular = true := by
  rw [isRegular, shape_ofMat hm hn]
  exact uniform_ofMat A

theorem map_ofMat (f : ℤ → ℤ) (A : Mat m n) : (ofMat A).map f = ofMat (A.map f) := by
  rw [ofMat_eq, ofMat_eq, map, mapList_eq_map, List.map_ofFn]
  simp only [Function.comp_def, map, mapList_eq_map, List.map_ofFn, Mat.entry_map]

theorem mem_toList_ofMat {A : Mat m n} {v : ℤ} (hv : v ∈ (ofMat A).toList) :
    ∃ i j, v = A.entry i j := by
  rw [ofMat_eq, toList, concat_eq_flatMap, List.mem_flatMap] at hv
  obtain ⟨row, hrow, hv⟩ := hv
  obtain ⟨i, rfl⟩ := List.mem_ofFn.1 hrow
  rw [toList, concat_eq_flatMap, List.mem_flatMap] at hv
  obtain ⟨x, hx, hv⟩ := hv
  obtain ⟨j, rfl⟩ := List.mem_ofFn.1 hx
  exact ⟨i, j, List.mem_singleton.1 hv⟩

/-- The numbers of a list of numbers. -/
theorem toList_list_entry (row : List ℤ) : (Nested.list (row.map .entry)).toList = row := by
  rw [toList, concat_eq_flatMap, List.flatMap_map]
  exact List.flatMap_singleton' row

/-- The rows of a matrix are read back as the matrix. -/
theorem readMat_ofMat (A : Mat m n) : (ofMat A).readMat m n = A := by
  refine Mat.ext_entry fun i j => ?_
  rw [readMat, Mat.entry_ofFn, ofMat, toLists_eq_ofFn, items, List.map_map]
  simp only [Function.comp_def, toList_list_entry]
  simp

/-- The position of an entry in reading order. -/
theorem val_finProdFinEquiv (i : Fin m) (j : Fin n) : (finProdFinEquiv (i, j)).val = i * n + j := by
  rw [finProdFinEquiv_apply_val, add_comm, mul_comm]

/-- A matrix has its numbers in reading order. -/
theorem toList_ofMat (A : Mat m n) : (ofMat A).toList
    = List.ofFn fun k => A.entry (finProdFinEquiv.symm k).1 (finProdFinEquiv.symm k).2 := by
  have hplace : ∀ (i : Fin m) (j : Fin n) (h : i * n + j < m * n),
      finProdFinEquiv.symm ⟨i * n + j, h⟩ = (i, j) := by
    intro i j h
    rw [Equiv.symm_apply_eq]
    exact Fin.ext (val_finProdFinEquiv i j).symm
  rw [List.ofFn_mul, ofMat, toList, concat_eq_flatMap, List.flatMap_map]
  simp only [toList_list_entry, hplace]
  rw [List.flatMap_id', toLists_eq_ofFn]

/-- A matrix is made of its numbers in reading order. -/
theorem matOfList_toList_ofMat (A : Mat m n) : matOfList (ofMat A).toList m n = A := by
  refine Mat.ext_entry fun i j => ?_
  obtain ⟨k, hk, hval⟩ : ∃ k, finProdFinEquiv.symm k = (i, j) ∧ k.val = i * n + j :=
    ⟨finProdFinEquiv (i, j), Equiv.symm_apply_apply _ _, val_finProdFinEquiv i j⟩
  rw [matOfList, Mat.entry_ofFn, toList_ofMat, ← hval]
  simp [-finProdFinEquiv_symm_apply, hk]

/-- Matrices of one shape have the same rows only if they are the same. -/
theorem ofMat_inj {A B : Mat m n} : ofMat A = ofMat B ↔ A = B := by
  constructor
  · intro h
    rw [← readMat_ofMat A, h, readMat_ofMat]
  · rintro rfl
    rfl

/-- What is uniform at depth 1 is a list of numbers. -/
theorem eq_list_map_entry {x : Nested} (h : x.uniform 1 = true) :
    x = .list (x.toList.map .entry) := by
  obtain ⟨xs, rfl, -⟩ := eq_list_of_uniform h
  rw [← branchesAt_of_uniform h, branchesAt, items]
  exact congrArg Nested.list (List.flatMap_singleton' xs).symm

/-- Regular nested lists with two levels are the rows of a matrix. -/
theorem eq_ofMat {x : Nested} (hshape : x.shape = [m, n]) (hx : x.isRegular = true) :
    x = ofMat (x.readMat m n) := by
  rw [isRegular, hshape] at hx
  have hlengths := x.shape_isPrefix
  rw [hshape] at hlengths
  obtain ⟨rows, rfl, hrows⟩ := eq_list_of_uniform hx
  rw [lengths, List.cons_prefix_cons] at hlengths
  have hlength : ∀ row ∈ rows, row.toList.length = n := by
    intro row hrow
    rw [length_toList_of_uniform (hlengths.2.trans (sharedLengths_isPrefix hrow)) (hrows row hrow),
      volume_eq_prod, List.prod_singleton]
  rw [ofMat_eq]
  refine congrArg Nested.list (List.ext_getElem ?_ fun i hi _ => ?_)
  · rw [List.length_ofFn, hlengths.1]
  · have hmem : rows[i] ∈ rows := List.getElem_mem hi
    rw [List.getElem_ofFn, eq_list_map_entry (hrows _ hmem)]
    refine congrArg Nested.list (List.ext_getElem ?_ fun j hj _ => ?_)
    · rw [List.length_map, List.length_ofFn, hlength _ hmem]
    · rw [List.length_map] at hj
      simp [readMat, items, hi, hj]

/-! ## Vectors -/

/-- The entries of a vector as nested lists. -/
def ofVector (v : Vector ℤ n) : Nested := .list (v.toList.map .entry)

theorem shape_ofVector (hn : 0 < n) (v : Vector ℤ n) : (ofVector v).shape = [n] := by
  have hlengths : (ofVector v).lengths = [n] := by
    rw [ofVector, lengths, List.length_map, Vector.length_toList, sharedLengths_eq (s := [])]
    · intro hnil
      have hlength := congrArg List.length hnil
      rw [List.length_map, Vector.length_toList, List.length_nil] at hlength
      omega
    · intro x hx
      obtain ⟨y, -, rfl⟩ := List.mem_map.1 hx
      rfl
  rw [shape, hlengths]
  rfl

theorem toVector_toList (v : Vector ℤ n) : toVector v.toList n = v := by
  refine ext_get fun i => ?_
  rw [toVector, get_ofFn]
  simp [Vector.get]

theorem isRegular_ofVector (hn : 0 < n) (v : Vector ℤ n) : (ofVector v).isRegular = true := by
  rw [isRegular, shape_ofVector hn]
  refine allUniform_iff.2 fun x hx => ?_
  obtain ⟨y, -, rfl⟩ := List.mem_map.1 hx
  rfl

end Nested
end PadicLift
