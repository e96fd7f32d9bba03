import PadicLift.Matrix.Tensor
import PadicLift.Proofs.Matrix.Nested

/-!
# Arrays given by their cells

An array has its cells in reading order, so the cell at a position is found by counting the
positions before it (`getElem?_positions`). Arrays are described here by a function from positions
to cells (`Tensor.ofFn`): slicing, combining and multiplying them does the same to the functions, at
all positions within the shape. Matrices and vectors are arrays in this way.
-/

namespace PadicLift
namespace Tensor

variable {α : Type}

/-! ## Positions -/

/-- A position within a shape has an index below the length at each level. -/
def IsWithin (shape : Shape) (position : List ℕ) : Prop :=
  List.Forall₂ (fun n i => i < n) shape position

theorem isWithin_cons {n : ℕ} {rest : Shape} {position : List ℕ} :
    IsWithin (n :: rest) position ↔ ∃ i tail, i < n ∧ IsWithin rest tail ∧ position = i :: tail :=
  List.forall₂_cons_left_iff

theorem isWithin_nil {position : List ℕ} : IsWithin [] position ↔ position = [] :=
  List.forall₂_nil_left_iff

/-- The positions of a matrix. -/
theorem isWithin_two {m n : ℕ} {position : List ℕ} :
    IsWithin [m, n] position ↔ ∃ i j, i < m ∧ j < n ∧ position = [i, j] := by
  simp only [isWithin_cons, isWithin_nil]
  constructor
  · rintro ⟨i, _, hi, ⟨j, _, hj, rfl, rfl⟩, rfl⟩
    exact ⟨i, j, hi, hj, rfl⟩
  · rintro ⟨i, j, hi, hj, rfl⟩
    exact ⟨i, _, hi, ⟨j, _, hj, rfl, rfl⟩, rfl⟩

/-- The positions of a shape are those within it. -/
theorem mem_positions_iff {shape : Shape} {position : List ℕ} :
    position ∈ positions shape ↔ IsWithin shape position := by
  induction shape generalizing position with
  | nil => simp [positions, IsWithin]
  | cons n rest ih =>
    simp only [positions, List.mem_flatMap, List.mem_range, List.mem_map]
    constructor
    · rintro ⟨i, hi, tail, htail, rfl⟩
      exact .cons hi (ih.1 htail)
    · rintro (_ | ⟨hi, htail⟩)
      exact ⟨_, hi, _, ih.2 htail, rfl⟩

/-- There are as many positions as the volume of the shape. -/
theorem length_positions (shape : Shape) : (positions shape).length = shape.prod := by
  induction shape with
  | nil => rfl
  | cons n rest ih => simp [positions, List.length_flatMap, ih]

/-- The place of a position is counted level by level. -/
theorem foldl_offset (shape : Shape) (position : List ℕ)
    (hlength : shape.length = position.length) (start : ℕ) :
    (shape.zip position).foldl (fun s x => s * x.1 + x.2) start
      = start * shape.prod + offset shape position := by
  induction shape generalizing position start with
  | nil => simp [offset]
  | cons n rest ih =>
    obtain ⟨i, tail, rfl⟩ := List.exists_cons_of_length_eq_add_one hlength.symm
    have htail : rest.length = tail.length := Nat.succ_injective hlength
    rw [offset, List.zip_cons_cons, List.foldl_cons, List.foldl_cons, ih tail htail,
      ih tail htail, List.prod_cons]
    ring

/-- A step at the first level passes over all positions of the levels below. -/
theorem offset_cons {n i : ℕ} {rest : Shape} {tail : List ℕ} (hlength : rest.length = tail.length) :
    offset (n :: rest) (i :: tail) = i * rest.prod + offset rest tail := by
  rw [offset, List.zip_cons_cons, List.foldl_cons, foldl_offset rest tail hlength]
  ring

/-- Members of parts of one length. -/
theorem getElem?_flatMap_range {f : ℕ → List α} {size : ℕ} (hsize : ∀ i, (f i).length = size)
    {n i j : ℕ} (hi : i < n) (hj : j < size) :
    ((List.range n).flatMap f)[i * size + j]? = (f i)[j]? := by
  have hlength : ∀ m, ((List.range m).flatMap f).length = m * size := by
    intro m
    simp [List.length_flatMap, hsize]
  induction n with
  | zero => omega
  | succ n ih =>
    rw [List.range_succ, List.flatMap_append, List.flatMap_singleton]
    by_cases hlast : i = n
    · rw [hlast, List.getElem?_append_right (by rw [hlength]; omega), hlength,
        Nat.add_sub_cancel_left]
    · have hle : (i + 1) * size ≤ n * size := Nat.mul_le_mul_right size (by omega)
      rw [List.getElem?_append_left, ih (by omega)]
      rw [hlength]
      rw [Nat.succ_mul] at hle
      omega

/-- A position stands at its place among all positions. -/
theorem getElem?_positions {shape : Shape} {position : List ℕ} (h : IsWithin shape position) :
    (positions shape)[offset shape position]? = some position := by
  induction shape generalizing position with
  | nil =>
    cases h
    rfl
  | cons n rest ih =>
    cases h with
    | @cons _ i _ tail hi htail =>
      have hfound := ih htail
      obtain ⟨hlt, -⟩ := List.getElem?_eq_some_iff.1 hfound
      rw [length_positions] at hlt
      have hsize : ∀ k : ℕ, ((positions rest).map (k :: ·)).length = rest.prod := by
        intro k
        rw [List.length_map, length_positions]
      rw [positions, offset_cons htail.length_eq, getElem?_flatMap_range hsize hi hlt,
        List.getElem?_map, hfound, Option.map_some]

/-! ## Arrays from functions -/

/-- The cell at a position holds the value of the function there. -/
theorem cell_ofFn {shape : Shape} {f : List ℕ → α} {other : α} {position : List ℕ}
    (h : IsWithin shape position) : (ofFn shape f).cell other position = f position := by
  simp [cell, ofFn, getElem?_positions h]

/-- Only the positions within the shape matter. -/
theorem ofFn_congr {shape : Shape} {f g : List ℕ → α}
    (h : ∀ position, IsWithin shape position → f position = g position) :
    ofFn shape f = ofFn shape g := by
  unfold ofFn
  congr 2
  exact List.map_congr_left fun position hposition => h position (mem_positions_iff.1 hposition)

/-- A position of an array falls on itself. -/
theorem within_eq_self {shape : Shape} {position : List ℕ} (h : IsWithin shape position) :
    within shape position = position := by
  rw [within, h.length_eq, Nat.sub_self, List.drop_zero]
  induction h with
  | nil => rfl
  | @cons n i rest tail hi _ ih =>
    rw [List.zipWith_cons_cons, ih]
    split
    · congr 1
      omega
    · rfl

theorem joinShapes_self (shape : Shape) : joinShapes shape shape = some shape := by
  have hself : ∀ s : Shape, joinReversed s s = some s := by
    intro s
    induction s with
    | nil => rfl
    | cons n rest ih => simp [joinReversed, ih]
  rw [joinShapes, hself, Option.map_some, List.reverse_reverse]

/-- Arrays of one shape are combined cell by cell. -/
theorem combine_ofFn (op : ℤ → ℤ → ℤ) (shape : Shape) (f g : List ℕ → ℤ) :
    combine op (ofFn shape f) (ofFn shape g)
      = .ok (ofFn shape fun position => op (f position) (g position)) := by
  have hjoin : joinShapes (ofFn shape f).shape (ofFn shape g).shape = some shape :=
    joinShapes_self shape
  unfold combine
  rw [hjoin]
  refine congrArg Except.ok (ofFn_congr fun position hposition => ?_)
  show op ((ofFn shape f).cell 0 (within shape position)) _ = _
  rw [within_eq_self hposition, cell_ofFn hposition]
  show op _ ((ofFn shape g).cell 0 (within shape position)) = _
  rw [within_eq_self hposition, cell_ofFn hposition]

theorem map_ofFn {β : Type} (shape : Shape) (f : List ℕ → α) (g : α → β) :
    (ofFn shape f).map g = ofFn shape fun position => g (f position) := by
  simp [map, ofFn, Function.comp_def]

/-! ## Slices and products -/

variable (f g : List ℕ → ℤ)

/-- Columns of a matrix. -/
theorem slice_columns (m k first count : ℕ) :
    (ofFn [m, k] f).slice 0 1 first count
      = ofFn [m, min count (k - first)] fun position => f (position.modify 1 (first + ·)) := by
  show ofFn [m, min count (k - first)] _ = _
  refine ofFn_congr fun position hposition => ?_
  obtain ⟨i, t, hi, ht, rfl⟩ := isWithin_two.1 hposition
  exact cell_ofFn (isWithin_two.2 ⟨i, first + t, hi, by omega, rfl⟩)

/-- Rows of a matrix, or entries of a vector. -/
theorem slice_rows (k first count : ℕ) (rest : Shape) :
    (ofFn (k :: rest) f).slice 0 0 first count
      = ofFn (min count (k - first) :: rest) fun position => f (position.modify 0 (first + ·)) := by
  show ofFn (min count (k - first) :: rest) _ = _
  refine ofFn_congr fun position hposition => ?_
  obtain ⟨t, tail, ht, htail, rfl⟩ := isWithin_cons.1 hposition
  exact cell_ofFn (isWithin_cons.2 ⟨first + t, tail, by omega, htail, rfl⟩)

/-- The pairs that make up one cell of a product: a row of the first factor, and what the position
leaves open of the second one. -/
def pairs (k : ℕ) (position : List ℕ) : List (ℤ × ℤ) :=
  (List.range k).map fun t => (f [position.headD 0, t], g (t :: position.tail))

/-- A matrix is multiplied with a matrix or a vector. -/
theorem matMul_ofFn (dot : List (ℤ × ℤ) → ℤ) (m k : ℕ) {rest : Shape} (hrest : rest.length ≤ 1) :
    matMul dot (ofFn [m, k] f) (ofFn (k :: rest) g)
      = .ok (ofFn (m :: rest) fun position => dot (pairs f g k position)) := by
  match rest with
  | [] =>
    show (if k ≠ k then _ else _) = _
    rw [if_neg (not_not.2 rfl)]
    refine congrArg Except.ok (ofFn_congr fun position hposition => congrArg dot ?_)
    obtain ⟨i, tail, hi, htail, rfl⟩ := isWithin_cons.1 hposition
    rw [isWithin_nil.1 htail]
    refine List.map_congr_left fun t ht => ?_
    rw [List.mem_range] at ht
    rw [cell_ofFn (.cons ht .nil)]
    exact congrArg (·, g [t]) (cell_ofFn (.cons hi (.cons ht .nil)))
  | [n] =>
    show (if k ≠ k then _ else _) = _
    rw [if_neg (not_not.2 rfl)]
    refine congrArg Except.ok (ofFn_congr fun position hposition => congrArg dot ?_)
    obtain ⟨i, j, hi, hj, rfl⟩ := isWithin_two.1 hposition
    refine List.map_congr_left fun t ht => ?_
    rw [List.mem_range] at ht
    exact Prod.ext (cell_ofFn (.cons hi (.cons ht .nil))) (cell_ofFn (.cons ht (.cons hj .nil)))
  | _ :: _ :: _ => simp at hrest

/-- Slices of the two factors make up slices of the pairs. -/
theorem pairs_slice (k first count : ℕ) (i : ℕ) (tail : List ℕ) :
    pairs (fun position => f (position.modify 1 (first + ·)))
        (fun position => g (position.modify 0 (first + ·))) (min count (k - first)) (i :: tail)
      = ((pairs f g k (i :: tail)).drop first).take count := by
  apply List.ext_getElem
  · simp [pairs]
  · intro t ht _
    simp [pairs]

/-! ## Matrices and vectors -/

/-- The array of a matrix. -/
def ofMat {m n : ℕ} (A : Mat m n) : Tensor ℤ := ⟨[m, n], A.toLists.flatten.toArray⟩

theorem positions_cons (n : ℕ) (rest : Shape) :
    positions (n :: rest)
      = (List.finRange n).flatMap fun i => (positions rest).map (i.val :: ·) := by
  rw [positions, ← List.map_coe_finRange_eq_range, List.flatMap_map]

theorem positions_one (n : ℕ) : positions [n] = (List.finRange n).map fun i => [i.val] := by
  rw [positions_cons, positions, List.map_eq_flatMap]
  rfl

/-- With one level, a tensor is a vector, -/
theorem ofFn_one (n : ℕ) : ofFn [n] f = ofVector (Vector.ofFn fun i : Fin n => f [i]) := by
  rw [ofFn, ofVector, positions_one]
  congr 1
  apply Array.ext'
  simp [List.ofFn_eq_map]

/-- and with two levels a matrix. -/
theorem ofFn_two (m n : ℕ) :
    ofFn [m, n] f = ofMat (Mat.ofFn fun (i : Fin m) (j : Fin n) => f [i, j]) := by
  rw [ofFn, ofMat, positions_cons, positions_one, Nested.toLists_eq_ofFn]
  simp [List.ofFn_eq_map, List.flatMap_def, Function.comp_def]

end Tensor
end PadicLift
