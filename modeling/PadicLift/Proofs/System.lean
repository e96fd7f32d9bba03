import PadicLift.Proofs.Matrix.Nested
import PadicLift.Proofs.Outcome
import PadicLift.System

/-!
# Systems of integers

A system of integers is read from the rows of its matrix and a right side with an integer for every
row (`LinearSystem.IsIn`), and every system with at least one unknown is read from such lists
(`SomeSystem.read_ofMat`). Nested lists that hold nothing but integers describe such a system, or
else a place of the system holds a list, with which nothing can be calculated. As long as the matrix
is one of integers, its residues are theirs, whatever the right side holds.
-/

namespace PadicLift

variable {a b : Nested} {S : SomeSystem}

/-- The nested lists hold the rows of the matrix, at least one, and the right side. -/
structure LinearSystem.IsIn {n : ℕ} (L : LinearSystem n) (a b : Nested) : Prop where
  pos : 0 < n
  matrix_eq : a = .ofMat L.matrix
  right_isRegular : b.isRegular = true
  right_eq : b.toList = L.right.toList

/-- The numbers of a vector are those that it is made from. -/
theorem Nested.toList_toVector {n : ℕ} {values : List ℤ} (h : values.length = n) :
    (toVector values n).toList = values := by
  rw [toList_eq_ofFn]
  apply List.ext_getElem
  · rw [List.length_ofFn, h]
  · intro i _ hi
    rw [List.getElem_ofFn]
    unfold toVector
    dsimp only
    rw [get_ofFn]
    simp [hi]

namespace SomeSystem

/-! ## How a system is read -/

/-- What the cells of a system stand for, whose matrix has these entries. -/
def cellsProfile (n : ℕ) (a b : List Nested) (entries : List ℤ) : Profile n where
  matrix := Nested.matOfList entries n n
  residues p := (a.mapM (Nested.residue p)).map fun rs => Nested.matOfList rs n n
  right := (b.mapM Nested.integer).map fun vs => Nested.toVector vs n

/-- How nested lists are read as a system: as integers where both are regular, and else cell by
cell. -/
inductive IsReadFrom (a b : Nested) : SomeSystem → Prop
  | integers {n : ℕ} : 0 < n → a.shape = [n, n] → Nested.volume b.shape = n →
      a.isRegular = true → b.isRegular = true →
      IsReadFrom a b (ofLinear ⟨a.readMat n n, Nested.toVector b.toList n⟩)
  | cells {n : ℕ} {entries : List ℤ} {contents : Contents n} : 0 < n → a.shape = [n, n] →
      ¬ (a.isRegular = true ∧ b.isRegular = true) →
      a.cells.mapM Nested.integer = .ok entries →
      (contents = .other ∨ ∃ us vs, a.cells.mapM Nested.number? = some us ∧
        b.cells.mapM Nested.number? = some vs ∧ contents = .numbers (mixed n us vs)) →
      IsReadFrom a b ⟨n, cellsProfile n a.cells b.cells entries, contents⟩

/-- There is no other way to read a system. -/
theorem isReadFrom_of_read (h : read a b = .ok S) : IsReadFrom a b S := by
  unfold read at h
  split at h
  next m n hshape =>
    split at h
    · cases h
    next hsquare =>
      obtain ⟨rfl, hpos⟩ : m = n ∧ 0 < m := by omega
      dsimp only at h
      split at h
      · cases h
      next hlength =>
        split at h
        next hregular =>
          cases h
          exact .integers hpos hshape (not_not.1 hlength) hregular.1 hregular.2
        next hregular =>
          obtain ⟨entries, hentries, h⟩ := Outcome.bind_eq_ok.1 h
          split at h
          next us vs hus hvs =>
            cases h
            exact .cells hpos hshape hregular hentries (.inr ⟨us, vs, hus, hvs, rfl⟩)
          · cases h
            exact .cells hpos hshape hregular hentries (.inl rfl)
  · cases h

/-- Only regular nested lists are read as a system of integers. -/
theorem isIn_of_read {L : LinearSystem S.size} (h : read a b = .ok S)
    (hL : S.contents = .integers L) : L.IsIn a b := by
  cases isReadFrom_of_read h with
  | @integers n hpos hshape hlength ha hb =>
    have hcount : b.toList.length = n := by
      rw [Nested.length_toList hb, hlength]
    cases hL
    exact ⟨hpos, Nested.eq_ofMat hshape ha, hb, (Nested.toList_toVector hcount).symm⟩
  | cells _ _ _ _ hcontents =>
    obtain rfl | ⟨us, vs, -, -, rfl⟩ := hcontents
    · cases hL
    · cases hL

/-- The rows of a matrix and a right side with an integer for every row are read as that system. -/
theorem read_of_isIn {n : ℕ} {L : LinearSystem n} (h : L.IsIn a b) :
    read a b = .ok (.ofLinear L) := by
  have hshape := Nested.shape_ofMat h.pos h.pos L.matrix
  have hregular := Nested.isRegular_ofMat h.pos h.pos L.matrix
  have hlength : Nested.volume b.shape = n := by
    rw [← Nested.length_toList h.right_isRegular, h.right_eq, Vector.length_toList]
  have hpos := h.pos
  unfold read
  rw [h.matrix_eq, hshape]
  dsimp only
  rw [if_neg (by omega), if_neg (not_not.2 hlength), if_pos ⟨hregular, h.right_isRegular⟩,
    Nested.readMat_ofMat, h.right_eq, Nested.toVector_toList]

/-- A system is read exactly from the nested lists that it stands in. -/
theorem read_eq_ofLinear_iff {n : ℕ} {L : LinearSystem n} :
    read a b = .ok (.ofLinear L) ↔ L.IsIn a b :=
  ⟨fun h => isIn_of_read h rfl, read_of_isIn⟩

/-- Every system with at least one unknown is read from its rows and its right side. -/
theorem read_ofMat {n : ℕ} (hn : 0 < n) (L : LinearSystem n) :
    read (.ofMat L.matrix) (.ofVector L.right) = .ok (.ofLinear L) :=
  read_of_isIn ⟨hn, rfl, Nested.isRegular_ofVector hn L.right, Nested.toList_list_entry _⟩

/-- Integers that do not make a regular nesting are not all numbers in their cells. -/
theorem isRegular_of_mapM_number? {x : Nested} (hx : x.IsIntegral) {numbers : List Number}
    (h : x.cells.mapM Nested.number? = some numbers) : x.isRegular = true := by
  by_contra hregular
  obtain ⟨xs, hxs⟩ := hx.exists_list_mem_cells (Bool.eq_false_iff.2 hregular)
  have hsome := Outcome.isSome_of_mapM h hxs
  cases hsome

/-- Integers are never read as a system of other numbers. -/
theorem contents_ne_numbers (ha : a.IsIntegral) (hb : b.IsIntegral) (h : read a b = .ok S)
    (M : MixedSystem S.size) : S.contents ≠ .numbers M := by
  intro hM
  cases isReadFrom_of_read h with
  | integers => cases hM
  | cells _ _ hregular _ hcontents =>
    obtain rfl | ⟨us, vs, hus, hvs, rfl⟩ := hcontents
    · cases hM
    · exact hregular ⟨isRegular_of_mapM_number? ha hus, isRegular_of_mapM_number? hb hvs⟩

end SomeSystem

/-! ## Matrices of integers -/

/-- The branches of nested lists of integers hold integers. -/
theorem Nested.IsIntegral.of_mem_branchesAt {x y : Nested} (hx : x.IsIntegral) {depth : ℕ}
    (hy : y ∈ x.branchesAt depth) : y.IsIntegral := by
  induction depth generalizing x with
  | zero =>
    rw [branchesAt, List.mem_singleton] at hy
    rwa [hy]
  | succ depth ih =>
    rw [branchesAt, List.mem_flatMap] at hy
    obtain ⟨z, hz, hy⟩ := hy
    cases hx with
    | entry v => exact absurd hz List.not_mem_nil
    | list hxs => exact ih (hxs z hz) hy

/-- Cells of integers with an integer each are these integers. -/
theorem Nested.IsIntegral.cells_eq {x : Nested} (hx : x.IsIntegral) {entries : List ℤ}
    (h : x.cells.mapM integer = .ok entries) : x.cells = entries.map .entry := by
  have hcells : ∀ y ∈ x.cells, y.IsIntegral := fun y hy => hx.of_mem_branchesAt hy
  rw [Outcome.mapM_eq_ok_iff] at h
  generalize x.cells = cells at h hcells
  induction h with
  | nil => rfl
  | @cons y v _ _ hy _ ih =>
    rw [List.forall_mem_cons] at hcells
    rw [List.map_cons, ih hcells.2]
    cases hcells.1 with
    | entry w =>
      cases hy
      rfl
    | list _ => cases hy

/-- Integers with an integer in every cell are regular. -/
theorem Nested.IsIntegral.isRegular_of_mapM {x : Nested} (hx : x.IsIntegral) {entries : List ℤ}
    (h : x.cells.mapM integer = .ok entries) : x.isRegular = true := by
  by_contra hregular
  obtain ⟨xs, hxs⟩ := hx.exists_list_mem_cells (Bool.eq_false_iff.2 hregular)
  obtain ⟨v, hv⟩ := Outcome.exists_of_mapM_eq_ok h hxs
  cases hv

/-- Some place, the first one of which fails with `f`, stands for no integer. -/
structure Nested.LacksInteger (x : Nested) (f : Fault) : Prop where
  not_isRegular : x.isRegular = false
  eq_error : x.cells.mapM integer = .error f

/-- Regular nested lists have an integer in every place. -/
theorem Nested.lacksInteger_of_mapM {x : Nested} {f : Fault}
    (h : x.cells.mapM integer = .error f) : x.LacksInteger f := by
  refine ⟨?_, h⟩
  by_contra hregular
  obtain ⟨y, hy, hfault⟩ := Outcome.exists_mem_of_mapM_eq_error h
  have hcells : x.cells = x.toList.map .entry :=
    branchesAt_of_uniform (Bool.eq_true_of_not_eq_false hregular)
  rw [hcells] at hy
  obtain ⟨v, -, rfl⟩ := List.mem_map.1 hy
  cases hfault

/-- A place without an integer is no failure of lifting. -/
theorem Nested.LacksInteger.isLifting_eq_false {x : Nested} {f : Fault} (h : x.LacksInteger f) :
    f.isLifting = false := by
  obtain ⟨y, -, hfault⟩ := Outcome.exists_mem_of_mapM_eq_error h.eq_error
  rcases integer_eq_error hfault with rfl | rfl | rfl | ⟨shown, rfl⟩
  · rfl
  · rfl
  · rfl
  · rfl

/-- A function that keeps 0 can be applied before or after the entries are arranged. -/
theorem Nested.matOfList_map {f : ℤ → ℤ} (hf : f 0 = 0) (entries : List ℤ) (m n : ℕ) :
    matOfList (entries.map f) m n = (matOfList entries m n).map f := by
  refine Mat.ext_entry fun i j => ?_
  rw [Mat.entry_map, matOfList, matOfList, Mat.entry_ofFn, Mat.entry_ofFn]
  by_cases hin : i.val * n + j.val < entries.length
  · simp [hin]
  · simp [hin, hf]

/-- Nested lists of integers are refused for their shapes, or for a list in a place of the
matrix. -/
theorem SomeSystem.read_eq_error (ha : a.IsIntegral) {f : Fault}
    (h : SomeSystem.read a b = .error f) :
    (∃ g, f = .argument g) ∨ (f = .kindMismatch ∧ a.isRegular = false) := by
  unfold SomeSystem.read at h
  split at h
  · split at h
    · cases h
      exact .inl ⟨_, rfl⟩
    · dsimp only at h
      split at h
      · cases h
        exact .inl ⟨_, rfl⟩
      · split at h
        · cases h
        · rcases Outcome.bind_eq_error.1 h with hentries | ⟨entries, -, h⟩
          · obtain ⟨x, hx, hfault⟩ := Outcome.exists_mem_of_mapM_eq_error hentries
            refine .inr ⟨?_, (Nested.lacksInteger_of_mapM hentries).not_isRegular⟩
            cases ha.of_mem_branchesAt hx with
            | entry v => cases hfault
            | list _ =>
              cases hfault
              rfl
          · split at h <;> cases h
  · cases h
    exact .inl ⟨_, rfl⟩

/-- Whatever the right side is, a matrix of integers is read as it stands. -/
theorem SomeSystem.eq_ofMat_of_read (ha : a.IsIntegral) (h : SomeSystem.read a b = .ok S) :
    0 < S.size ∧ a = .ofMat S.profile.matrix := by
  cases isReadFrom_of_read h with
  | integers hpos hshape _ hregular => exact ⟨hpos, Nested.eq_ofMat hshape hregular⟩
  | @cells n entries _ hpos hshape _ hentries =>
    have hregular := ha.isRegular_of_mapM hentries
    have hmat := Nested.eq_ofMat hshape hregular
    -- The entries are read one by one; regular lists of integers have no others.
    have hlist : entries = a.toList := by
      have hcells : a.cells = a.toList.map .entry := Nested.branchesAt_of_uniform hregular
      rw [ha.cells_eq hentries] at hcells
      exact List.map_injective_iff.2 (fun u v huv => Nested.entry.inj huv) hcells
    refine ⟨hpos, ?_⟩
    show a = .ofMat (Nested.matOfList entries n n)
    rw [hlist]
    conv_rhs => rw [hmat, Nested.matOfList_toList_ofMat]
    exact hmat

/-- Whatever the right side is, a matrix of integers has the residues of its integers. -/
theorem SomeSystem.residues_of_read (ha : a.IsIntegral) (h : SomeSystem.read a b = .ok S) (p : ℕ) :
    S.profile.residues p = .ok (S.profile.matrix.reduce p) := by
  cases isReadFrom_of_read h with
  | integers => rfl
  | @cells n entries _ _ _ _ hentries =>
    have hresidues : a.cells.mapM (Nested.residue p) = .ok (entries.map fun v => Int.fmod v p) := by
      rw [ha.cells_eq hentries, Outcome.mapM_eq_ok_iff, List.forall₂_map_left_iff,
        List.forall₂_map_right_iff, List.forall₂_same]
      exact fun v _ => rfl
    show (a.cells.mapM (Nested.residue p)).map (fun rs => Nested.matOfList rs n n)
      = .ok ((Nested.matOfList entries n n).reduce p)
    rw [hresidues]
    exact congrArg Except.ok
      (Nested.matOfList_map (f := fun v => Int.fmod v p) (Int.zero_fmod _) entries n n)

/-- The right side of a system is open only where one of its places has no integer. -/
theorem SomeSystem.lacksInteger_of_read (h : SomeSystem.read a b = .ok S) {f : Fault}
    (hright : S.profile.right = .error f) : b.LacksInteger f := by
  cases isReadFrom_of_read h with
  | integers => cases hright
  | cells => exact Nested.lacksInteger_of_mapM (Outcome.map_eq_error.1 hright)

end PadicLift
