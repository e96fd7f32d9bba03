import PadicLift.Proofs.Solution.Check

/-!
# What a passed check says about systems of any shape

`Solution.fits` walks the rows of `A * numerators` and the entries of the right side side by side
and stops where the shorter of the two ends. So a passed check is a statement about the rows that
have a right side (`HoldsWhereCompared`). For a matrix with as many rows as there are right sides
that is a solution; otherwise the check still passes unless one of the rows compared fails.
-/

namespace PadicLift
namespace Solution

variable {m n : ℕ} {b : Nested} {x : Solution}

/-- The right side has an entry for every row, and all equations hold. -/
def Solves (A : Mat m n) (b : List ℤ) (u : Fin n → ℚ) : Prop :=
  ∃ v : Fin m → ℤ, b = List.ofFn v ∧ ∀ i, ∑ j, (A.entry i j : ℚ) * u j = v i

/-- The equations hold for all rows that have a right side. -/
def HoldsWhereCompared (A : Mat m n) (b : List ℤ) (u : Fin n → ℚ) : Prop :=
  ∀ (i : Fin m) (v : ℤ), b[i.val]? = some v → ∑ j, (A.entry i j : ℚ) * u j = v

/-- A vector solves the system if it does so in every row that is compared, and none is left out. -/
theorem solves_iff {A : Mat m n} {b : List ℤ} {u : Fin n → ℚ} :
    Solves A b u ↔ b.length = m ∧ HoldsWhereCompared A b u := by
  constructor
  · rintro ⟨v, rfl, h⟩
    refine ⟨List.length_ofFn, ?_⟩
    intro i w hw
    rw [List.getElem?_ofFn, dif_pos i.isLt] at hw
    cases hw
    exact h i
  · rintro ⟨rfl, h⟩
    refine ⟨b.get, (List.ofFn_get b).symm, ?_⟩
    intro i
    exact h i (b.get i) (List.getElem?_eq_getElem i.isLt)

/-- A solution of `n` numerators over a positive denominator, compared with an `m × n` matrix and a
right side of any length. The check has a result, which says whether the equations hold that were
compared. That is the same as whether the fractions are a solution exactly if every row has a right
side, and no more are there, or a row that was compared fails. -/
theorem HasShape.fits_compares (hx : x.HasShape n) (hm : 0 < m) (hn : 0 < n) (A : Mat m n)
    (hb : b.isRegular = true) :
    ∃ (passed : Bool) (u : Fin n → ℚ),
      fits (.ofMat A) b x = .ok passed ∧ x.fractions = .ok (List.ofFn u) ∧
      (passed = true ↔ HoldsWhereCompared A b.toList u) ∧
      ((passed = true ↔ Solves A b.toList u) ↔
        b.toList.length = m ∨ ¬ HoldsWhereCompared A b.toList u) ∧
      (Solves A b.toList u ↔ ∃ v : Fin m → ℤ, b.toList = List.ofFn v ∧
        ∀ i, ∑ j, A.entry i j * (Nested.toVector x.numerators n).get j = v i * x.denominator) := by
  refine ⟨_, _, hx.fits_ofMat hm hn A hb, hx.fractions_eq, ?_⟩
  set u : Fin n → ℚ := fun j => (Nested.toVector x.numerators n).get j / x.denominator
  have hpassed : check A b.toList (Nested.toVector x.numerators n) x.denominator = true ↔
      HoldsWhereCompared A b.toList u := by
    rw [check_eq_true_iff_compared]
    apply forall_congr'
    intro i
    exact forall₂_congr fun v _ => (hx.sum_mul_div_eq_iff _ _ v).symm
  refine ⟨hpassed, ?_, ?_⟩
  -- A failed comparison settles both sides; after a passed one only the length is left to ask.
  · rw [hpassed, solves_iff]
    by_cases hcompared : HoldsWhereCompared A b.toList u
    · simp [hcompared]
    · simp [hcompared]
  · apply exists_congr
    intro v
    apply and_congr_right
    intro _
    exact forall_congr' fun i => hx.sum_mul_div_eq_iff _ _ (v i)

/-- Both rows have a right side, and the second one fails. -/
theorem fits_compares_second_row :
    HasShape 1 ⟨[1], 1, 0, [], []⟩ ∧
    fits (.ofMat (Mat.ofFn fun (_ : Fin 2) (_ : Fin 1) => 1)) (.list [.entry 1, .entry 2])
      ⟨[1], 1, 0, [], []⟩ = .ok false := by
  have hx : HasShape 1 ⟨[1], 1, 0, [], []⟩ := ⟨rfl, by decide⟩
  obtain ⟨passed, u, hfits, hfractions, hpassed, -⟩ :=
    hx.fits_compares (b := .list [.entry 1, .entry 2]) (show 0 < 2 by decide) (by decide)
      (Mat.ofFn fun _ _ => 1) rfl
  refine ⟨hx, ?_⟩
  rw [hfits]
  suffices ¬ passed = true by simpa using this
  rw [hpassed]
  intro h
  have hfirst := h 0 1 rfl
  have hsecond := h 1 2 rfl
  norm_num at hfirst hsecond
  linarith

/-- A check may pass although a row has no right side. -/
theorem fits_two_rows_one_right_side :
    fits (.list [.list [.entry 1], .list [.entry 1]]) (.list [.entry 1]) ⟨[1], 1, 0, [], []⟩
      = .ok true ∧
    fractions ⟨[1], 1, 0, [], []⟩ = .ok (List.ofFn fun _ : Fin 1 => 1) ∧
    Nested.list [.list [.entry 1], .list [.entry 1]]
      = .ofMat (Mat.ofFn fun (_ : Fin 2) (_ : Fin 1) => 1) ∧
    ¬ Solves (Mat.ofFn fun (_ : Fin 2) (_ : Fin 1) => 1) [1] fun _ => 1 := by
  refine ⟨by decide +kernel, by decide +kernel, rfl, ?_⟩
  rw [solves_iff]
  simp

end Solution
end PadicLift
