import Mathlib.Logic.Equiv.Basic
import PadicLift.Modular.Elimination
import PadicLift.Proofs.Modular.Product

/-!
# Row operations in words

Clearing a column multiplies, subtracts and reduces in words. As long as the table is reduced, every
number that is formed on the way is a word (`Formed.isWord`), so the operations are those over the
integers modulo `p`, and the table stays reduced. A cleared column is a unit column, and a column
that is 0 in both rows of the exchange before stays as it is.
-/

namespace PadicLift

open Machine

/-! ## Row operations in words -/

section Words

variable {p : ℕ} {x y : ℤ}

/-- The product of two residues is a word. -/
theorem abs_mul_le_wordCapacity (hp : 0 < p) (hmax : p ≤ maxModulus) (hx : |x| < p)
    (hy : |y| < p) : |x * y| ≤ wordCapacity := by
  have hcapacity : ((wordCapacity : ℕ) : ℤ) = 9223372036854775807 := by decide
  have hsquare : ((p : ℤ) - 1) * (p - 1) ≤ 94906264 * 94906264 := by
    rw [maxModulus] at hmax
    exact mul_le_mul (by omega) (by omega) (by omega) (by omega)
  have := abs_mul_le_of_abs_lt hx hy
  omega

/-- The difference of two residues is a word. -/
theorem abs_sub_le_wordCapacity (hmax : p ≤ maxModulus) (hx : |x| < p) (hy : |y| < p) :
    |x - y| ≤ wordCapacity := by
  have hcapacity : ((wordCapacity : ℕ) : ℤ) = 9223372036854775807 := by decide
  rw [maxModulus] at hmax
  rw [abs_lt] at hx hy
  apply abs_le.2
  omega

theorem word_rem_mul (hp : 0 < p) (hmax : p ≤ maxModulus) (hx : |x| < p) (hy : |y| < p) :
    word.rem (word.mul x y) p = x * y % p := by
  have hmul : word.mul x y = x * y := wrap_eq_self (abs_mul_le_wordCapacity hp hmax hx hy)
  rw [hmul, word_rem_eq _ (by omega)]

theorem word_rem_sub (hp : 0 < p) (hmax : p ≤ maxModulus) (hx : |x| < p) (hy : |y| < p) :
    word.rem (word.add x (-y)) p = (x - y) % p := by
  have hadd : word.add x (-y) = x - y := by
    rw [sub_eq_add_neg]
    apply wrap_eq_self
    rw [← sub_eq_add_neg]
    exact abs_sub_le_wordCapacity hmax hx hy
  rw [hadd, word_rem_eq _ (by omega)]

end Words

namespace Elimination

variable {n m : ℕ} {p : ℕ} {T : Mat n m} {r : Fin n} {c : Fin m} {scale : ℤ}

/-- Row `r` times the inverse of its pivot, modulo `p`. -/
def scaledRow (p : ℤ) (T : Mat n m) (r : Fin n) (scale : ℤ) (j : Fin m) : ℤ :=
  word.rem (word.mul (T.entry r j) scale) p

/-- How often the scaled row is taken from row `i`. -/
def factor (T : Mat n m) (r : Fin n) (c : Fin m) (i : Fin n) : ℤ :=
  if i = r then 0 else T.entry i c

/-- What the multiple of the scaled row is taken from: the scaled row itself, and the other rows as
they are. -/
def minuend (p : ℤ) (T : Mat n m) (r : Fin n) (scale : ℤ) (i : Fin n) (j : Fin m) : ℤ :=
  if i = r then scaledRow p T r scale j else T.entry i j

/-- The multiple that is taken from row `i`, modulo `p`. -/
def subtrahend (p : ℤ) (T : Mat n m) (r : Fin n) (c : Fin m) (scale : ℤ) (i : Fin n) (j : Fin m) :
    ℤ :=
  word.rem (word.mul (factor T r c i) (scaledRow p T r scale j)) p

/-- The exact results of the products and differences that clear a column. -/
inductive Formed (p : ℤ) (T : Mat n m) (r : Fin n) (c : Fin m) (scale : ℤ) : ℤ → Prop
  | scaled (j : Fin m) : Formed p T r c scale (T.entry r j * scale)
  | product (i : Fin n) (j : Fin m) :
    Formed p T r c scale (factor T r c i * scaledRow p T r scale j)
  | difference (i : Fin n) (j : Fin m) :
    Formed p T r c scale (minuend p T r scale i j - subtrahend p T r c scale i j)

/-- A cleared column is the remainder of the differences. -/
theorem entry_clearColumn_eq_rem (p : ℤ) (T : Mat n m) (r : Fin n) (c : Fin m) (scale : ℤ)
    (i : Fin n) (j : Fin m) : (clearColumn p T r c scale).entry i j
      = word.rem (word.add (minuend p T r scale i j) (-subtrahend p T r c scale i j)) p := by
  rw [clearColumn, Mat.entry_ofFn, get_ofFn, minuend, subtrahend, factor]
  by_cases hi : i = r
  · rw [if_pos hi, if_pos hi, if_pos hi]
    rfl
  · rw [if_neg hi, if_neg hi, if_neg hi]
    rfl

section Exact

variable (hp : 0 < p) (hmax : p ≤ maxModulus) (hT : T.IsReduced p) (hscale : |scale| < p)
include hp hmax hT hscale

theorem scaledRow_eq (j : Fin m) : scaledRow p T r scale j = T.entry r j * scale % p :=
  word_rem_mul hp hmax (hT.abs_lt r j) hscale

theorem abs_scaledRow_lt (j : Fin m) : |scaledRow p T r scale j| < p := by
  rw [scaledRow_eq hp hmax hT hscale]
  exact abs_emod_lt _ (by omega)

omit hmax hscale in
theorem abs_factor_lt (i : Fin n) : |factor T r c i| < p := by
  rw [factor]
  split
  · rw [abs_zero]
    omega
  · exact hT.abs_lt i c

theorem abs_minuend_lt (i : Fin n) (j : Fin m) : |minuend p T r scale i j| < p := by
  rw [minuend]
  split
  · exact abs_scaledRow_lt hp hmax hT hscale j
  · exact hT.abs_lt i j

theorem subtrahend_eq (i : Fin n) (j : Fin m) :
    subtrahend p T r c scale i j = factor T r c i * scaledRow p T r scale j % p :=
  word_rem_mul hp hmax (abs_factor_lt hp hT i) (abs_scaledRow_lt hp hmax hT hscale j)

theorem abs_subtrahend_lt (i : Fin n) (j : Fin m) : |subtrahend p T r c scale i j| < p := by
  rw [subtrahend_eq hp hmax hT hscale]
  exact abs_emod_lt _ (by omega)

/-- Every number that is formed while a column is cleared is a word. -/
theorem Formed.isWord {v : ℤ} (h : Formed p T r c scale v) : isWord v = true := by
  apply isWord_of_abs_le
  cases h with
  | scaled j => exact abs_mul_le_wordCapacity hp hmax (hT.abs_lt r j) hscale
  | product i j =>
    exact abs_mul_le_wordCapacity hp hmax (abs_factor_lt hp hT i)
      (abs_scaledRow_lt hp hmax hT hscale j)
  | difference i j =>
    exact abs_sub_le_wordCapacity hmax (abs_minuend_lt hp hmax hT hscale i j)
      (abs_subtrahend_lt hp hmax hT hscale i j)

/-- The pivot row is scaled, and a multiple of it taken off all others. -/
theorem entry_clearColumn (i : Fin n) (j : Fin m) :
    (clearColumn p T r c scale).entry i j
      = if i = r then T.entry r j * scale % p
        else (T.entry i j - T.entry i c * (T.entry r j * scale % p) % p) % p := by
  rw [entry_clearColumn_eq_rem, word_rem_sub hp hmax (abs_minuend_lt hp hmax hT hscale i j)
    (abs_subtrahend_lt hp hmax hT hscale i j), subtrahend_eq hp hmax hT hscale, minuend, factor,
    scaledRow_eq hp hmax hT hscale]
  split
  · rw [zero_mul, Int.zero_emod, sub_zero, Int.emod_emod]
  · rfl

end Exact

/-- Clearing a column leaves the table reduced. -/
theorem isReduced_clearColumn (hp : 0 < p) (hmax : p ≤ maxModulus) (hT : T.IsReduced p)
    (hscale : |scale| < p) : (clearColumn p T r c scale).IsReduced p := by
  intro i j
  rw [entry_clearColumn hp hmax hT hscale]
  split
  · exact ⟨Int.emod_nonneg _ (by omega), Int.emod_lt_of_pos _ (by omega)⟩
  · exact ⟨Int.emod_nonneg _ (by omega), Int.emod_lt_of_pos _ (by omega)⟩

/-- Over the ring of residues, clearing a column is a row operation. -/
theorem modulo_clearColumn (hp : 0 < p) (hmax : p ≤ maxModulus) (hT : T.IsReduced p)
    (hscale : |scale| < p) (i : Fin n) (j : Fin m) :
    (clearColumn p T r c scale).modulo p i j
      = if i = r then T.modulo p r j * scale
        else T.modulo p i j - T.modulo p i c * (T.modulo p r j * scale) := by
  rw [Mat.modulo_apply, entry_clearColumn hp hmax hT hscale]
  split
  · rw [ZMod.intCast_mod]
    push_cast
    rfl
  · rw [ZMod.intCast_mod, Int.cast_sub, ZMod.intCast_mod, Int.cast_mul, ZMod.intCast_mod]
    push_cast
    rfl

theorem entry_swapRows (s : Fin n) (i : Fin n) (j : Fin m) :
    (swapRows T r s).entry i j = T.entry (Equiv.swap r s i) j := by
  rw [swapRows, Mat.entry_ofFn, Equiv.swap_apply_def]
  split
  · rfl
  · split <;> rfl

theorem isReduced_swapRows (hT : T.IsReduced p) (r s : Fin n) : (swapRows T r s).IsReduced p := by
  intro i j
  rw [entry_swapRows]
  exact hT _ j

/-- Clearing a column makes it a unit column. -/
theorem entry_clearColumn_pivot (hp : 2 ≤ p) (hmax : p ≤ maxModulus) (hT : T.IsReduced p)
    (hscale : |scale| < p) (hinv : T.entry r c * scale ≡ 1 [ZMOD p]) (i : Fin n) :
    (clearColumn p T r c scale).entry i c = if i = r then 1 else 0 := by
  have hone : (1 : ℤ) % p = 1 := Int.emod_eq_of_lt (by omega) (by omega)
  rw [entry_clearColumn (by omega) hmax hT hscale, hinv.eq, hone, mul_one]
  split
  · rfl
  · rw [Int.emod_eq_of_lt (hT i c).1 (hT i c).2, sub_self, Int.zero_emod]

/-- A column that is 0 in both rows of an exchange stays as it is while another one is cleared. -/
theorem entry_clearColumn_of_eq_zero (hp : 0 < p) (hmax : p ≤ maxModulus) (hT : T.IsReduced p)
    (hscale : |scale| < p) {s : Fin n} {j : Fin m} (hr : T.entry r j = 0) (hs : T.entry s j = 0)
    (i : Fin n) : (clearColumn p (swapRows T r s) r c scale).entry i j = T.entry i j := by
  have hswapped : (swapRows T r s).entry i j = T.entry i j := by
    rw [entry_swapRows, Equiv.swap_apply_def]
    split
    next hi => rw [hi, hr, hs]
    next =>
      split
      next hi => rw [hi, hr, hs]
      next => rfl
  have hpivot : (swapRows T r s).entry r j = 0 := by
    rw [entry_swapRows, Equiv.swap_apply_left, hs]
  rw [entry_clearColumn hp hmax (isReduced_swapRows hT r s) hscale, hpivot, zero_mul, Int.zero_emod,
    mul_zero, Int.zero_emod, sub_zero, hswapped]
  split
  next hi => rw [hi, hr]
  next => exact Int.emod_eq_of_lt (hT i j).1 (hT i j).2

end Elimination
end PadicLift
