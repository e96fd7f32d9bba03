import Mathlib.Algebra.BigOperators.Group.List.Basic
import Mathlib.Algebra.Order.Group.Int
import Mathlib.Algebra.Order.Ring.Abs
import Mathlib.Data.Int.ModEq
import Mathlib.Tactic.Linarith
import Mathlib.Tactic.Ring
import PadicLift.Number.Machine

/-!
# Exact machine arithmetic

A machine computes exactly as long as every number that is formed stays within its capacity. That is
`Machine.IsExact`, and everything here is derived from it: the sum of a block in whatever order its
products are added (`Summation.run_exact`), and the blocked inner product, which keeps residues
small by reducing between the blocks (`dotBy_exact`).

Words and doubles are exact, and so is `Machine.recording` of either, which computes on them and
keeps a record of every exact result (`Machine.traced` on doubles). Run on this machine, the same
inner product says how large its intermediate results become.
-/

namespace PadicLift

-- Powers take their instance from the core library, as they do beside the definitions.
attribute [local instance (high)] instPowNat

namespace Machine

variable {α : Type}

/-! ## Exactness -/

/-- How numbers of a machine are read: the integer each stands for, and what must have held while it
was computed. -/
structure Reading (α : Type) where
  value : α → ℤ
  Fits : α → Prop

/-- The machine computes exactly as long as the numbers that it forms are at most `capacity`. -/
structure IsExact (M : Machine α) (R : Reading α) (capacity : ℤ) : Prop where
  zero : R.Fits M.zero ∧ R.value M.zero = 0
  mul : ∀ {x y}, R.Fits x → R.Fits y → |R.value x * R.value y| ≤ capacity →
    R.Fits (M.mul x y) ∧ R.value (M.mul x y) = R.value x * R.value y
  add : ∀ {x y}, R.Fits x → R.Fits y → |R.value x + R.value y| ≤ capacity →
    R.Fits (M.add x y) ∧ R.value (M.add x y) = R.value x + R.value y
  mulAdd : ∀ {s x y}, R.Fits s → R.Fits x → R.Fits y → |R.value x * R.value y| ≤ capacity →
    |R.value s + R.value x * R.value y| ≤ capacity →
    R.Fits (M.mulAdd s x y) ∧ R.value (M.mulAdd s x y) = R.value s + R.value x * R.value y
  rem : ∀ {x q}, R.Fits x → R.Fits q → 0 < R.value q → R.value q ≤ capacity →
    R.Fits (M.rem x q) ∧ R.value (M.rem x q) ≡ R.value x [ZMOD R.value q] ∧
      |R.value (M.rem x q)| < R.value q
  mod : ∀ {x q}, R.Fits x → R.Fits q → 0 < R.value q → R.value q ≤ capacity →
    R.Fits (M.mod x q) ∧ R.value (M.mod x q) = R.value x % R.value q

/-! ## Residues and their products -/

namespace Reading

variable (R : Reading α)

/-- A residue for the modulus `q`, of either sign. -/
def IsResidue (q : ℤ) (x : α) : Prop := R.Fits x ∧ |R.value x| < q

/-- The exact sum of the products of all pairs. -/
def dot (terms : List (α × α)) : ℤ := (terms.map fun t => R.value t.1 * R.value t.2).sum

@[simp] theorem dot_nil : R.dot [] = 0 := rfl

@[simp] theorem dot_cons (t : α × α) (terms : List (α × α)) :
    R.dot (t :: terms) = R.value t.1 * R.value t.2 + R.dot terms := by
  simp [dot]

@[simp] theorem dot_append (u v : List (α × α)) : R.dot (u ++ v) = R.dot u + R.dot v := by
  simp [dot]

/-- The value of a dot product does not depend on the order of its terms. -/
theorem dot_perm {u v : List (α × α)} (h : u.Perm v) : R.dot u = R.dot v :=
  (h.map _).sum_eq

/-- Both members of all pairs are residues. -/
def AreResidues (q : ℤ) (terms : List (α × α)) : Prop :=
  ∀ t ∈ terms, R.IsResidue q t.1 ∧ R.IsResidue q t.2

variable {R}

theorem AreResidues.append_left {q : ℤ} {u v : List (α × α)} (h : R.AreResidues q (u ++ v)) :
    R.AreResidues q u := fun t ht => h t (List.mem_append_left v ht)

theorem AreResidues.append_right {q : ℤ} {u v : List (α × α)} (h : R.AreResidues q (u ++ v)) :
    R.AreResidues q v := fun t ht => h t (List.mem_append_right u ht)

end Reading

theorem abs_mul_le_of_abs_lt {x y q : ℤ} (hx : |x| < q) (hy : |y| < q) :
    |x * y| ≤ (q - 1) * (q - 1) := by
  rw [abs_mul]
  exact mul_le_mul (by omega) (by omega) (abs_nonneg y) (by have := abs_nonneg x; omega)

/-- A sum of `k` products of residues is at most `k (q - 1) ^ 2`. -/
theorem Reading.abs_dot_le {R : Reading α} {q : ℤ} {terms : List (α × α)}
    (h : R.AreResidues q terms) : |R.dot terms| ≤ terms.length * ((q - 1) * (q - 1)) := by
  induction terms with
  | nil => simp
  | cons t rest ih =>
    have hhead := h t List.mem_cons_self
    have hrest := ih fun u hu => h u (List.mem_cons_of_mem t hu)
    have hproduct := abs_mul_le_of_abs_lt hhead.1.2 hhead.2.2
    have htriangle := abs_add_le (R.value t.1 * R.value t.2) (R.dot rest)
    rw [Reading.dot_cons, List.length_cons]
    push_cast
    linarith

/-! ## Orders of summation -/

/-- A way to add up the products of some pairs. -/
inductive Summation (α : Type)
  | zero
  /-- One product. -/
  | term (x y : α)
  /-- A sum and one more product, in one step. -/
  | addTerm (s : Summation α) (x y : α)
  | add (s t : Summation α)

namespace Summation

/-- The pairs whose products are added. -/
def terms : Summation α → List (α × α)
  | zero => []
  | term x y => [(x, y)]
  | addTerm s x y => s.terms ++ [(x, y)]
  | add s t => s.terms ++ t.terms

/-- The sum that a machine computes. -/
def run (M : Machine α) : Summation α → α
  | zero => M.zero
  | term x y => M.mul x y
  | addTerm s x y => M.mulAdd (s.run M) x y
  | add s t => M.add (s.run M) (t.run M)

/-- The products one after the other. -/
def leftToRight (terms : List (α × α)) : Summation α :=
  terms.foldl (fun s t => addTerm s t.1 t.2) zero

theorem terms_foldl (terms : List (α × α)) (s : Summation α) :
    (terms.foldl (fun s t => addTerm s t.1 t.2) s).terms = s.terms ++ terms := by
  induction terms generalizing s with
  | nil => simp
  | cons t rest ih => rw [List.foldl_cons, ih]; simp [Summation.terms]

@[simp] theorem terms_leftToRight (terms : List (α × α)) : (leftToRight terms).terms = terms := by
  rw [leftToRight, terms_foldl]
  rfl

/-- Summed from left to right, a tree of additions is the loop over the block. -/
theorem run_leftToRight (M : Machine α) (terms : List (α × α)) :
    (leftToRight terms).run M = M.blockSum terms := by
  have hfoldl : ∀ s : Summation α, (terms.foldl (fun s t => addTerm s t.1 t.2) s).run M
      = terms.foldl (fun s t => M.mulAdd s t.1 t.2) (s.run M) := by
    induction terms with
    | nil => intro s; rfl
    | cons t rest ih => intro s; rw [List.foldl_cons, ih]; rfl
  exact hfoldl zero

/-- As long as all products together fit, every order gives the exact sum. -/
theorem run_exact {M : Machine α} {R : Reading α} {capacity q : ℤ} (hM : M.IsExact R capacity)
    {s : Summation α} (hs : R.AreResidues q s.terms)
    (hfit : s.terms.length * ((q - 1) * (q - 1)) ≤ capacity) :
    R.Fits (s.run M) ∧ R.value (s.run M) = R.dot s.terms := by
  have hsquare : 0 ≤ (q - 1) * (q - 1) := mul_self_nonneg _
  have hdot := R.abs_dot_le hs
  -- By induction on the tree; the parts of a tree have fewer terms, so they fit too.
  induction s with
  | zero => exact hM.zero
  | term x y =>
    have hxy := hs (x, y) (by simp [terms])
    simp only [terms, R.dot_cons, R.dot_nil, add_zero] at hdot ⊢
    exact hM.mul hxy.1.1 hxy.2.1 (hdot.trans hfit)
  | addTerm s x y ih =>
    have hxy := hs (x, y) (by simp [terms])
    have hproduct := abs_mul_le_of_abs_lt hxy.1.2 hxy.2.2
    simp only [terms, List.length_append, List.length_singleton, R.dot_append, R.dot_cons,
      R.dot_nil, add_zero] at hdot hfit ⊢
    push_cast at hdot hfit
    have hleft := hs.append_left
    obtain ⟨hfits, hvalue⟩ := ih hleft (by linarith) (R.abs_dot_le hleft)
    rw [← hvalue] at hdot ⊢
    have hmore := mul_nonneg (Int.natCast_nonneg s.terms.length) hsquare
    exact hM.mulAdd hfits hxy.1.1 hxy.2.1 (by linarith) (hdot.trans hfit)
  | add s t ihs iht =>
    simp only [terms, List.length_append, R.dot_append] at hdot hfit ⊢
    push_cast at hdot hfit
    have hsmore := mul_nonneg (Int.natCast_nonneg s.terms.length) hsquare
    have htmore := mul_nonneg (Int.natCast_nonneg t.terms.length) hsquare
    have hleft := hs.append_left
    have hright := hs.append_right
    obtain ⟨hsfits, hsvalue⟩ := ihs hleft (by linarith) (R.abs_dot_le hleft)
    obtain ⟨htfits, htvalue⟩ := iht hright (by linarith) (R.abs_dot_le hright)
    rw [← hsvalue, ← htvalue] at hdot ⊢
    exact hM.add hsfits htfits (hdot.trans hfit)

end Summation

/-! ## Blocked inner products -/

/-- The inner product of `blockedDot`, with the products of each block added in an order of one's
own. -/
def dotBy (M : Machine α) (order : List (α × α) → Summation α) (length : ℕ) (p : α)
    (terms : List (α × α)) (total : α) : α :=
  match terms with
  | [] => total
  | t :: rest =>
    let part := M.rem ((order (t :: rest.take (length - 1))).run M) p
    M.dotBy order length p (rest.drop (length - 1)) (M.rem (M.add total part) p)
termination_by terms.length
decreasing_by
  simp only [List.length_cons, List.length_drop]
  omega

/-- With every block summed from left to right, the dot product is the one that is run. -/
theorem dotBy_leftToRight (M : Machine α) (length : ℕ) (p : α) (terms : List (α × α)) (total : α) :
    M.dotBy Summation.leftToRight length p terms total = M.blockedDot length p terms total := by
  fun_induction M.blockedDot length p terms total with
  | case1 total => rw [dotBy]
  | case2 total t rest _ ih => rw [dotBy, Summation.run_leftToRight, ih]

/-- What is taken for one block and what is left are all the terms. -/
theorem cons_take_append_drop {β : Type} (t : β) (rest : List β) (k : ℕ) :
    (t :: rest.take k) ++ rest.drop k = t :: rest := by
  rw [List.cons_append, List.take_append_drop]

/-- A block in front of the others is summed, reduced and added first. -/
theorem blockedDot_of_ne_nil (M : Machine α) {length : ℕ} (hlength : 0 < length) (p : α)
    {terms : List (α × α)} (hterms : terms ≠ []) (total : α) :
    M.blockedDot length p terms total = M.blockedDot length p (terms.drop length)
      (M.rem (M.add total (M.rem (M.blockSum (terms.take length)) p)) p) := by
  obtain ⟨t, rest, rfl⟩ := List.exists_cons_of_ne_nil hterms
  obtain ⟨k, rfl⟩ := Nat.exists_eq_succ_of_ne_zero hlength.ne'
  rw [blockedDot]
  rfl

/-- The blocked inner product is congruent to the exact one, and a residue. -/
theorem dotBy_exact {M : Machine α} {R : Reading α} {capacity : ℤ} (hM : M.IsExact R capacity)
    {order : List (α × α) → Summation α} (horder : ∀ terms, (order terms).terms.Perm terms)
    {length : ℕ} (hlength : 0 < length) {q : α} (hq : R.Fits q) (hpos : 0 < R.value q)
    (hsum : 2 * R.value q ≤ capacity)
    (hblock : length * ((R.value q - 1) * (R.value q - 1)) ≤ capacity)
    {terms : List (α × α)} (hterms : R.AreResidues (R.value q) terms) {total : α}
    (htotal : R.IsResidue (R.value q) total) :
    R.IsResidue (R.value q) (M.dotBy order length q terms total) ∧
      R.value (M.dotBy order length q terms total)
        ≡ R.value total + R.dot terms [ZMOD R.value q] := by
  fun_induction M.dotBy order length q terms total with
  | case1 total => exact ⟨htotal, by simp⟩
  | case2 total t rest part ih =>
    -- One block: its products are summed exactly, then reduced and added to the total.
    set block := t :: rest.take (length - 1) with hblockDef
    have hsplit := cons_take_append_drop t rest (length - 1)
    rw [← hblockDef] at hsplit
    have hperm := horder block
    have hsquare : 0 ≤ (R.value q - 1) * (R.value q - 1) := mul_self_nonneg _
    have hshort : ((order block).terms.length : ℤ) ≤ length := by
      rw [hperm.length_eq, hblockDef, List.length_cons, List.length_take]
      omega
    have hresidues : R.AreResidues (R.value q) (order block).terms := by
      intro u hu
      apply hterms
      rw [← hsplit]
      exact List.mem_append_left _ (hperm.mem_iff.1 hu)
    obtain ⟨hfits, hvalue⟩ := Summation.run_exact hM hresidues
      ((mul_le_mul_of_nonneg_right hshort hsquare).trans hblock)
    obtain ⟨hpart, hpartMod, hpartLt⟩ : R.Fits part ∧ _ ∧ |R.value part| < R.value q :=
      hM.rem hfits hq hpos (by omega)
    obtain ⟨hadd, haddValue⟩ := hM.add htotal.1 hpart (by
      have := abs_add_le (R.value total) (R.value part)
      have := htotal.2
      omega)
    obtain ⟨hnext, hnextMod, hnextLt⟩ := hM.rem hadd hq hpos (by omega)
    obtain ⟨hresult, hmod⟩ := ih (fun u hu => hterms u (by
      rw [← hsplit]
      exact List.mem_append_right _ hu)) ⟨hnext, hnextLt⟩
    refine ⟨hresult, hmod.trans ?_⟩
    rw [← hsplit, R.dot_append, ← R.dot_perm hperm, ← hvalue, ← add_assoc]
    apply Int.ModEq.add_right
    rw [haddValue] at hnextMod
    exact hnextMod.trans (hpartMod.add_left _)

/-- Blocks of the length for `p` fit the capacity, for all moduli up to `p`. -/
theorem blockLength_mul_le {capacity : ℕ} {p q : ℤ} (hq : 1 ≤ q) (hqp : q ≤ p)
    (hp : (p - 1) * (p - 1) + 1 ≤ capacity) :
    blockLength capacity p * ((q - 1) * (q - 1)) ≤ capacity := by
  set s := (p - 1) * (p - 1) + 1 with hs
  have hspos : 0 < s := by nlinarith
  have hle : (q - 1) * (q - 1) ≤ s := by nlinarith
  have hdiv : (capacity : ℤ) / s * s ≤ capacity := Int.ediv_mul_le _ hspos.ne'
  have hone : 1 ≤ (capacity : ℤ) / s := (Int.le_ediv_iff_mul_le hspos).2 (by omega)
  have hlength : ((blockLength capacity p : ℕ) : ℤ) = (capacity : ℤ) / s := by
    rw [blockLength, ← hs]
    have hcast : ((capacity / s.toNat : ℕ) : ℤ) = (capacity : ℤ) / s := by
      rw [Int.natCast_div, Int.toNat_of_nonneg hspos.le]
    omega
  rw [hlength]
  calc (capacity : ℤ) / s * ((q - 1) * (q - 1)) ≤ (capacity : ℤ) / s * s :=
        mul_le_mul_of_nonneg_left hle (by omega)
    _ ≤ capacity := hdiv

theorem blockLength_pos (capacity : ℕ) (p : ℤ) : 0 < blockLength capacity p := by
  unfold blockLength
  omega

/-! ## Words and doubles -/

/-- Integers, each of which stands for itself. -/
def Reading.plain : Reading ℤ := ⟨id, fun _ => True⟩

/-- Words hold all integers up to their capacity. -/
theorem wrap_eq_self {z : ℤ} (h : |z| ≤ wordCapacity) : wrap z = z := by
  rw [abs_le, wordCapacity] at h
  exact Int.bmod_eq_of_le (by omega) (by omega)

theorem isWord_of_abs_le {z : ℤ} (h : |z| ≤ wordCapacity) : isWord z = true := by
  rw [abs_le, wordCapacity] at h
  unfold isWord
  rw [Bool.and_eq_true, decide_eq_true_eq, decide_eq_true_eq]
  omega

/-- Doubles hold all integers up to their capacity. -/
theorem roundInt_eq_self {z : ℤ} (h : |z| ≤ doubleCapacity) : Binary64.roundInt z = z := by
  rw [abs_le, doubleCapacity] at h
  have hsmall : z.natAbs < 2 ^ (53 : ℕ) := by omega
  unfold Binary64.roundInt Binary64.roundNat
  rw [if_pos hsmall]
  split <;> omega

theorem word_rem_eq (x : ℤ) {q : ℤ} (hq : 0 < q) : word.rem x q = x % q := by
  show (if q = 0 then 0 else Int.fmod x q) = x % q
  rw [if_neg hq.ne', Int.fmod_eq_emod_of_nonneg x hq.le]

theorem abs_emod_lt (x : ℤ) {q : ℤ} (hq : 0 < q) : |x % q| < q := by
  rw [abs_of_nonneg (Int.emod_nonneg x hq.ne')]
  exact Int.emod_lt_of_pos x hq

/-- A remainder with the sign of the dividend is congruent to it. -/
theorem tmod_modEq (x q : ℤ) : x.tmod q ≡ x [ZMOD q] := by
  apply Int.modEq_iff_dvd.2
  rw [Int.tmod_def, sub_sub_cancel]
  exact dvd_mul_right q _

theorem abs_tmod_lt (x : ℤ) {q : ℤ} (hq : 0 < q) : |x.tmod q| < q := by
  have h₁ := Int.tmod_lt_of_pos x hq
  have h₂ := Int.lt_tmod_of_pos x hq
  exact abs_lt.2 ⟨h₂, h₁⟩

/-- Words calculate exactly up to their capacity. -/
theorem word_isExact : word.IsExact Reading.plain wordCapacity where
  zero := ⟨trivial, rfl⟩
  mul _ _ h := ⟨trivial, wrap_eq_self h⟩
  add _ _ h := ⟨trivial, wrap_eq_self h⟩
  mulAdd _ _ _ _ h := ⟨trivial, wrap_eq_self h⟩
  rem {x q} _ _ hq _ := by
    have hrem : word.rem x q = x % q := word_rem_eq x hq
    rw [hrem]
    exact ⟨trivial, Int.mod_modEq x q, abs_emod_lt x hq⟩
  mod {x _} _ _ hq _ := ⟨trivial, word_rem_eq x hq⟩

/-- Doubles calculate exactly up to their capacity. -/
theorem double_isExact : double.IsExact Reading.plain doubleCapacity where
  zero := ⟨trivial, rfl⟩
  mul _ _ h := ⟨trivial, roundInt_eq_self h⟩
  add _ _ h := ⟨trivial, roundInt_eq_self h⟩
  mulAdd _ _ _ _ h := ⟨trivial, roundInt_eq_self h⟩
  rem {x q} _ _ hq _ := ⟨trivial, tmod_modEq x q, abs_tmod_lt x hq⟩
  mod _ _ _ _ := ⟨trivial, rfl⟩

/-! ## Keeping a record -/

/-- A number of a machine and the exact results of all operations that led to it. -/
structure Traced where
  value : ℤ
  formed : List ℤ

namespace Traced

/-- A number that is given. -/
def given (v : ℤ) : Traced := ⟨v, []⟩

/-- What an operation on `x` and `y` with the given exact result leaves in a double. -/
def result (x y : Traced) (exact double : ℤ) : Traced := ⟨double, exact :: (x.formed ++ y.formed)⟩

/-- Every number formed so far is at most `capacity`. -/
def reading (capacity : ℤ) : Reading Traced := ⟨value, fun x => ∀ v ∈ x.formed, |v| ≤ capacity⟩

variable {capacity : ℤ} {x y : Traced}

theorem fits_given (v : ℤ) : (reading capacity).Fits (given v) := by
  intro w hw
  simp [given] at hw

/-- A result fits if its operands do and its exact value is within the capacity. -/
theorem fits_result (hx : (reading capacity).Fits x) (hy : (reading capacity).Fits y) {v : ℤ}
    (hv : |v| ≤ capacity) (d : ℤ) : (reading capacity).Fits (x.result y v d) := by
  intro w hw
  simp only [result, List.mem_cons, List.mem_append] at hw
  rcases hw with rfl | hw | hw
  · exact hv
  · exact hx w hw
  · exact hy w hw

end Traced

/-- A machine with a record of every exact result. A sum and the product that is added to it are
both recorded. -/
def recording (M : Machine ℤ) : Machine Traced where
  zero := .given M.zero
  mul x y := x.result y (x.value * y.value) (M.mul x.value y.value)
  add x y := x.result y (x.value + y.value) (M.add x.value y.value)
  mulAdd s x y :=
    let product := x.result y (x.value * y.value) (M.mul x.value y.value)
    s.result product (s.value + x.value * y.value) (M.mulAdd s.value x.value y.value)
  rem x q := x.result q (M.rem x.value q.value) (M.rem x.value q.value)
  mod x q := x.result q (M.mod x.value q.value) (M.mod x.value q.value)

/-- The machine `double` with a record of every exact result. -/
def traced : Machine Traced := recording double

/-- A record is kept to within the capacity as long as the machine computes exactly. -/
theorem recording_isExact {M : Machine ℤ} {capacity : ℤ} (hM : M.IsExact Reading.plain capacity) :
    (recording M).IsExact (Traced.reading capacity) capacity where
  zero := ⟨Traced.fits_given _, hM.zero.2⟩
  mul hx hy h := ⟨Traced.fits_result hx hy h _, (hM.mul trivial trivial h).2⟩
  add hx hy h := ⟨Traced.fits_result hx hy h _, (hM.add trivial trivial h).2⟩
  mulAdd hs hx hy hxy h :=
    ⟨Traced.fits_result hs (Traced.fits_result hx hy hxy _) h _,
      (hM.mulAdd trivial trivial trivial hxy h).2⟩
  rem {x q} hx hq hpos hle := by
    obtain ⟨-, hmod, hlt⟩ := hM.rem (x := x.value) (q := q.value) trivial trivial hpos hle
    exact ⟨Traced.fits_result hx hq (hlt.le.trans hle) _, hmod, hlt⟩
  mod {x q} hx hq hpos hle := by
    have hvalue : M.mod x.value q.value = x.value % q.value :=
      (hM.mod (x := x.value) (q := q.value) trivial trivial hpos hle).2
    refine ⟨Traced.fits_result hx hq ?_ _, hvalue⟩
    rw [hvalue]
    exact (abs_emod_lt x.value hpos).le.trans hle

/-- Recorded doubles calculate exactly up to their capacity, and keep their record within it. -/
theorem traced_isExact : traced.IsExact (Traced.reading doubleCapacity) doubleCapacity :=
  recording_isExact double_isExact

end Machine
end PadicLift
