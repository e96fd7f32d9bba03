import PadicLift.Proofs.Lifting.Invariant
import PadicLift.Proofs.Reconstruction.Digits
import PadicLift.Proofs.System

/-!
# The digits are the only ones

In a base `p`, prime or not, vectors of residues expand a solution of `A x = b` up to place `count`
if the number that they stand for solves the system modulo `p ^ count` (`IsExpansion`). A matrix
with an inverse modulo `p` has a determinant that is coprime to `p ^ count`. So two expansions stand
for congruent numbers, which are below `p ^ count`, and hence for the same number, which has its
digits only. The lift in exact integers finds them wherever elimination finds an inverse.
-/

namespace PadicLift

variable {n : ℕ}

namespace Reference

/-! ## Expansions -/

section Expansions

variable {A B : Mat n n} {b : Vector ℤ n} {p count : ℕ} {cs ds : List (Vector ℤ n)}

/-- Digit `t` of a list of digits, 0 past its end. -/
def digitIn (cs : List (Vector ℤ n)) (t : ℕ) : Vector ℤ n := cs.getD t (Vector.replicate n 0)

theorem map_digitIn (cs : List (Vector ℤ n)) : (List.range cs.length).map (digitIn cs) = cs := by
  refine List.ext_getElem (by simp) fun t ht ht' => ?_
  simp [digitIn, ht']

theorem digitIn_map_range {f : ℕ → Vector ℤ n} {t : ℕ} (ht : t < count) :
    digitIn ((List.range count).map f) t = f t := by
  simp [digitIn, ht]

/-- Vectors of residues modulo `p`, `count` of them, that stand for a solution of `A x = b` modulo
`p ^ count`. -/
structure IsExpansion (A : Mat n n) (b : Vector ℤ n) (p count : ℕ) (cs : List (Vector ℤ n)) :
    Prop where
  length_eq : cs.length = count
  residue : ∀ c ∈ cs, ∀ i, 0 ≤ c.get i ∧ c.get i < p
  solves : ∀ i, (A.mulVec (expansion p (digitIn cs) count)).get i ≡ b.get i [ZMOD (p : ℤ) ^ count]

/-- The digits of an expansion are reduced. -/
theorem IsExpansion.digitIn_mem_range (hcs : IsExpansion A b p count cs) {t : ℕ} (ht : t < count)
    (i : Fin n) : 0 ≤ (digitIn cs t).get i ∧ (digitIn cs t).get i < p := by
  have htcs : t < cs.length := hcs.length_eq ▸ ht
  have hmem : digitIn cs t ∈ cs := by
    rw [digitIn, List.getD_eq_getElem _ _ htcs]
    exact List.getElem_mem htcs
  exact hcs.residue _ hmem i

/-- The number that an expansion stands for is below the power of the base. -/
theorem IsExpansion.expansion_mem_range (hcs : IsExpansion A b p count cs) (i : Fin n) :
    0 ≤ (expansion p (digitIn cs) count).get i ∧
      (expansion p (digitIn cs) count).get i < (p : ℤ) ^ count := by
  rw [expansion, get_ofFn]
  exact sum_digit_mem_range fun t ht => hcs.digitIn_mem_range ht i

/-- Two expansions to the same length agree modulo the power of the base. -/
theorem IsExpansion.expansion_modEq (hbase : IsBase A B p) (hcs : IsExpansion A b p count cs)
    (hds : IsExpansion A b p count ds) (i : Fin n) :
    (expansion p (digitIn cs) count).get i ≡ (expansion p (digitIn ds) count).get i
      [ZMOD (p : ℤ) ^ count] := by
  have hdet : IsCoprime A.toMatrix.det ((p ^ count : ℕ) : ℤ) := by
    rw [Nat.cast_pow]
    exact hbase.inverse.isCoprime_det.pow_right
  have hsolves : ∀ {es : List (Vector ℤ n)}, IsExpansion A b p count es →
      ∀ i, ∑ j, A.toMatrix i j * (expansion p (digitIn es) count).get j
        ≡ b.get i [ZMOD (p ^ count : ℕ)] := by
    intro es hes i
    have hi := hes.solves i
    rw [Mat.get_mulVec] at hi
    rw [Nat.cast_pow]
    exact hi
  have hmod := Cramer.modEq_of_solves hdet (hsolves hcs) (hsolves hds) i
  rwa [Nat.cast_pow] at hmod

/-- There is no more than one expansion of a given length. -/
theorem IsExpansion.unique (hbase : IsBase A B p) (hcs : IsExpansion A b p count cs)
    (hds : IsExpansion A b p count ds) : cs = ds := by
  have hvalue : ∀ i, (expansion p (digitIn cs) count).get i
      = (expansion p (digitIn ds) count).get i := by
    intro i
    obtain ⟨hcnonneg, hclt⟩ := hcs.expansion_mem_range i
    obtain ⟨hdnonneg, hdlt⟩ := hds.expansion_mem_range i
    have hmod := (hcs.expansion_modEq hbase hds i).eq
    rwa [Int.emod_eq_of_lt hcnonneg hclt, Int.emod_eq_of_lt hdnonneg hdlt] at hmod
  have hdigits : ∀ t < count, digitIn cs t = digitIn ds t := by
    intro t ht
    refine ext_get fun i => ?_
    have hi := congrArg (lowDigits (p : ℤ) count) (hvalue i)
    rw [expansion, expansion, get_ofFn, get_ofFn,
      lowDigits_sum fun s hs => hcs.digitIn_mem_range hs i,
      lowDigits_sum fun s hs => hds.digitIn_mem_range hs i] at hi
    exact List.map_inj_left.1 hi t (List.mem_range.2 ht)
  rw [← map_digitIn cs, ← map_digitIn ds, hcs.length_eq, hds.length_eq]
  exact List.map_congr_left fun t ht => hdigits t (List.mem_range.1 ht)

/-- The exact digits expand a solution. -/
theorem IsBase.isExpansion_digitAt (hbase : IsBase A B p) (b : Vector ℤ n) (count : ℕ) :
    IsExpansion A b p count ((List.range count).map (digitAt A B p b)) := by
  refine ⟨by rw [List.length_map, List.length_range], ?_, fun i => ?_⟩
  · intro c hc i
    obtain ⟨t, -, rfl⟩ := List.mem_map.1 hc
    exact ⟨hbase.digitOf_nonneg _ i, hbase.digitOf_lt _ i⟩
  · have hvalue : expansion p (digitIn ((List.range count).map (digitAt A B p b))) count
        = expansion p (digitAt A B p b) count := by
      refine ext_get fun j => ?_
      rw [expansion, expansion, get_ofFn, get_ofFn]
      refine Finset.sum_congr rfl fun t ht => ?_
      rw [digitIn_map_range (Finset.mem_range.1 ht)]
    rw [hvalue, Mat.get_mulVec, ← hbase.sum_digitAt b i count, Int.modEq_iff_dvd]
    simp only [expansion, get_ofFn, add_sub_cancel_left]
    exact dvd_mul_right _ _

end Expansions

/-! ## Digits in one base -/

section Digits

variable {A : Mat n n} {b : Vector ℤ n} {p count : ℕ} {ds : List (Vector ℤ n)}

/-- Digits stem from an inverse. -/
theorem exists_isBase_of_digits {q : ℤ} (h : digits A b q count = .ok ds) :
    ∃ (p : ℕ) (B : Mat n n), q = p ∧ (A.reduce p).inverseMod p = .ok (.inverse B) ∧
      IsBase A B p ∧ ds = (List.range count).map (digitAt A B p b) := by
  obtain ⟨p, hp, hlift⟩ := Outcome.bind_eq_ok.1 h
  obtain ⟨htwo, hmax, hq⟩ := checkModulus_eq_ok hp
  obtain ⟨inversion, hinversion, hlift⟩ := Outcome.bind_eq_ok.1 hlift
  cases inversion with
  | singular k => cases hlift
  | inverse B =>
    have hbase : IsBase A B p := ⟨htwo, hmax, Mat.isInverse_of_inverseMod htwo hmax hinversion⟩
    refine ⟨p, B, hq.symm, hinversion, hbase, ?_⟩
    exact (Except.ok.inj ((hbase.lift_eq_ok b count).symm.trans hlift)).symm

/-- There are no digits where elimination finds a kernel or a pivot without an inverse. -/
theorem digits_eq_error (hp : 2 ≤ p) (hmax : p ≤ maxModulus) {f : Fault}
    (h : digits A b p count = .error f) :
    (∃ k, 0 < k ∧ f = .lifting (.singular p k)) ∨ f = .argument .notInvertible := by
  have hcheck := checkModulus_natCast hp hmax
  rcases Outcome.bind_eq_error.1 h with hfails | ⟨q, hq, hinvert⟩
  · cases hcheck.symm.trans hfails
  cases hcheck.symm.trans hq
  rcases Outcome.bind_eq_error.1 hinvert with hinversion | ⟨inversion, hinversion, hlift⟩
  · exact .inr (Mat.inverseMod_eq_error hinversion)
  cases inversion with
  | singular k =>
    cases hlift
    exact .inl ⟨k, Mat.pos_of_inverseMod hinversion, rfl⟩
  | inverse B =>
    have hbase : IsBase A B p := ⟨hp, hmax, Mat.isInverse_of_inverseMod hp hmax hinversion⟩
    cases (hbase.lift_eq_ok b count).symm.trans hlift

theorem length_eq_of_digits {q : ℤ} (h : digits A b q count = .ok ds) : ds.length = count := by
  obtain ⟨p, B, -, -, -, rfl⟩ := exists_isBase_of_digits h
  rw [List.length_map, List.length_range]

/-- More digits begin with the same ones. -/
theorem exists_prefix_of_digits {larger : ℕ} (h : digits A b p count = .ok ds)
    (hle : count ≤ larger) : ∃ es, digits A b p larger = .ok es ∧ ds <+: es := by
  obtain ⟨q, B, hq, hinverse, hbase, rfl⟩ := exists_isBase_of_digits h
  rw [Nat.cast_inj.1 hq]
  refine ⟨_, digits_eq_ok hbase.two_le hbase.le_max hinverse b larger, ?_⟩
  obtain ⟨k, rfl⟩ := Nat.exists_eq_add_of_le hle
  rw [List.range_add, List.map_append]
  exact List.prefix_append _ _

/-- The digits that are returned are the only expansion. -/
theorem isExpansion_iff_of_digits (h : digits A b p count = .ok ds) {cs : List (Vector ℤ n)} :
    IsExpansion A b p count cs ↔ cs = ds := by
  obtain ⟨q, B, hq, -, hbase, rfl⟩ := exists_isBase_of_digits h
  rw [Nat.cast_inj.1 hq]
  constructor
  · intro hcs
    exact hcs.unique hbase (hbase.isExpansion_digitAt b count)
  · rintro rfl
    exact hbase.isExpansion_digitAt b count

end Digits

/-! ## Digits in several bases -/

section Several

variable {A : Mat n n} {b : Vector ℤ n} {primes : List ℤ} {count : ℕ}
  {rows : List (List (Vector ℤ n))}

theorem forall₂_filterMap_digits {each : List (List (Vector ℤ n))} {t : ℕ} (ht : t < count)
    (heach : List.Forall₂ (fun q ds => digits A b q count = .ok ds) primes each) :
    List.Forall₂ (fun q c => ∃ ds, digits A b q count = .ok ds ∧ ds[t]? = some c) primes
      (each.filterMap fun ds => ds[t]?) := by
  induction heach with
  | nil => exact .nil
  | @cons q ds _ _ hds _ ih =>
    have hlength : t < ds.length := (length_eq_of_digits hds).symm ▸ ht
    have hdigit : ds[t]? = some ds[t] := List.getElem?_eq_getElem hlength
    rw [List.filterMap_cons, hdigit]
    exact .cons ⟨ds, hds, hdigit⟩ ih

/-- Row `t` consists of the digits `t` in all bases. -/
theorem forall₂_of_digitsFor (h : digitsFor A b primes count = .ok rows) {t : ℕ}
    (ht : t < rows.length) :
    List.Forall₂ (fun q c => ∃ ds, digits A b q count = .ok ds ∧ ds[t]? = some c) primes
      rows[t] := by
  obtain ⟨each, heach, hrows⟩ := Outcome.bind_eq_ok.1 h
  cases hrows
  rw [List.length_map, List.length_range] at ht
  rw [List.getElem_map, List.getElem_range]
  exact forall₂_filterMap_digits ht (Outcome.mapM_eq_ok_iff.1 heach)

theorem length_of_digitsFor (h : digitsFor A b primes count = .ok rows) : rows.length = count := by
  obtain ⟨each, -, h⟩ := Outcome.bind_eq_ok.1 h
  cases h
  rw [List.length_map, List.length_range]

/-- Digits in several bases are missing only where those in one of them are. -/
theorem exists_mem_of_digitsFor_eq_error {f : Fault} (h : digitsFor A b primes count = .error f) :
    ∃ q ∈ primes, digits A b q count = .error f := by
  rcases Outcome.bind_eq_error.1 h with heach | ⟨each, -, h⟩
  · exact Outcome.exists_mem_of_mapM_eq_error heach
  · cases h

end Several

/-! ## Nested lists -/

section Lists

variable {A : Mat n n} {b : Vector ℤ n} {right : Nested}

/-- The digits for a system in nested lists are those for its matrix and its right side. -/
theorem digitLists_ofMat (hn : 0 < n) (hright : right.isRegular = true)
    (hb : right.toList = b.toList) (q : ℤ) (count : ℕ) :
    digitLists (.ofMat A) right q count = (digits A b q count).map (List.map Vector.toList) := by
  have hvector : Nested.toVector right.toList n = b := by
    refine Vector.toList_inj.1 ?_
    rw [Nested.toList_toVector (by rw [hb, Vector.length_toList]), hb]
  have hmeet : blocksMeet (wordBlock q) n right.toList.length = true := by
    rw [hb, Vector.length_toList, blocksMeet, beq_self_eq_true, Bool.true_or]
  unfold digitLists digits
  cases hcheck : checkModulus q with
  | error f => rfl
  | ok p =>
    obtain ⟨htwo, hmax, rfl⟩ := checkModulus_eq_ok hcheck
    simp only [bind, Except.bind, invert_ofMat hn htwo hmax]
    cases hinversion : (A.reduce p).inverseMod p with
    | error f => rfl
    | ok inversion =>
      cases inversion with
      | singular k => rfl
      | inverse B =>
        simp only [Except.map, hright, hmeet, Bool.not_true, Bool.false_eq_true, and_false,
          if_false, Int.toNat_natCast, Nested.readMat_ofMat, hvector]
        cases lift A B p count b <;> rfl

/-- The same for several bases. -/
theorem digitListsFor_ofMat (hn : 0 < n) (hright : right.isRegular = true)
    (hb : right.toList = b.toList) (primes : List ℤ) (count : ℕ) :
    digitListsFor (.ofMat A) right primes count
      = (digitsFor A b primes count).map (List.map (List.map Vector.toList)) := by
  have heach : (primes.mapM fun q => digitLists (.ofMat A) right q count)
      = (primes.mapM fun q => digits A b q count).map (List.map (List.map Vector.toList)) := by
    simp only [digitLists_ofMat hn hright hb]
    exact Outcome.mapM_map _ _ _
  unfold digitListsFor digitsFor
  rw [heach]
  cases primes.mapM fun q => digits A b q count with
  | error f => rfl
  | ok each =>
    refine congrArg Except.ok ?_
    rw [List.map_map]
    refine List.map_congr_left fun t _ => ?_
    rw [Function.comp_apply, List.filterMap_map, List.map_filterMap]
    refine congrArg (fun g => each.filterMap g) (funext fun ds => ?_)
    exact List.getElem?_map

end Lists

/-- For a square matrix of integers and a modulus up to `maxModulus`, prime or not: the lift reports
a kernel or a pivot without an inverse, or else it finds the one and only expansion of a solution,
with which every longer one begins. For several moduli row `t` holds the digits `t` for each of
them. -/
theorem digits_unique (A : Mat n n) (b : Vector ℤ n) {p : ℕ} (hp : 2 ≤ p) (hmax : p ≤ maxModulus)
    (count : ℕ) :
    (∀ f, digits A b p count = .error f →
      (∃ k, 0 < k ∧ f = .lifting (.singular p k)) ∨ f = .argument .notInvertible) ∧
    (∀ ds, digits A b p count = .ok ds →
      (∀ cs, IsExpansion A b p count cs ↔ cs = ds) ∧
      ∀ larger, count ≤ larger → ∃ es, digits A b p larger = .ok es ∧ ds <+: es) ∧
    (∀ primes rows, digitsFor A b primes count = .ok rows →
      rows.length = count ∧ ∀ t (ht : t < rows.length),
        List.Forall₂ (fun q c => ∃ ds, digits A b q count = .ok ds ∧ ds[t]? = some c) primes
          rows[t]) ∧
    (∀ primes f, digitsFor A b primes count = .error f →
      ∃ q ∈ primes, digits A b q count = .error f) ∧
    ∀ right : Nested, 0 < n → right.isRegular = true → right.toList = b.toList →
      digitLists (.ofMat A) right p count = (digits A b p count).map (List.map Vector.toList) ∧
      ∀ primes, digitListsFor (.ofMat A) right primes count
        = (digitsFor A b primes count).map (List.map (List.map Vector.toList)) := by
  refine ⟨fun f h => digits_eq_error hp hmax h, ?_, ?_, ?_, ?_⟩
  · intro ds h
    exact ⟨fun cs => isExpansion_iff_of_digits h, fun larger hle => exists_prefix_of_digits h hle⟩
  · intro primes rows h
    exact ⟨length_of_digitsFor h, fun t ht => forall₂_of_digitsFor h ht⟩
  · intro primes f h
    exact exists_mem_of_digitsFor_eq_error h
  · intro right hn hright hb
    exact ⟨digitLists_ofMat hn hright hb p count,
      fun primes => digitListsFor_ofMat hn hright hb primes count⟩

/-- In base 4 the system `x + 2 y = 3`, `x + y = 5` has the digits `(3, 2)` and `(1, 3)`, which
stand for the solution `(7, -2)` modulo 16. -/
theorem digits_unique_base_four :
    IsExpansion (⟨#v[#v[1, 2], #v[1, 1]]⟩ : Mat 2 2) #v[3, 5] 4 2 [#v[3, 2], #v[1, 3]] ∧
    ∃ es, digits (⟨#v[#v[1, 2], #v[1, 1]]⟩ : Mat 2 2) #v[3, 5] (4 : ℕ) 3 = .ok es ∧
      [#v[3, 2], #v[1, 3]] <+: es := by
  have hdigits : digits (⟨#v[#v[1, 2], #v[1, 1]]⟩ : Mat 2 2) #v[3, 5] (4 : ℕ) 2
      = .ok [#v[3, 2], #v[1, 3]] := by decide +kernel
  obtain ⟨-, hok, -⟩ := digits_unique (⟨#v[#v[1, 2], #v[1, 1]]⟩ : Mat 2 2) #v[3, 5] (p := 4)
    (by decide) (by decide) 2
  obtain ⟨hunique, hprefix⟩ := hok _ hdigits
  exact ⟨(hunique _).2 rfl, hprefix 3 (by decide)⟩

end Reference
end PadicLift
