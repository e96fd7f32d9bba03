import PadicLift.Lifting.Reference
import PadicLift.Proofs.Modular.Inversion
import PadicLift.Proofs.Plan

/-!
# Exact digits

For a modulus with the inverse of the matrix (`IsBase`), every residual has a digit, and what is
left when its part is taken out is divisible by the modulus. So the lift in exact integers never
stops, and it is the sequence of digits `digitAt` of the residuals `residualAt`. After `k` digits
`A (c₀ + p c₁ + … + p ^ (k - 1) c_{k - 1}) + p ^ k r_k = b`.
-/

namespace PadicLift

variable {n : ℕ}

namespace Reference

/-! ## One digit -/

/-- The digit of a residual. -/
def digitOf (B : Mat n n) (p : ℕ) (r : Vector ℤ n) : Vector ℤ n :=
  B.mulVecMod p (r.map fun v => Int.fmod v p)

/-- What is left of a residual after its digit. -/
def residualOf (A B : Mat n n) (p : ℕ) (r : Vector ℤ n) : Vector ℤ n :=
  Vector.ofFn fun i => Int.fdiv (r.get i - (A.mulVec (digitOf B p r)).get i) p

/-- The residual after `t` digits. -/
def residualAt (A B : Mat n n) (p : ℕ) (r : Vector ℤ n) (t : ℕ) : Vector ℤ n :=
  (residualOf A B p)^[t] r

/-- Digit `t`, from 0. -/
def digitAt (A B : Mat n n) (p : ℕ) (r : Vector ℤ n) (t : ℕ) : Vector ℤ n :=
  digitOf B p (residualAt A B p r t)

theorem residualAt_succ (A B : Mat n n) (p : ℕ) (r : Vector ℤ n) (t : ℕ) :
    residualAt A B p r (t + 1) = residualOf A B p (residualAt A B p r t) :=
  Function.iterate_succ_apply' _ _ _

theorem residualAt_residualOf (A B : Mat n n) (p : ℕ) (r : Vector ℤ n) (t : ℕ) :
    residualAt A B p (residualOf A B p r) t = residualAt A B p r (t + 1) :=
  (Function.iterate_succ_apply _ _ _).symm

/-- A modulus of any kind with the inverse of the matrix. -/
structure IsBase (A B : Mat n n) (p : ℕ) : Prop where
  two_le : 2 ≤ p
  le_max : p ≤ maxModulus
  inverse : A.IsInverse p B

namespace IsBase

variable {A B : Mat n n} {p : ℕ} (hbase : IsBase A B p) (r : Vector ℤ n)

include hbase

theorem pos : 0 < p := lt_of_lt_of_le Nat.two_pos hbase.two_le

/-- The digit is the residue of the inverse times the residual. -/
theorem get_digitOf (i : Fin n) :
    (digitOf B p r).get i = (∑ t, B.entry i t * (r.get t % p)) % p := by
  have hp := hbase.pos
  have hremainder : ∀ t, (r.map fun v => Int.fmod v p).get t = r.get t % p := by
    intro t
    rw [get_map, Int.fmod_eq_emod_of_nonneg _ (by omega)]
  rw [digitOf, Mat.get_mulVecMod hp hbase.le_max hbase.inverse.reduced]
  · simp only [hremainder]
  · intro t
    rw [hremainder]
    exact Machine.abs_emod_lt _ (by omega)

/-- Digits are at least 0, -/
theorem digitOf_nonneg (i : Fin n) : 0 ≤ (digitOf B p r).get i := by
  have hp := hbase.pos
  rw [hbase.get_digitOf]
  exact Int.emod_nonneg _ (by omega)

/-- and below the prime. -/
theorem digitOf_lt (i : Fin n) : (digitOf B p r).get i < p := by
  have hp := hbase.pos
  rw [hbase.get_digitOf]
  exact Int.emod_lt_of_pos _ (by omega)

/-- The digit solves the system modulo the base. -/
theorem mulVec_digitOf_modEq (i : Fin n) :
    (A.mulVec (digitOf B p r)).get i ≡ r.get i [ZMOD p] := by
  rw [← ZMod.intCast_eq_intCast_iff, Mat.get_mulVec]
  let v : Fin n → ZMod p := fun t => (r.get t : ZMod p)
  have hdigit : (fun t => ((digitOf B p r).get t : ZMod p)) = (B.modulo p).mulVec v := by
    funext t
    rw [hbase.get_digitOf, ZMod.intCast_mod]
    push_cast
    rfl
  calc ((∑ t, A.entry i t * (digitOf B p r).get t : ℤ) : ZMod p)
      = (A.modulo p).mulVec (fun t => ((digitOf B p r).get t : ZMod p)) i := by
        push_cast
        rfl
    _ = ((A.modulo p * B.modulo p).mulVec v) i := by rw [hdigit, Matrix.mulVec_mulVec]
    _ = r.get i := by rw [mul_eq_one_comm.1 hbase.inverse.mul_eq_one, Matrix.one_mulVec]

/-- Taking out a digit divides exactly. -/
theorem mul_residualOf (i : Fin n) :
    p * (residualOf A B p r).get i = r.get i - (A.mulVec (digitOf B p r)).get i := by
  have hp := hbase.pos
  rw [residualOf, get_ofFn, Int.fdiv_eq_ediv_of_nonneg _ (by omega)]
  exact Int.mul_ediv_cancel' (Int.modEq_iff_dvd.1 (hbase.mulVec_digitOf_modEq r i))

/-- A step succeeds, with the digit and the exact residual. -/
theorem step_eq_ok : step A B p r = .ok (digitOf B p r, residualOf A B p r) := by
  have hp := hbase.pos
  unfold step
  dsimp only
  rw [if_pos]
  · congr 2
    refine ext_get fun i => ?_
    rw [get_map, get_ofFn, residualOf, get_ofFn]
    rfl
  · rw [List.all_eq_true]
    intro v hv
    obtain ⟨i, rfl⟩ := mem_toList_iff.1 hv
    rw [get_ofFn, beq_iff_eq, Int.fmod_eq_emod_of_nonneg _ (by omega)]
    exact Int.emod_eq_zero_of_dvd (Int.modEq_iff_dvd.1 (hbase.mulVec_digitOf_modEq r i))

/-! ## Many digits -/

/-- So do any number of steps. -/
theorem lift_eq_ok (count : ℕ) :
    lift A B p count r = .ok ((List.range count).map (digitAt A B p r)) := by
  induction count generalizing r with
  | zero => rfl
  | succ count ih =>
    have htail : (List.range count).map (digitAt A B p (residualOf A B p r))
        = (List.range count).map (digitAt A B p r ∘ Nat.succ) := by
      refine List.map_congr_left fun t _ => ?_
      rw [digitAt, residualAt_residualOf]
      rfl
    unfold lift
    rw [hbase.step_eq_ok]
    refine Outcome.bind_eq_ok.2 ⟨_, rfl, Outcome.bind_eq_ok.2 ⟨_, ih _, ?_⟩⟩
    rw [List.range_succ_eq_map, List.map_cons, List.map_map, htail]
    rfl

/-- The digits so far and the residual make up the right side. -/
theorem sum_digitAt (i : Fin n) (k : ℕ) :
    ∑ j, A.entry i j * (∑ t ∈ Finset.range k, (digitAt A B p r t).get j * p ^ t)
      + p ^ k * (residualAt A B p r k).get i = r.get i := by
  induction k with
  | zero =>
    simp only [Finset.range_zero, Finset.sum_empty, mul_zero, Finset.sum_const_zero, zero_add,
      pow_zero, one_mul]
    rfl
  | succ k ih =>
    have hstep := hbase.mul_residualOf (residualAt A B p r k) i
    rw [Mat.get_mulVec] at hstep
    have hsplit : ∑ j, A.entry i j * (∑ t ∈ Finset.range (k + 1), (digitAt A B p r t).get j * p ^ t)
        = ∑ j, A.entry i j * (∑ t ∈ Finset.range k, (digitAt A B p r t).get j * p ^ t)
          + p ^ k * ∑ j, A.entry i j * (digitAt A B p r k).get j := by
      rw [Finset.mul_sum, ← Finset.sum_add_distrib]
      refine Finset.sum_congr rfl fun j _ => ?_
      rw [Finset.sum_range_succ]
      ring
    -- The new digit and the new residual make up the residual before.
    calc _ = ∑ j, A.entry i j * (∑ t ∈ Finset.range k, (digitAt A B p r t).get j * p ^ t)
          + p ^ k * (∑ j, A.entry i j * (digitAt A B p r k).get j
            + p * (residualOf A B p (residualAt A B p r k)).get i) := by
          rw [hsplit, residualAt_succ]
          ring
      _ = r.get i := by
          rw [hstep, digitAt, add_sub_cancel]
          exact ih

end IsBase

/-- Where elimination finds the inverse of the matrix, there are digits. -/
theorem digits_eq_ok {A B : Mat n n} {p : ℕ} (hp : 2 ≤ p) (hmax : p ≤ maxModulus)
    (hinverse : (A.reduce p).inverseMod p = .ok (.inverse B)) (r : Vector ℤ n) (count : ℕ) :
    digits A r p count = .ok ((List.range count).map (digitAt A B p r)) := by
  have hbase : IsBase A B p := ⟨hp, hmax, Mat.isInverse_of_inverseMod hp hmax hinverse⟩
  refine Outcome.bind_eq_ok.2 ⟨p, checkModulus_natCast hp hmax, ?_⟩
  exact Outcome.bind_eq_ok.2 ⟨.inverse B, hinverse, hbase.lift_eq_ok r count⟩

/-! ## Lifting primes -/

/-- A lifting prime with its inverse is a base. -/
theorem isBase_of_isFor {A B : Mat n n} {p : ℕ} (hc : (Channel.mk p B).IsFor A) : IsBase A B p :=
  ⟨hc.prime.two_le, hc.le_max, hc.inverse⟩

/-- Taking out a digit for a lifting prime divides exactly. -/
theorem mul_residualOf {A B : Mat n n} {p : ℕ} (hc : (Channel.mk p B).IsFor A) (r : Vector ℤ n)
    (i : Fin n) :
    p * (residualOf A B p r).get i = r.get i - (A.mulVec (digitOf B p r)).get i :=
  (isBase_of_isFor hc).mul_residualOf r i

/-- The digits in several bases. -/
theorem digitsFor_eq_ok {A : Mat n n} {channels : List (Channel n)}
    (hchannels : ∀ c ∈ channels, c.IsFor A) (b : Vector ℤ n) (count : ℕ) :
    digitsFor A b (channels.map fun c => (c.prime : ℤ)) count
      = .ok ((List.range count).map fun t =>
          channels.map fun c => digitAt A c.inverse c.prime b t) := by
  have heach : (channels.map fun c => (c.prime : ℤ)).mapM (fun p => digits A b p count)
      = .ok (channels.map fun c => (List.range count).map (digitAt A c.inverse c.prime b)) := by
    rw [Outcome.mapM_eq_ok_iff, List.forall₂_map_left_iff, List.forall₂_map_right_iff,
      List.forall₂_same]
    exact fun c hc => digits_eq_ok (hchannels c hc).prime.two_le (hchannels c hc).le_max
      ((hchannels c hc).inverse.inverseMod_eq_ok (hchannels c hc).prime (hchannels c hc).le_max)
      b count
  refine Outcome.bind_eq_ok.2 ⟨_, heach, congrArg Except.ok ?_⟩
  refine List.map_congr_left fun t ht => ?_
  rw [List.filterMap_map]
  refine List.filterMap_eq_map_iff_forall_eq_some.2 fun c _ => ?_
  rw [Function.comp_apply, List.getElem?_map, List.getElem?_range (List.mem_range.1 ht)]
  rfl

end Reference
end PadicLift
