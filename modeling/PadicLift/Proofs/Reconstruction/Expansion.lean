import Mathlib.Algebra.BigOperators.Intervals
import Mathlib.Tactic.Ring
import PadicLift.Proofs.Reconstruction.Remainders
import PadicLift.Reconstruction.Expansion

/-!
# What an accumulator adds up

After `t` digits every lane holds the sum of its digits times the powers of its prime, and the power
it is known to (`Accumulator.after`). The numbers that `combined` joins are congruent to all these
sums.
-/

namespace PadicLift

variable {β : Type} {n : ℕ}

/-- The lane of a prime after the first `t` digits. -/
def Lane.after (p : ℤ) (digit : ℕ → Fin n → ℤ) (t : ℕ) : Lane :=
  ⟨p, p ^ t, List.ofFn fun i => ∑ s ∈ Finset.range t, digit s i * p ^ s⟩

/-- A lane that has taken `t` digits takes the next one. -/
theorem Lane.add_after (p : ℤ) (digit : ℕ → Fin n → ℤ) (t : ℕ) :
    (Lane.after p digit t).add (List.ofFn (digit t)) = .ok (Lane.after p digit (t + 1)) := by
  have hsum : addVectors (Lane.after p digit t).sum
      ((List.ofFn (digit t)).map (· * (Lane.after p digit t).power))
      = .ok (Lane.after p digit (t + 1)).sum := by
    unfold addVectors
    rw [if_pos]
    · refine congrArg Except.ok (List.ext_getElem ?_ fun i _ _ => ?_)
      · simp [Lane.after]
      · simp [Lane.after, Finset.sum_range_succ]
    · simp [Lane.after]
  refine Outcome.bind_eq_ok.2 ⟨_, hsum, ?_⟩
  simp only [Lane.after, pow_succ]
  rfl

namespace Accumulator

/-- The lanes of several primes after the first `t` digits. -/
def after (n : ℕ) (cs : List β) (prime : β → ℤ) (digit : β → ℕ → Fin n → ℤ) (t : ℕ) :
    Accumulator :=
  ⟨n, t, cs.map fun c => Lane.after (prime c) (digit c) t⟩

variable {cs : List β} {prime : β → ℤ} {digit : β → ℕ → Fin n → ℤ}

theorem start_eq_after : start (cs.map prime) n = after n cs prime digit 0 := by
  unfold start after
  rw [List.map_map]
  congr 1
  refine List.map_congr_left fun c _ => ?_
  simp [Lane.after, List.ofFn_const]

theorem addLanes_map {f g : β → Lane} {d : β → List ℤ} (h : ∀ c ∈ cs, (f c).add (d c) = .ok (g c)) :
    addLanes (cs.map f) (cs.map d) = (.ok (), cs.map g) := by
  induction cs with
  | nil => rfl
  | cons c rest ih =>
    rw [List.forall_mem_cons] at h
    rw [List.map_cons, List.map_cons, List.map_cons, addLanes, h.1]
    dsimp only
    rw [ih h.2]

/-- So does an accumulator. -/
theorem add_after (t : ℕ) :
    (after n cs prime digit t).add (cs.map fun c => List.ofFn (digit c t))
      = (.ok (), after n cs prime digit (t + 1)) := by
  unfold add
  rw [if_neg (by simp [after])]
  have hlanes : addLanes (after n cs prime digit t).lanes
      (cs.map fun c => List.ofFn (digit c t))
      = (.ok (), (after n cs prime digit (t + 1)).lanes) :=
    addLanes_map fun c _ => Lane.add_after (prime c) (digit c) t
  rw [hlanes]
  rfl

/-- The product of the powers in all lanes. -/
theorem modulus_after (t : ℕ) :
    (after n cs prime digit t).modulus = ((cs.map prime).foldl (· * ·) 1) ^ t := by
  unfold modulus
  rw [← List.prod_eq_foldl, ← List.prod_eq_foldl, after]
  induction cs with
  | nil => simp
  | cons c rest ih =>
    simp only [List.map_cons, List.prod_cons] at ih ⊢
    rw [mul_pow, ← ih]
    rfl

/-- The numbers that are joined are congruent to the expansions of all lanes. -/
theorem combined_after (digit : β → ℕ → Fin n → ℤ) (hne : cs ≠ []) (hpos : ∀ c ∈ cs, 0 < prime c)
    (hpair : (cs.map prime).Pairwise IsCoprime) {t : ℕ} (ht : 0 < t) :
    ∃ y : Fin n → ℤ,
      (after n cs prime digit t).combined
        = .ok (List.ofFn y, ((cs.map prime).foldl (· * ·) 1) ^ t) ∧
      ∀ i, ∀ c ∈ cs,
        y i ≡ ∑ s ∈ Finset.range t, digit c s i * prime c ^ s [ZMOD prime c ^ t] := by
  have hpowers : (cs.map fun c => prime c ^ t).Pairwise IsCoprime := by
    rw [List.pairwise_map] at hpair ⊢
    exact hpair.imp fun h => h.pow
  obtain ⟨y, hy, hmod⟩ := Remainders.combineVectors_eq_ok hne
    (fun c i => ∑ s ∈ Finset.range t, digit c s i * prime c ^ s)
    (fun c hc => pow_pos (hpos c hc) t) hpowers
  refine ⟨y, ?_, hmod⟩
  unfold combined
  rw [if_neg (by show t ≠ 0; omega)]
  refine Outcome.bind_eq_ok.2 ⟨List.ofFn y, ?_, ?_⟩
  · simp only [after, List.map_map]
    exact hy
  · rw [modulus_after]
    rfl

/-! ## Lengths -/

/-- Every lane has one number for each of `n` positions. -/
structure HasSize (n : ℕ) (acc : Accumulator) : Prop where
  size_eq : acc.size = n
  length_sum : ∀ lane ∈ acc.lanes, lane.sum.length = n

theorem hasSize_start (primes : List ℤ) (n : ℕ) : (start primes n).HasSize n := by
  refine ⟨rfl, fun lane hlane => ?_⟩
  obtain ⟨p, -, rfl⟩ := List.mem_map.1 hlane
  exact List.length_replicate

theorem length_sum_of_add {lane next : Lane} {digit : List ℤ} (h : lane.add digit = .ok next)
    (hlane : lane.sum.length = n) (hdigit : digit.length = n) : next.sum.length = n := by
  obtain ⟨sum, hsum, h⟩ := Outcome.bind_eq_ok.1 h
  cases h
  have hequal : lane.sum.length = (digit.map (· * lane.power)).length := by
    rw [List.length_map, hlane, hdigit]
  unfold addVectors at hsum
  rw [if_pos hequal] at hsum
  cases hsum
  rw [List.length_zipWith, ← hequal, min_self, hlane]

theorem length_sum_of_addLanes {lanes after : List Lane} {digits : List (List ℤ)}
    (h : addLanes lanes digits = (.ok (), after)) (hlanes : ∀ lane ∈ lanes, lane.sum.length = n)
    (hdigits : ∀ digit ∈ digits, digit.length = n) : ∀ lane ∈ after, lane.sum.length = n := by
  induction lanes generalizing digits after with
  | nil =>
    cases h
    exact hlanes
  | cons lane lanes ih =>
    cases digits with
    | nil =>
      cases h
      exact hlanes
    | cons digit digits =>
      rw [List.forall_mem_cons] at hlanes hdigits
      rw [addLanes] at h
      split at h
      · cases h
      next next hnext =>
        rw [Prod.mk.injEq] at h
        obtain ⟨hresult, rfl⟩ := h
        rw [List.forall_mem_cons]
        exact ⟨length_sum_of_add hnext hlanes.1 hdigits.1,
          ih (Prod.ext hresult rfl) hlanes.2 hdigits.2⟩

/-- Digit vectors of that length keep the size. -/
theorem HasSize.add {acc after : Accumulator} {digits : List (List ℤ)} (hacc : acc.HasSize n)
    (h : acc.add digits = (.ok (), after)) (hdigits : ∀ digit ∈ digits, digit.length = n) :
    after.HasSize n := by
  unfold Accumulator.add at h
  split at h
  · cases h
  · split at h
    · cases h
    next lanes hlanes =>
      cases h
      exact ⟨hacc.size_eq, length_sum_of_addLanes hlanes hacc.length_sum hdigits⟩

theorem HasSize.length_of_combined {acc : Accumulator} {ys : List ℤ} {m : ℤ} (hacc : acc.HasSize n)
    (h : acc.combined = .ok (ys, m)) : ys.length = n := by
  unfold combined at h
  split at h
  · cases h
    rw [List.length_replicate, hacc.size_eq]
  · obtain ⟨zs, hzs, h⟩ := Outcome.bind_eq_ok.1 h
    cases h
    refine Remainders.length_of_combineVectors hzs fun v hv => ?_
    obtain ⟨lane, hlane, rfl⟩ := List.mem_map.1 hv
    exact hacc.length_sum lane hlane

end Accumulator
end PadicLift
