import Mathlib.Data.Nat.Prime.Basic
import PadicLift.Proofs.Reconstruction.Calls

/-!
# Digits in and digits out

Digits below a base are read back from the number they add up to (`lowDigits_sum`). So each lane of
an accumulator stands for the digits it was given, and the joined numbers are the only ones below
the product of the powers that have the residues of all lanes. Further digits leave the residues
modulo smaller powers alone: what is joined earlier is a remainder of what is joined later.
-/

namespace PadicLift

/-! ## Numbers from digits -/

section Numbers

variable {b : ℤ} {k : ℕ} {d : ℕ → ℤ}

/-- The lowest digit split off. -/
theorem sum_succ_digit (b : ℤ) (k : ℕ) (d : ℕ → ℤ) :
    ∑ s ∈ Finset.range (k + 1), d s * b ^ s
      = d 0 + (∑ s ∈ Finset.range k, d (s + 1) * b ^ s) * b := by
  rw [Finset.sum_range_succ', Finset.sum_mul, pow_zero, mul_one, add_comm]
  refine congrArg (d 0 + ·) (Finset.sum_congr rfl fun s _ => ?_)
  rw [pow_succ, mul_assoc]

/-- Reduced digits sum up to less than the power of the base. -/
theorem sum_digit_mem_range (hd : ∀ s < k, 0 ≤ d s ∧ d s < b) :
    0 ≤ ∑ s ∈ Finset.range k, d s * b ^ s ∧ ∑ s ∈ Finset.range k, d s * b ^ s < b ^ k := by
  induction k generalizing d with
  | zero => simp
  | succ k ih =>
    obtain ⟨hnonneg, hlt⟩ := ih (d := fun s => d (s + 1)) fun s hs => hd (s + 1) (by omega)
    obtain ⟨hfirst, hfirstLt⟩ := hd 0 (by omega)
    have hb : 0 < b := by omega
    rw [sum_succ_digit, pow_succ]
    set rest := ∑ s ∈ Finset.range k, d (s + 1) * b ^ s
    constructor
    · have hmul := mul_nonneg hnonneg hb.le
      omega
    · calc d 0 + rest * b < b + rest * b := by omega
        _ = (rest + 1) * b := by ring
        _ ≤ b ^ k * b := mul_le_mul_of_nonneg_right hlt hb.le

/-- They are the lowest digits of their sum. -/
theorem lowDigits_sum (hd : ∀ s < k, 0 ≤ d s ∧ d s < b) :
    lowDigits b k (∑ s ∈ Finset.range k, d s * b ^ s) = (List.range k).map d := by
  induction k generalizing d with
  | zero => rfl
  | succ k ih =>
    obtain ⟨hfirst, hfirstLt⟩ := hd 0 (by omega)
    have hb : 0 < b := by omega
    rw [sum_succ_digit, lowDigits, Int.fmod_eq_emod_of_nonneg _ hb.le, Int.add_mul_emod_self_right,
      Int.emod_eq_of_lt hfirst hfirstLt, Int.fdiv_eq_ediv_of_nonneg _ hb.le,
      Int.add_mul_ediv_right _ _ hb.ne', Int.ediv_eq_zero_of_lt hfirst hfirstLt, zero_add,
      ih (d := fun s => d (s + 1)) fun s hs => hd (s + 1) (by omega), List.range_succ_eq_map,
      List.map_cons, List.map_map]
    rfl

/-- The digits from place `t` on change no residue modulo the `t`-th power. -/
theorem sum_digit_modEq {t : ℕ} (h : t ≤ k) :
    ∑ s ∈ Finset.range k, d s * b ^ s ≡ ∑ s ∈ Finset.range t, d s * b ^ s [ZMOD b ^ t] := by
  induction k, h using Nat.le_induction with
  | base => exact Int.ModEq.refl _
  | succ k hk ih =>
    have hlast : d k * b ^ k ≡ 0 [ZMOD b ^ t] :=
      (Int.modEq_zero_iff_dvd).2 (Dvd.dvd.mul_left (pow_dvd_pow b hk) _)
    rw [Finset.sum_range_succ]
    simpa using ih.add hlast

end Numbers

/-! ## Digits of remainders -/

section Rests

variable {b : ℤ}

/-- A number has the first digits of its remainder. -/
theorem lowDigits_emod (hb : 0 < b) (k : ℕ) (v : ℤ) :
    lowDigits b k (v % b ^ k) = lowDigits b k v := by
  induction k generalizing v with
  | zero => rfl
  | succ k ih =>
    have hfirst : v % b ^ (k + 1) % b = v % b :=
      Int.emod_emod_of_dvd v (dvd_pow_self b k.succ_ne_zero)
    have hrest : v % b ^ (k + 1) / b = v / b % b ^ k := by
      rw [pow_succ', Int.emod_def, Int.emod_def, mul_assoc, ← Int.ediv_ediv_of_nonneg hb.le,
        Int.sub_mul_ediv_left v _ hb.ne']
    rw [lowDigits, lowDigits, Int.fmod_eq_emod_of_nonneg _ hb.le,
      Int.fmod_eq_emod_of_nonneg _ hb.le, Int.fdiv_eq_ediv_of_nonneg _ hb.le,
      Int.fdiv_eq_ediv_of_nonneg _ hb.le, hfirst, hrest, ih]

/-- Fewer digits are the beginning of more. -/
theorem lowDigits_prefix {t k : ℕ} (h : t ≤ k) (v : ℤ) : lowDigits b t v <+: lowDigits b k v := by
  induction t generalizing k v with
  | zero => exact List.nil_prefix
  | succ t ih =>
    obtain ⟨k, rfl⟩ : ∃ k', k = k' + 1 := ⟨k - 1, by omega⟩
    rw [lowDigits, lowDigits, List.cons_prefix_cons]
    exact ⟨rfl, ih (by omega) _⟩

/-- With a positive base the digits are returned. -/
theorem digits_eq_ok (hb : 0 < b) (v : ℤ) (k : ℕ) : digits v b k = .ok (lowDigits b k v) := by
  unfold digits
  rw [if_neg (by omega), if_neg (by omega), Int.toNat_natCast,
    Int.fmod_eq_emod_of_nonneg _ (pow_nonneg hb.le k)]
  exact congrArg Except.ok (lowDigits_emod hb k v)

end Rests

/-! ## Runs of an accumulator -/

namespace Accumulator

/-- One vector of `n` digits for every prime. -/
def IsDigits (primes : List ℕ) (n : ℕ) (call : List (List ℤ)) : Prop :=
  List.Forall₂ (fun (p : ℕ) digit => digit.length = n ∧ ∀ c ∈ digit, 0 ≤ c ∧ c < (p : ℤ))
    primes call

/-- What a call adds for prime `j` at position `i`. -/
def digitOf (call : List (List ℤ)) (j i : ℕ) : ℤ := (call.getD j []).getD i 0

/-- What all expansions and the joined numbers are after `k` digits. -/
structure Reads (acc : Accumulator) (primes : List ℕ) (k : ℕ) (y : Fin primes.length → Fin n → ℤ)
    (joined : Fin n → ℤ) : Prop where
  expansion_eq : ∀ j : Fin primes.length,
    acc.expansion (j : ℕ) = .ok (List.ofFn (y j), ((primes[j] : ℕ) : ℤ) ^ k)
  combined_eq : acc.combined = .ok (List.ofFn joined, (primes.prod : ℤ) ^ k)

section Runs

variable {n : ℕ} {primes : List ℕ} {calls : List (List (List ℤ))}

theorem expansion_eq_ok {acc : Accumulator} {i : ℕ} (hi : i < acc.lanes.length) :
    acc.expansion i = .ok (acc.lanes[i].sum, acc.lanes[i].power) := by
  have hplace : place acc.lanes.length i = .ok ⟨i, hi⟩ := by
    have hnonneg : ¬ (i : ℤ) < 0 := by omega
    simp [place, hnonneg, hi]
  exact Outcome.bind_eq_ok.2 ⟨_, hplace, rfl⟩

/-- A call is the list of its digits. -/
theorem IsDigits.eq_map {call : List (List ℤ)} (h : IsDigits primes n call) :
    call = (List.finRange primes.length).map fun j : Fin primes.length =>
      List.ofFn fun i : Fin n => digitOf call j i := by
  refine List.ext_getElem ?_ fun j hj _ => ?_
  · rw [List.length_map, List.length_finRange, h.length_eq]
  · have hlength := (h.get (h.length_eq ▸ hj) hj).1
    rw [List.get_eq_getElem] at hlength
    rw [List.getElem_map, List.getElem_finRange]
    refine List.ext_getElem ?_ fun i hi _ => ?_
    · rw [List.length_ofFn, hlength]
    · simp [digitOf, hj, hi]

theorem IsDigits.digitOf_mem_range {call : List (List ℤ)} (h : IsDigits primes n call)
    (j : Fin primes.length) (i : Fin n) :
    0 ≤ digitOf call j i ∧ digitOf call j i < ((primes[j] : ℕ) : ℤ) := by
  have hj : (j : ℕ) < call.length := h.length_eq ▸ j.isLt
  obtain ⟨hlength, hrange⟩ := h.get j.isLt hj
  rw [List.get_eq_getElem] at hlength hrange
  have hi : (i : ℕ) < call[(j : ℕ)].length := hlength ▸ i.isLt
  have hdigit : digitOf call j i = call[(j : ℕ)][(i : ℕ)] := by simp [digitOf, hj, hi]
  rw [hdigit]
  exact hrange _ (List.getElem_mem hi)

/-- The digits that some calls add, by their number. -/
def digitsOf (calls : List (List (List ℤ))) (j : Fin primes.length) (t : ℕ) (i : Fin n) : ℤ :=
  digitOf (calls.getD t []) j i

theorem digitsOf_eq {t : ℕ} (ht : t < calls.length) (j : Fin primes.length) (i : Fin n) :
    digitsOf calls j t i = digitOf calls[t] j i := by
  simp [digitsOf, ht]

/-- A call with a vector of reduced digits leads from `t` to `t + 1` vectors. -/
theorem add_digits (hcalls : ∀ call ∈ calls, IsDigits primes n call) {t : ℕ}
    (ht : t < calls.length) :
    (after n (List.finRange primes.length) (fun j => ((primes[j] : ℕ) : ℤ)) (digitsOf calls) t).add
        calls[t]
      = (.ok (), after n (List.finRange primes.length) (fun j => ((primes[j] : ℕ) : ℤ))
          (digitsOf calls) (t + 1)) := by
  have hcall : calls[t] = (List.finRange primes.length).map fun j : Fin primes.length =>
      List.ofFn fun i : Fin n => digitsOf calls j t i := by
    rw [(hcalls calls[t] (List.getElem_mem ht)).eq_map]
    simp only [digitsOf_eq ht]
  rw [hcall]
  exact add_after t

/-- The accumulator after the first `t` calls. -/
theorem addAll_take (hcalls : ∀ call ∈ calls, IsDigits primes n call) {t : ℕ}
    (ht : t ≤ calls.length) :
    (start (primes.map Nat.cast) n).addAll (calls.take t)
      = after n (List.finRange primes.length) (fun j => ((primes[j] : ℕ) : ℤ))
          (digitsOf calls) t := by
  induction t with
  | zero =>
    have hprimes : (List.finRange primes.length).map (fun j => ((primes[j] : ℕ) : ℤ))
        = primes.map Nat.cast := by
      conv_rhs => rw [← List.map_getElem_finRange primes, List.map_map]
      rfl
    rw [← start_eq_after, hprimes]
    rfl
  | succ t ih =>
    rw [List.take_succ_eq_append_getElem ht, addAll_concat, ih (by omega), add_digits hcalls ht]

/-- No call with digits fails. -/
theorem add_fst_eq_ok (hcalls : ∀ call ∈ calls, IsDigits primes n call)
    {front : List (List (List ℤ))} {call : List (List ℤ)} (h : front ++ [call] <+: calls) :
    (((start (primes.map Nat.cast) n).addAll front).add call).1 = .ok () := by
  obtain ⟨rest, rfl⟩ := h
  have hlength : front.length < (front ++ [call] ++ rest).length := by simp
  have hadd := add_digits hcalls hlength
  rw [← addAll_take hcalls hlength.le] at hadd
  simp only [List.append_assoc, List.singleton_append, List.take_left,
    List.getElem_append_right le_rfl, Nat.sub_self, List.getElem_cons_zero] at hadd
  rw [hadd]

/-! ## What is joined -/

/-- Joined numbers lie below the product of the powers. -/
theorem IsFor.mem_range_of_combined {acc : Accumulator} {ps ys : List ℤ} {m : ℤ}
    (hacc : acc.IsFor ps) (h : acc.combined = .ok (ys, m)) : ∀ y ∈ ys, 0 ≤ y ∧ y < m := by
  unfold combined at h
  split at h
  · cases h
    intro y hy
    rw [List.eq_of_mem_replicate hy]
    decide
  · obtain ⟨zs, hzs, h⟩ := Outcome.bind_eq_ok.1 h
    cases h
    unfold modulus
    rw [← List.prod_eq_foldl]
    refine Remainders.combineVectors_mem_range hzs (by rw [List.length_map, List.length_map]) ?_
    intro m hm
    obtain ⟨lane, hlane, rfl⟩ := List.mem_map.1 hm
    exact hacc.power_pos lane hlane

theorem prod_cast_eq (primes : List ℕ) :
    ∏ j : Fin primes.length, ((primes[j] : ℕ) : ℤ) = (primes.prod : ℤ) := by
  rw [← Nat.cast_prod]
  exact congrArg Nat.cast (Fin.prod_univ_getElem primes)

/-- Numbers below the product of the powers are equal if they have the same residues. -/
theorem eq_of_modEq_pow (hcoprime : Pairwise fun i j : Fin primes.length =>
      IsCoprime ((primes[i] : ℕ) : ℤ) ((primes[j] : ℕ) : ℤ)) {k : ℕ} {y z : ℤ}
    (hy : 0 ≤ y ∧ y < (primes.prod : ℤ) ^ k) (hz : 0 ≤ z ∧ z < (primes.prod : ℤ) ^ k)
    (h : ∀ j : Fin primes.length, z ≡ y [ZMOD ((primes[j] : ℕ) : ℤ) ^ k]) : z = y := by
  have hdvd : (primes.prod : ℤ) ^ k ∣ y - z := by
    rw [← prod_cast_eq, ← Finset.prod_pow]
    refine Finset.prod_dvd_of_coprime ?_ fun j _ => (h j).dvd
    intro i _ j _ hij
    exact (hcoprime hij).pow
  have hmod : z ≡ y [ZMOD (primes.prod : ℤ) ^ k] := Int.modEq_iff_dvd.2 hdvd
  rwa [Int.ModEq, Int.emod_eq_of_lt hz.1 hz.2, Int.emod_eq_of_lt hy.1 hy.2] at hmod

section Prime

variable (hprime : ∀ p ∈ primes, p.Prime) (hnodup : primes.Nodup)
include hprime hnodup

theorem pairwise_isCoprime : Pairwise fun i j : Fin primes.length =>
    IsCoprime ((primes[i] : ℕ) : ℤ) ((primes[j] : ℕ) : ℤ) := by
  intro i j hij
  refine Nat.isCoprime_iff_coprime.2 ?_
  refine (Nat.coprime_primes (hprime _ (List.getElem_mem _)) (hprime _ (List.getElem_mem _))).2 ?_
  exact fun heq => hij (Fin.ext (hnodup.getElem_inj_iff.1 heq))

/-- After some calls the joined numbers exist, and have the residues that the digits stand for. -/
theorem exists_combined (hne : primes ≠ []) (digit : Fin primes.length → ℕ → Fin n → ℤ) (t : ℕ) :
    ∃ joined : Fin n → ℤ,
      (after n (List.finRange primes.length) (fun j => ((primes[j] : ℕ) : ℤ)) digit t).combined
        = .ok (List.ofFn joined, (primes.prod : ℤ) ^ t) ∧
      ∀ i (j : Fin primes.length),
        joined i ≡ ∑ s ∈ Finset.range t, digit j s i * ((primes[j] : ℕ) : ℤ) ^ s
          [ZMOD ((primes[j] : ℕ) : ℤ) ^ t] := by
  rcases Nat.eq_zero_or_pos t with rfl | ht
  · refine ⟨fun _ => 0, ?_, fun i j => ?_⟩
    · rw [List.ofFn_const, pow_zero]
      rfl
    · rw [pow_zero]
      exact Int.modEq_one
  · have hprod : ((List.finRange primes.length).map
        fun j => ((primes[j] : ℕ) : ℤ)).foldl (· * ·) 1 = (primes.prod : ℤ) := by
      rw [← List.prod_eq_foldl, ← List.ofFn_eq_map, List.prod_ofFn, prod_cast_eq]
    have hpair : ((List.finRange primes.length).map
        fun j => ((primes[j] : ℕ) : ℤ)).Pairwise IsCoprime := by
      rw [List.pairwise_map]
      exact (List.nodup_finRange _).imp fun hij => pairwise_isCoprime hprime hnodup hij
    have hpos : ∀ j ∈ List.finRange primes.length, 0 < ((primes[j] : ℕ) : ℤ) := fun j _ =>
      Nat.cast_pos.2 (hprime _ (List.getElem_mem j.isLt)).pos
    obtain ⟨joined, hjoined, hmod⟩ := combined_after digit (by simpa using hne) hpos hpair ht
    rw [hprod] at hjoined
    exact ⟨joined, hjoined, fun i j => hmod i j (List.mem_finRange j)⟩

/-- After some calls the expansions are the numbers that the digits stand for, and the joined
numbers are the only ones in their range with the same residues. -/
theorem exists_reads (hne : primes ≠ []) {calls : List (List (List ℤ))}
    (hcalls : ∀ call ∈ calls, IsDigits primes n call) {t : ℕ} (ht : t ≤ calls.length) :
    ∃ joined, Reads ((start (primes.map Nat.cast) n).addAll (calls.take t)) primes t
        (fun j i => ∑ s ∈ Finset.range t, digitsOf calls j s i * ((primes[j] : ℕ) : ℤ) ^ s)
        joined ∧
      ∀ (i : Fin n) (z : ℤ), z = joined i ↔ 0 ≤ z ∧ z < (primes.prod : ℤ) ^ t ∧
        ∀ j : Fin primes.length,
          z ≡ ∑ s ∈ Finset.range t, digitsOf calls j s i * ((primes[j] : ℕ) : ℤ) ^ s
            [ZMOD ((primes[j] : ℕ) : ℤ) ^ t] := by
  obtain ⟨joined, hjoined, hmod⟩ := exists_combined hprime hnodup hne (digitsOf calls) t
  have hfor : ((start (primes.map Nat.cast) n).addAll (calls.take t)).IsFor
      (primes.map Nat.cast) := by
    refine isFor_addAll ?_ n _
    intro p hp
    obtain ⟨q, hq, rfl⟩ := List.mem_map.1 hp
    exact_mod_cast (hprime q hq).two_le
  rw [addAll_take hcalls ht] at hfor ⊢
  -- The range and the residues determine the joined numbers.
  have hrange : ∀ i, 0 ≤ joined i ∧ joined i < (primes.prod : ℤ) ^ t := fun i =>
    hfor.mem_range_of_combined hjoined _ (List.mem_ofFn.2 ⟨i, rfl⟩)
  refine ⟨joined, ⟨?_, hjoined⟩, fun i z => ⟨?_, ?_⟩⟩
  · intro j
    rw [expansion_eq_ok (by simp [after])]
    simp [after, Lane.after]
  · rintro rfl
    exact ⟨(hrange i).1, (hrange i).2, hmod i⟩
  · rintro ⟨hnonneg, hlt, hresidues⟩
    exact eq_of_modEq_pow (pairwise_isCoprime hprime hnodup) (hrange i) ⟨hnonneg, hlt⟩ fun j =>
      (hresidues j).trans (hmod i j).symm

/-- What is joined earlier is a remainder of what is joined later. -/
theorem joined_eq_emod {y y' : Fin primes.length → ℤ} {t k : ℕ} {earlier later : ℤ} (hle : t ≤ k)
    (hstable : ∀ j : Fin primes.length, y' j ≡ y j [ZMOD ((primes[j] : ℕ) : ℤ) ^ t])
    (hearlier : 0 ≤ earlier ∧ earlier < (primes.prod : ℤ) ^ t ∧
      ∀ j : Fin primes.length, earlier ≡ y j [ZMOD ((primes[j] : ℕ) : ℤ) ^ t])
    (hlater : ∀ j : Fin primes.length, later ≡ y' j [ZMOD ((primes[j] : ℕ) : ℤ) ^ k]) :
    earlier = later % (primes.prod : ℤ) ^ t := by
  have hpos : 0 < (primes.prod : ℤ) ^ t := hearlier.1.trans_lt hearlier.2.1
  symm
  refine eq_of_modEq_pow (pairwise_isCoprime hprime hnodup) ⟨hearlier.1, hearlier.2.1⟩
    ⟨Int.emod_nonneg _ hpos.ne', Int.emod_lt_of_pos _ hpos⟩ fun j => ?_
  have hpow : ((primes[j] : ℕ) : ℤ) ^ t ∣ (primes.prod : ℤ) ^ t :=
    pow_dvd_pow_of_dvd (Int.natCast_dvd_natCast.2 (List.dvd_prod (List.getElem_mem j.isLt))) t
  calc later % (primes.prod : ℤ) ^ t
      ≡ later [ZMOD ((primes[j] : ℕ) : ℤ) ^ t] := (Int.mod_modEq _ _).of_dvd hpow
    _ ≡ y' j [ZMOD ((primes[j] : ℕ) : ℤ) ^ t] := (hlater j).of_dvd (pow_dvd_pow _ hle)
    _ ≡ y j [ZMOD ((primes[j] : ℕ) : ℤ) ^ t] := hstable j
    _ ≡ earlier [ZMOD ((primes[j] : ℕ) : ℤ) ^ t] := (hearlier.2.2 j).symm

end Prime

/-- What an accumulator reads after any number of calls with digits of its primes: expansions whose
digits are those of the calls, and the only numbers below the power of the product of all primes
with the residues of the expansions. What it read after some of the calls are remainders of this, so
their digits in the base of the product come first. -/
theorem reads_digits_of_calls (hprime : ∀ p ∈ primes, p.Prime) (hnodup : primes.Nodup)
    (hne : primes ≠ []) (hcalls : ∀ call ∈ calls, IsDigits primes n call) :
    (∀ front call, front ++ [call] <+: calls →
      (((start (primes.map Nat.cast) n).addAll front).add call).1 = .ok ()) ∧
    ∃ y joined,
      Reads ((start (primes.map Nat.cast) n).addAll calls) primes calls.length y joined ∧
      (∀ (j : Fin primes.length) (i : Fin n),
        0 ≤ y j i ∧ y j i < ((primes[j] : ℕ) : ℤ) ^ calls.length ∧
        digits (y j i) (primes[j] : ℕ) calls.length
          = .ok (calls.map fun call => digitOf call j i)) ∧
      (∀ i z, z = joined i ↔ 0 ≤ z ∧ z < (primes.prod : ℤ) ^ calls.length ∧
        ∀ j : Fin primes.length, z ≡ y j i [ZMOD ((primes[j] : ℕ) : ℤ) ^ calls.length]) ∧
      ∀ front, front <+: calls → ∃ y' joined',
        Reads ((start (primes.map Nat.cast) n).addAll front) primes front.length y' joined' ∧
        ∀ i, joined' i = joined i % (primes.prod : ℤ) ^ front.length ∧
          ∃ first all, digits (joined' i) primes.prod front.length = .ok first ∧
            digits (joined i) primes.prod calls.length = .ok all ∧ first <+: all := by
  have hrange : ∀ (j : Fin primes.length) (i : Fin n), ∀ s < calls.length,
      0 ≤ digitsOf calls j s i ∧ digitsOf calls j s i < ((primes[j] : ℕ) : ℤ) := by
    intro j i s hs
    rw [digitsOf_eq hs]
    exact (hcalls calls[s] (List.getElem_mem hs)).digitOf_mem_range j i
  have hpos : ∀ p ∈ primes, 0 < p := fun p hp => (hprime p hp).pos
  have hprod : 0 < (primes.prod : ℤ) := Nat.cast_pos.2 (List.prod_pos hpos)
  obtain ⟨joined, hreads, hjoined⟩ := exists_reads hprime hnodup hne hcalls le_rfl
  rw [List.take_length] at hreads
  refine ⟨fun front call => add_fst_eq_ok hcalls, _, joined, hreads, fun j i => ?_, hjoined,
    fun front hfront => ?_⟩
  · obtain ⟨hnonneg, hlt⟩ := sum_digit_mem_range (hrange j i)
    have hprime : 0 < ((primes[j] : ℕ) : ℤ) := Nat.cast_pos.2 (hpos _ (List.getElem_mem j.isLt))
    refine ⟨hnonneg, hlt, ?_⟩
    rw [digits_eq_ok hprime, lowDigits_sum (hrange j i)]
    refine congrArg Except.ok (List.ext_getElem (by simp) fun s hs _ => ?_)
    rw [List.length_map, List.length_range] at hs
    rw [List.getElem_map, List.getElem_range, List.getElem_map, digitsOf_eq hs]
  · -- What is joined earlier is a remainder of what is joined later, so it has the lowest digits.
    have hle := hfront.length_le
    obtain ⟨joined', hreads', hjoined'⟩ := exists_reads hprime hnodup hne hcalls hle
    rw [← List.prefix_iff_eq_take.1 hfront] at hreads'
    refine ⟨_, joined', hreads', fun i => ?_⟩
    have hemod : joined' i = joined i % (primes.prod : ℤ) ^ front.length :=
      joined_eq_emod hprime hnodup hle (fun j => sum_digit_modEq hle) ((hjoined' i _).1 rfl)
        ((hjoined i _).1 rfl).2.2
    refine ⟨hemod, _, _, digits_eq_ok hprod _ _, digits_eq_ok hprod _ _, ?_⟩
    rw [hemod, lowDigits_emod hprod]
    exact lowDigits_prefix hle _

/-- Two calls for the primes 5 and 7: `1 + 4 * 5` and `3 + 6 * 7` are the residues of 1221. -/
theorem reads_digits_of_calls_five_seven :
    (∀ p ∈ [5, 7], p.Prime) ∧ [5, 7].Nodup ∧ [5, 7] ≠ [] ∧
      (∀ call ∈ [[[1, 2], [3, 4]], [[4, 0], [6, 1]]], IsDigits [5, 7] 2 call) ∧
      ∃ (y : Fin 2 → Fin 2 → ℤ) (joined : Fin 2 → ℤ),
        Reads ((start [5, 7] 2).addAll [[[1, 2], [3, 4]], [[4, 0], [6, 1]]]) [5, 7] 2 y joined ∧
        y 0 0 = 21 ∧ y 1 0 = 45 ∧ joined 0 = 1221 := by
  have hprime : ∀ p ∈ [5, 7], p.Prime := by decide
  have hcalls : ∀ call ∈ [[[1, 2], [3, 4]], [[4, 0], [6, 1]]], IsDigits [5, 7] 2 call := by
    unfold IsDigits
    decide
  obtain ⟨-, y, joined, hreads, -, hjoined, -⟩ :=
    reads_digits_of_calls hprime (by decide) (by decide) hcalls
  have hfive : y 0 0 = 21 ∧ y 0 1 = 2 := by
    have hrun : ((start [5, 7] 2).addAll [[[1, 2], [3, 4]], [[4, 0], [6, 1]]]).expansion 0
        = .ok ([21, 2], 25) := rfl
    have hexpansion := (hreads.expansion_eq 0).symm.trans hrun
    simpa using (Prod.mk.inj (Except.ok.inj hexpansion)).1
  have hseven : y 1 0 = 45 ∧ y 1 1 = 11 := by
    have hrun : ((start [5, 7] 2).addAll [[[1, 2], [3, 4]], [[4, 0], [6, 1]]]).expansion 1
        = .ok ([45, 11], 49) := rfl
    have hexpansion := (hreads.expansion_eq 1).symm.trans hrun
    simpa using (Prod.mk.inj (Except.ok.inj hexpansion)).1
  have hfirst : joined 0 = 1221 := by
    refine ((hjoined 0 1221).2 ⟨by decide, by decide, Fin.forall_fin_two.2 ⟨?_, ?_⟩⟩).symm
    · rw [hfive.1]
      decide
    · rw [hseven.1]
      decide
  exact ⟨hprime, by decide, by decide, hcalls, y, joined, hreads, hfive.1, hseven.1, hfirst⟩

end Runs

end Accumulator
end PadicLift
