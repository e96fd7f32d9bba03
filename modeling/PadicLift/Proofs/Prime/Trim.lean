import Mathlib.Data.List.DropRight
import PadicLift.Proofs.Prime.Pool

/-!
# What trimming leaves

`trim` stops dropping primes at the first one that is needed. The sum kept beside a prime is the sum
of the logarithms in front of it, so what is left covers the extent, and without its largest prime
it does not.
-/

namespace PadicLift
namespace Extent

variable {extent : Extent} {basis : List ℕ}

/-- The sum of logarithms, prime by prime. -/
theorem log2Sum_eq_foldl (basis : List ℕ) : Binary64.log2Sum basis
    = basis.foldl (fun s p => Binary64.add s (Binary64.log2Nat p)) 0 := by
  rw [Binary64.log2Sum, Binary64.sum, List.foldl_map]

/-- The sum beside a prime is that of the primes in front of it. -/
theorem snd_eq_of_withSums {sum : Rat} {front back : List (ℕ × Rat)} {x : ℕ × Rat}
    (h : withSums sum basis = front ++ x :: back) :
    x.2 = (front.map Prod.fst).foldl (fun s p => Binary64.add s (Binary64.log2Nat p)) sum := by
  induction front generalizing basis sum with
  | nil =>
    cases basis with
    | nil => cases h
    | cons p rest =>
      obtain ⟨rfl, -⟩ := List.cons.inj h
      rfl
  | cons y front ih =>
    cases basis with
    | nil => cases h
    | cons p rest =>
      obtain ⟨rfl, hrest⟩ := List.cons.inj h
      exact ih hrest

/-- The running sum at a prime says whether the primes before it cover the extent. -/
theorem isReached_eq_isCovered {front back : List (ℕ × Rat)} {x : ℕ × Rat}
    (h : withSums 0 basis = front ++ x :: back) :
    extent.isReached x.2 = extent.isCovered (front.map Prod.fst) := by
  rw [isCovered, log2Sum_eq_foldl, snd_eq_of_withSums h]

/-- How `trim` cuts a basis: behind the first prime, it keeps the primes up to the last one that is
not reached yet, and drops those behind it. -/
theorem trim_cases (extent : Extent) (basis : List ℕ) :
    ∃ kept dropped : List (ℕ × Rat), withSums 0 basis = kept ++ dropped ∧
      extent.trim basis = kept.map Prod.fst ∧
      (∀ x ∈ dropped, extent.isReached x.2 = true) ∧
      ∀ front x, kept = front ++ [x] → front ≠ [] → extent.isReached x.2 = false := by
  unfold trim
  split
  next h => exact ⟨[], [], h, rfl, by simp, by simp⟩
  next first rest h =>
    set reached : ℕ × Rat → Bool := fun x => extent.isReached x.2
    refine ⟨first :: rest.rdropWhile reached, rest.rtakeWhile reached, ?_, rfl, fun x hx => ?_,
      fun front x hx hne => ?_⟩
    · rw [h, List.cons_append, List.rdropWhile_append_rtakeWhile]
    · have hreached : reached x = true := List.mem_rtakeWhile_imp hx
      exact hreached
    · obtain ⟨y, front, rfl⟩ := List.exists_cons_of_ne_nil hne
      obtain ⟨-, hkept⟩ := List.cons.inj hx
      have hkept : rest.rdropWhile reached = front ++ [x] := hkept
      have hlast := List.rdropWhile_last_not reached rest (by rw [hkept]; simp)
      simpa only [hkept, List.getLast_concat, Bool.not_eq_true] using hlast

/-- What is left of a basis that covers the extent covers it. -/
theorem isCovered_trim (h : extent.isCovered basis = true) :
    extent.isCovered (extent.trim basis) = true := by
  obtain ⟨kept, dropped, hsplit, htrim, hreached, -⟩ := trim_cases extent basis
  rw [htrim]
  cases dropped with
  | nil =>
    rw [List.append_nil] at hsplit
    rwa [← hsplit, map_fst_withSums]
  | cons x back =>
    rw [← isReached_eq_isCovered hsplit]
    exact hreached x List.mem_cons_self

/-- No more primes can be dropped from what is left. -/
theorem isCovered_dropLast_trim (h : 1 < (extent.trim basis).length) :
    extent.isCovered (extent.trim basis).dropLast = false := by
  obtain ⟨kept, dropped, hsplit, htrim, -, hlast⟩ := trim_cases extent basis
  rw [htrim, List.length_map] at h
  have hne : kept ≠ [] := List.ne_nil_of_length_pos (by omega)
  have hkept := (List.dropLast_append_getLast hne).symm
  have hfront : kept.dropLast ≠ [] :=
    List.ne_nil_of_length_pos (by rw [List.length_dropLast]; omega)
  rw [htrim, ← List.map_dropLast]
  have hcut : withSums 0 basis = kept.dropLast ++ kept.getLast hne :: dropped := by
    rw [hsplit]
    conv_lhs => rw [hkept]
    rw [List.append_assoc, List.singleton_append]
  rw [← isReached_eq_isCovered hcut]
  exact hlast _ _ hkept hfront

end Extent

/-! ## The basis of a split -/

/-- Increasing primes that cover an extent, none of which can be dropped from the end. -/
structure IsBasisFor (extent : Extent) (basis : List ℕ) : Prop where
  increasing : basis.Pairwise (· < ·)
  prime : ∀ q ∈ basis, q.Prime
  le_max : ∀ q ∈ basis, q ≤ maxModulus
  covered : extent.isCovered basis = true
  minimal : 1 < basis.length → extent.isCovered basis.dropLast = false

namespace PrimePool

variable {pool pool' : PrimePool} {source after : PrimeSource}

/-- A split ends with a rest that covers the extent, and trims it. -/
theorem basis_eq_trim {count : ℕ} {extent : Extent} {s : Split}
    (h : pool.split count extent source = (.ok s, pool', after)) :
    s.basis = extent.trim (pool'.primes.drop count) ∧
      extent.isCovered (pool'.primes.drop count) = true := by
  obtain ⟨middle, between, -, hcovers, rfl⟩ := splitBy_eq_ok h
  obtain ⟨-, hcovered⟩ := coversBehind_eq_true.1 (done_of_drawUntil hcovers)
  exact ⟨rfl, hcovered⟩

/-- A split ends with a basis for the extent. -/
theorem isBasisFor_of_split {count : ℕ} {extent : Extent} {s : Split} (hpool : pool.IsGenuine)
    (hsource : source.IsGenuine) (h : pool.split count extent source = (.ok s, pool', after)) :
    IsBasisFor extent s.basis := by
  obtain ⟨hbasis, hcovered⟩ := basis_eq_trim h
  obtain ⟨hdrawn, -, -, hprefix⟩ := split_eq_ok hpool hsource h
  have hsublist : s.basis.Sublist pool'.primes :=
    hprefix.sublist.trans (List.drop_sublist count _)
  refine ⟨pool'.increasing.sublist hsublist, fun q hq => ?_, fun q hq => ?_, ?_, fun hlength => ?_⟩
  · exact (hdrawn.pool_genuine q (hsublist.subset hq)).1
  · exact pool'.le_max q (hsublist.subset hq)
  · rw [hbasis]
    exact Extent.isCovered_trim hcovered
  · rw [hbasis] at hlength ⊢
    exact Extent.isCovered_dropLast_trim hlength

end PrimePool
end PadicLift
