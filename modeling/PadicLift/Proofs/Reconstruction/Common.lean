import Mathlib.Algebra.GCDMonoid.Multiset
import PadicLift.Proofs.Reconstruction.Fraction

/-!
# The common form of fractions

Fractions have one common form (`Common.IsFormOf`): their denominator is the least common multiple
of the single denominators, which is the least number that makes all of them integers, and then the
numerators have no divisor in common with it. The fractions can be read off their common form, so
vectors of fractions are compared by comparing their common forms. Where the fractions were found
from residues, the numerators are the residues times the denominator.
-/

namespace PadicLift
namespace Fraction

/-- Numerators and a denominator are the common form of some fractions. -/
structure Common.IsFormOf (x : Common) (xs : List ℚ) : Prop where
  denominator_pos : 0 < x.denominator
  denominator_eq : x.denominator = (xs.map Rat.den : Multiset ℕ).lcm
  /-- The denominator is the least common one. -/
  isLeast : IsLeast {d : ℕ | 0 < d ∧ ∀ f ∈ xs, ∃ v : ℤ, f * d = v} x.denominator
  quotients_eq : (x.numerators.map fun (v : ℤ) => (v : ℚ) / x.denominator) = xs
  gcd_eq_one : Int.gcd (x.numerators : Multiset ℤ).gcd x.denominator = 1

variable {xs xs' : List ℚ}

/-! ## The denominator -/

/-- The common denominator is the least common multiple of the denominators. -/
theorem denominator_eq_lcm (xs : List ℚ) :
    (common xs).denominator = (xs.map Rat.den : Multiset ℕ).lcm := by
  apply Nat.dvd_antisymm
  · refine denominator_dvd fun f hf => Multiset.dvd_lcm ?_
    rw [Multiset.mem_coe]
    exact List.mem_map_of_mem hf
  · refine Multiset.lcm_dvd.2 fun d hd => ?_
    obtain ⟨f, hf, rfl⟩ := List.mem_map.1 (Multiset.mem_coe.1 hd)
    exact den_dvd_denominator hf

/-- A number turns a fraction into an integer only if the fraction's denominator divides it. -/
theorem den_dvd_of_mul_eq {f : ℚ} {d : ℕ} {v : ℤ} (h : f * d = v) : f.den ∣ d := by
  have hmul : f.num * d = v * f.den := by
    have hself : f * f.den = f.num := Rat.mul_den_eq_num f
    have hcast : (f.num : ℚ) * d = v * f.den := by
      rw [← hself, ← h]
      ring
    exact_mod_cast hcast
  have hdvd : (f.den : ℤ) ∣ f.num * d := ⟨v, by rw [hmul, mul_comm]⟩
  exact Int.natCast_dvd_natCast.1 (f.isCoprime_num_den.symm.dvd_of_dvd_mul_left hdvd)

/-- It is the least number that makes all fractions integers. -/
theorem isLeast_denominator (xs : List ℚ) :
    IsLeast {d : ℕ | 0 < d ∧ ∀ f ∈ xs, ∃ v : ℤ, f * d = v} (common xs).denominator := by
  refine ⟨⟨denominator_pos xs, fun f hf => ⟨numeratorOf xs f, ?_⟩⟩, fun d hd => ?_⟩
  · rw [cast_numeratorOf hf, mul_comm]
  · obtain ⟨hpos, hall⟩ := hd
    refine Nat.le_of_dvd hpos (denominator_dvd fun f hf => ?_)
    obtain ⟨v, hv⟩ := hall f hf
    exact den_dvd_of_mul_eq hv

/-! ## The numerators -/

/-- Numerators over the common denominator are the fractions. -/
theorem quotient_numeratorOf {f : ℚ} (hf : f ∈ xs) :
    (numeratorOf xs f : ℚ) / (common xs).denominator = f := by
  have hne : ((common xs).denominator : ℚ) ≠ 0 := by exact_mod_cast (denominator_pos xs).ne'
  rw [cast_numeratorOf hf, mul_div_cancel_left₀ f hne]

/-- Numerators and common denominator have no common factor. -/
theorem gcd_numerators (xs : List ℚ) :
    Int.gcd ((common xs).numerators : Multiset ℤ).gcd (common xs).denominator = 1 := by
  set g := Int.gcd ((common xs).numerators : Multiset ℤ).gcd (common xs).denominator
  have hunit : IsUnit (g : ℤ) := by
    refine isUnit_of_dvd_common (fun f hf => ?_) (Int.gcd_dvd_right _ _)
    have hmem : numeratorOf xs f ∈ ((common xs).numerators : Multiset ℤ) := by
      rw [Multiset.mem_coe, numerators_eq]
      exact List.mem_map_of_mem hf
    exact (Int.gcd_dvd_left _ _).trans (Multiset.gcd_dvd hmem)
  exact Int.isUnit_iff_natAbs_eq.1 hunit

/-- Fractions have a common form. -/
theorem isFormOf_common (xs : List ℚ) : (common xs).IsFormOf xs := by
  refine ⟨denominator_pos xs, denominator_eq_lcm xs, isLeast_denominator xs, ?_, gcd_numerators xs⟩
  rw [numerators_eq, List.map_map]
  exact (List.map_congr_left fun f hf => quotient_numeratorOf hf).trans (List.map_id xs)

/-- The common form determines the fractions. -/
theorem common_inj : common xs = common xs' ↔ xs = xs' := by
  constructor
  · intro h
    rw [← (isFormOf_common xs).quotients_eq, ← (isFormOf_common xs').quotients_eq, h]
  · rintro rfl
    rfl

/-! ## Fractions found from residues -/

section Residues

variable {ys : List ℤ} {m N D : ℤ}

/-- These fractions are found from these residues, one by one. -/
def AreFound (ys : List ℤ) (m N D : ℤ) (xs : List ℚ) : Prop :=
  List.Forall₂ (fun y f => ofResidue y m N D = .ok f) ys xs

/-- A vector of residues is a vector of fractions if every entry is. -/
theorem ofResidues_eq_ok_iff {x : Common} :
    ofResidues ys m N D = .ok x ↔ ∃ xs, AreFound ys m N D xs ∧ x = common xs := by
  rw [ofResidues, Outcome.bind_eq_ok]
  refine exists_congr fun xs => and_congr Outcome.mapM_eq_ok_iff ?_
  rw [Outcome.pure_eq_ok, eq_comm]

/-- The first residue of no fraction is the cause of a failure. -/
theorem ofResidues_eq_error_iff {f : Fault} :
    ofResidues ys m N D = .error f ↔ ∃ before y later, ys = before ++ y :: later ∧
      (∀ z ∈ before, ∃ q, ofResidue z m N D = .ok q) ∧ ofResidue y m N D = .error f := by
  rw [← Outcome.mapM_eq_error_iff, ofResidues, Outcome.bind_eq_error]
  constructor
  · rintro (h | ⟨xs, -, h⟩)
    · exact h
    · cases h
  · exact .inl

/-- A numerator over the common denominator has the residue of its fraction, as often as the
denominator says. -/
theorem numeratorOf_modEq {f : ℚ} (hf : f ∈ xs) {y : ℤ} (h : HasResidue y m N D f) :
    numeratorOf xs f ≡ (common xs).denominator * y [ZMOD m] := by
  obtain ⟨e, he⟩ := den_dvd_denominator hf
  have hquotient : (common xs).denominator / f.den = e := by
    rw [he, Nat.mul_div_cancel_left e f.den_pos]
  calc numeratorOf xs f = f.num * e := by rw [numeratorOf, hquotient]
    _ ≡ f.den * y * e [ZMOD m] := h.num_modEq.mul_right _
    _ = (common xs).denominator * y := by
      rw [he]
      push_cast
      ring

/-- Numerators are congruent to the denominator times the residues. -/
theorem AreFound.numerators_modEq (hm : 1 ≤ m) (hN : 0 ≤ N) (h : AreFound ys m N D xs) :
    List.Forall₂ (fun v y => v ≡ (common xs).denominator * y [ZMOD m])
      (common xs).numerators ys := by
  have hfound : List.Forall₂ (fun f y => ofResidue y m N D = .ok f) xs ys := h.flip
  rw [numerators_eq, List.forall₂_map_left_iff]
  have hmembers := (List.forall₂_and_left (p := (· ∈ xs)) xs ys).2 ⟨fun f hf => hf, hfound⟩
  refine hmembers.imp ?_
  rintro f y ⟨hf, hy⟩
  exact numeratorOf_modEq hf ((ofResidue_decides y D hm hN).2.1 f hy)

/-- Several residues fail exactly if one of them is the residue of no fraction, and the first of
these is named. Otherwise the answer is the common form of the fractions: it has the residues, it
shows which fractions they are, and it is the same for the same fractions only. -/
theorem ofResidues_canonical (ys : List ℤ) (D : ℤ) (hm : 1 ≤ m) (hN : 0 ≤ N) :
    ((∃ f, ofResidues ys m N D = .error f) ↔
      ∃ y ∈ ys, ofResidue y m N D = .error (.lifting (.noFraction N D y m))) ∧
    (∀ f, ofResidues ys m N D = .error f → ∃ before y later, ys = before ++ y :: later ∧
      (∀ z ∈ before, ∃ q, ofResidue z m N D = .ok q) ∧ ofResidue y m N D = .error f ∧
      f = .lifting (.noFraction N D y m)) ∧
    ∀ x, ofResidues ys m N D = .ok x → ∃ xs, AreFound ys m N D xs ∧ x.IsFormOf xs ∧
      x.numerators.length = ys.length ∧
      List.Forall₂ (fun v y => v ≡ x.denominator * y [ZMOD m]) x.numerators ys ∧
      ∀ ys' m' N' D' x' xs', ofResidues ys' m' N' D' = .ok x' → AreFound ys' m' N' D' xs' →
        (xs = xs' ↔ x = x') := by
  have hfault : ∀ {y f}, ofResidue y m N D = .error f → f = .lifting (.noFraction N D y m) := by
    intro y f hf
    rcases (ofResidue_decides y D hm hN).1 with ⟨q, hq⟩ | herror
    · rw [hf] at hq
      cases hq
    · exact Except.error.inj (hf.symm.trans herror)
  refine ⟨⟨?_, ?_⟩, ?_, ?_⟩
  · rintro ⟨f, hf⟩
    obtain ⟨before, y, later, rfl, -, hy⟩ := ofResidues_eq_error_iff.1 hf
    refine ⟨y, List.mem_append_right before List.mem_cons_self, ?_⟩
    rw [hy, hfault hy]
  · rintro ⟨y, hy, herror⟩
    cases hresult : ofResidues ys m N D with
    | error f => exact ⟨f, rfl⟩
    | ok x =>
      obtain ⟨xs, hxs, -⟩ := ofResidues_eq_ok_iff.1 hresult
      obtain ⟨q, hq⟩ := Outcome.exists_of_mapM_eq_ok (Outcome.mapM_eq_ok_iff.2 hxs) hy
      rw [herror] at hq
      cases hq
  · intro f hf
    obtain ⟨before, y, later, hys, hbefore, hy⟩ := ofResidues_eq_error_iff.1 hf
    exact ⟨before, y, later, hys, hbefore, hy, hfault hy⟩
  · intro x hx
    obtain ⟨xs, hxs, rfl⟩ := ofResidues_eq_ok_iff.1 hx
    refine ⟨xs, hxs, isFormOf_common xs, (ofResidues_shape hx).1, hxs.numerators_modEq hm hN, ?_⟩
    intro ys' m' N' D' x' xs' hx' hxs'
    -- What is found from residues is determined by them.
    obtain ⟨zs, hzs, rfl⟩ := ofResidues_eq_ok_iff.1 hx'
    have hsame : zs = xs' := Except.ok.inj
      ((Outcome.mapM_eq_ok_iff.2 hzs).symm.trans (Outcome.mapM_eq_ok_iff.2 hxs'))
    rw [hsame]
    exact common_inj.symm

/-- Modulo 1009 the residues 169, 756, 0 and 707 are those of `5 / 6`, `-3 / 4`, `0` and `7 / 10`,
whose common form is `50`, `-45`, `0` and `42` over `60`. Modulo 13 no fraction with a numerator up
to 2 and a denominator up to 3 has the residue 3. -/
theorem ofResidues_canonical_four :
    ofResidues [169, 756, 0, 707] 1009 22 22 = .ok ⟨[50, -45, 0, 42], 60⟩ ∧
    AreFound [169, 756, 0, 707] 1009 22 22 [5 / 6, -3 / 4, 0, 7 / 10] ∧
    (⟨[50, -45, 0, 42], 60⟩ : Common).IsFormOf [5 / 6, -3 / 4, 0, 7 / 10] ∧
    ∃ f, ofResidues [8, 3] 13 2 3 = .error f := by
  have hform : ofResidues [169, 756, 0, 707] 1009 22 22 = .ok ⟨[50, -45, 0, 42], 60⟩ := by
    decide +kernel
  have hnone : ofResidue 3 13 2 3 = .error (.lifting (.noFraction 2 3 3 13)) := by decide +kernel
  obtain ⟨-, -, hok⟩ := ofResidues_canonical (m := 1009) (N := 22) [169, 756, 0, 707] 22 (by decide)
    (by decide)
  obtain ⟨herror, -, -⟩ := ofResidues_canonical (m := 13) (N := 2) [8, 3] 3 (by decide) (by decide)
  obtain ⟨xs, hfound, hxs, -⟩ := hok _ hform
  have hfractions : xs = [5 / 6, -3 / 4, 0, 7 / 10] := by
    rw [← hxs.quotients_eq]
    norm_num
  rw [hfractions] at hfound hxs
  exact ⟨hform, hfound, hxs, herror.2 ⟨3, by simp, hnone⟩⟩

end Residues

end Fraction
end PadicLift
