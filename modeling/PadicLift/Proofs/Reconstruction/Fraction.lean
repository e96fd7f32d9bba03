import Mathlib.Algebra.GCDMonoid.Nat
import Mathlib.Algebra.Order.Ring.Abs
import Mathlib.Data.Int.ModEq
import Mathlib.Data.Rat.Lemmas
import Mathlib.RingTheory.Coprime.Lemmas
import Mathlib.RingTheory.Int.Basic
import Mathlib.Tactic.Linarith
import Mathlib.Tactic.Ring
import PadicLift.Proofs.Outcome
import PadicLift.Reconstruction.Fraction

/-!
# Fractions are found

Two consecutive remainders of Euclid's algorithm, each with its coefficient, are a basis of all
pairs `(n, d)` with `n ≡ d y` modulo `m` (`Remaining`). Their coefficients have opposite signs, so a
pair within the bounds that used the larger remainder would make `m` at most `2 N D`. Hence a
fraction within the bounds is a multiple of the first small remainder with its coefficient, and as
it is in lowest terms it is that pair, up to the sign. Conversely every coefficient turns `y` into
its remainder, so whatever is returned has the residue `y` (`HasResidue`).
-/

namespace PadicLift
namespace Fraction

/-! ## Euclid's algorithm -/

/-- The state of the algorithm for the modulus `m` while it looks for `n / d`: the remainders do not
increase, the coefficients have opposite signs, which `s` tells apart, and `(n, d)` is a combination
of both pairs. -/
structure Remaining (m n d r₀ r₁ t₀ t₁ s : ℤ) : Prop where
  nonneg : 0 ≤ r₁
  sign : s = 1 ∨ s = -1
  coefficient_nonneg : 0 ≤ s * t₁
  coefficient_nonpos : s * t₀ ≤ 0
  modulus_eq : r₀ * (s * t₁) + r₁ * -(s * t₀) = m
  combination : ∃ a b, n = a * r₀ + b * r₁ ∧ d = a * t₀ + b * t₁

variable {m n d r₀ r₁ t₀ t₁ s bound : ℤ}

/-- The invariant holds before the first division. -/
theorem Remaining.start {y : ℤ} (hm : 0 < m) (h : d * y ≡ n [ZMOD m]) :
    Remaining m n d m (Int.fmod y m) 0 1 1 := by
  rw [Int.fmod_eq_emod_of_nonneg _ hm.le]
  have hreduced : d * (y % m) ≡ n [ZMOD m] := ((Int.mod_modEq y m).mul_left d).trans h
  obtain ⟨a, ha⟩ := Int.modEq_iff_dvd.1 hreduced
  refine ⟨Int.emod_nonneg y hm.ne', .inl rfl, by omega, by omega, by ring, a, d, ?_, by ring⟩
  linarith

/-- One division of the algorithm. -/
theorem Remaining.step (h : Remaining m n d r₀ r₁ t₀ t₁ s) (hr₀ : 0 ≤ r₀) (hr₁ : 0 < r₁) :
    Remaining m n d r₁ (Int.fmod r₀ r₁) t₁ (t₀ - Int.fdiv r₀ r₁ * t₁) (-s) := by
  rw [Int.fmod_eq_emod_of_nonneg _ hr₁.le, Int.fdiv_eq_ediv_of_nonneg _ hr₁.le, Int.emod_def]
  set q := r₀ / r₁
  have hq : 0 ≤ q := Int.ediv_nonneg hr₀ hr₁.le
  have hqt := mul_nonneg hq h.coefficient_nonneg
  have hnonneg : 0 ≤ r₀ - r₁ * q := by
    rw [← Int.emod_def]
    exact Int.emod_nonneg r₀ hr₁.ne'
  refine ⟨hnonneg, ?_, ?_, ?_, ?_, ?_⟩
  · rcases h.sign with rfl | rfl
    · exact .inr rfl
    · exact .inl (neg_neg 1)
  · have := h.coefficient_nonpos
    linarith
  · have := h.coefficient_nonneg
    linarith
  · rw [← h.modulus_eq]
    ring
  · obtain ⟨a, b, hn, hd⟩ := h.combination
    exact ⟨b + a * q, a, by rw [hn]; ring, by rw [hd]; ring⟩

/-- What every division of the algorithm keeps holds at its end: at the first remainder that is at
most the bound. There is one before anything is divided by 0. -/
theorem exists_firstSmall (I : ℤ → ℤ → ℤ → ℤ → Prop) (hbound : 0 ≤ bound)
    (hstep : ∀ r₀ r₁ t₀ t₁, bound < r₁ → I r₀ r₁ t₀ t₁ →
      I r₁ (Int.fmod r₀ r₁) t₁ (t₀ - Int.fdiv r₀ r₁ * t₁))
    (h : I r₀ r₁ t₀ t₁) : ∃ r₀' r₁' t₀' t₁', firstSmall bound r₀ r₁ t₀ t₁ = .ok (r₁', t₁') ∧
      I r₀' r₁' t₀' t₁' ∧ r₁' ≤ bound := by
  fun_induction firstSmall bound r₀ r₁ t₀ t₁ with
  | case1 r₀ r₁ t₀ t₁ hsmall => exact ⟨r₀, r₁, t₀, t₁, rfl, h, hsmall⟩
  | case2 r₀ t₀ t₁ hlarge => exact absurd hbound hlarge
  | case3 r₀ r₁ t₀ t₁ hlarge _ ih => exact ih (hstep r₀ r₁ t₀ t₁ (not_le.1 hlarge) h)

/-- A search for `n / d` ends with the first remainder that is at most the bound. -/
theorem firstSmall_eq_ok (hbound : 0 ≤ bound) (h : Remaining m n d r₀ r₁ t₀ t₁ s)
    (hr₀ : bound < r₀) : ∃ r₀' r₁' t₀' t₁' s', firstSmall bound r₀ r₁ t₀ t₁ = .ok (r₁', t₁') ∧
      Remaining m n d r₀' r₁' t₀' t₁' s' ∧ bound < r₀' ∧ r₁' ≤ bound := by
  obtain ⟨r₀', r₁', t₀', t₁', hok, ⟨⟨s', hremaining⟩, hlarge⟩, hsmall⟩ := exists_firstSmall
    (fun r₀ r₁ t₀ t₁ => (∃ s, Remaining m n d r₀ r₁ t₀ t₁ s) ∧ bound < r₀) hbound (by
      rintro r₀ r₁ t₀ t₁ hr₁ ⟨⟨s, hs⟩, hr₀⟩
      exact ⟨⟨-s, hs.step (by omega) (by omega)⟩, hr₁⟩)
    ⟨⟨s, h⟩, hr₀⟩
  exact ⟨r₀', r₁', t₀', t₁', s', hok, hremaining, hlarge, hsmall⟩

/-! ## The first small remainder -/

/-- The modulus is small if some pair within the bounds uses the larger remainder. -/
theorem modulus_le {N D T₀ T₁ a c : ℤ} (hr₀ : 0 ≤ r₀) (hr₁ : 0 ≤ r₁) (hr₁N : r₁ ≤ N)
    (hT₀ : 0 ≤ T₀) (hT₁ : 0 ≤ T₁) (ha : 1 ≤ a) (hc : 1 ≤ c) (hn : a * r₀ - c * r₁ ≤ N)
    (hd : a * T₀ + c * T₁ ≤ D) : r₀ * T₁ + r₁ * T₀ ≤ 2 * N * D := by
  have hN : 0 ≤ N := hr₁.trans hr₁N
  have hcT : T₁ ≤ c * T₁ := le_mul_of_one_le_left hT₁ hc
  have haT : T₀ ≤ a * T₀ := le_mul_of_one_le_left hT₀ ha
  have har : r₀ ≤ a * r₀ := le_mul_of_one_le_left hr₀ ha
  calc r₀ * T₁ + r₁ * T₀ ≤ (N + c * r₁) * T₁ + r₁ * T₀ :=
        add_le_add_left (mul_le_mul_of_nonneg_right (by linarith) hT₁) _
    _ = N * T₁ + r₁ * (c * T₁ + T₀) := by ring
    _ ≤ N * D + N * D := by
        refine add_le_add (mul_le_mul_of_nonneg_left (by linarith) hN) ?_
        exact mul_le_mul hr₁N (by linarith) (by linarith) hN
    _ = 2 * N * D := by ring

theorem Remaining.not_pos (h : Remaining m n d r₀ r₁ t₀ t₁ s) {N D : ℤ} (hm : 2 * N * D < m)
    (hr₀ : N < r₀) (hr₁ : r₁ ≤ N) {a b : ℤ} (hn : |a * r₀ + b * r₁| ≤ N)
    (hd : |a * t₀ + b * t₁| ≤ D) : ¬ 0 < a := by
  intro ha
  have hr₁nonneg := h.nonneg
  have har : r₀ ≤ a * r₀ := le_mul_of_one_le_left (by omega) ha
  -- A combination with `0 ≤ b` would be at least the larger remainder, which is past the bound.
  have hb : b < 0 := by
    by_contra hb
    have := mul_nonneg (not_lt.1 hb) hr₁nonneg
    have := le_of_abs_le hn
    omega
  have hcoefficients : a * -(s * t₀) + -b * (s * t₁) ≤ D := by
    have hsign : |s| = 1 := by
      rcases h.sign with rfl | rfl
      · rfl
      · rfl
    calc a * -(s * t₀) + -b * (s * t₁) = -(s * (a * t₀ + b * t₁)) := by ring
      _ ≤ |s * (a * t₀ + b * t₁)| := neg_le_abs _
      _ = |a * t₀ + b * t₁| := by rw [abs_mul, hsign, one_mul]
      _ ≤ D := hd
  have hsum : a * r₀ - -b * r₁ ≤ N := by
    have := le_of_abs_le hn
    linarith
  have hle := modulus_le (by omega) hr₁nonneg hr₁ (neg_nonneg.2 h.coefficient_nonpos)
    h.coefficient_nonneg ha (by omega) hsum hcoefficients
  rw [h.modulus_eq] at hle
  omega

/-- A pair within the bounds is a multiple of the first small remainder with its coefficient. -/
theorem Remaining.eq_mul (h : Remaining m n d r₀ r₁ t₀ t₁ s) {N D : ℤ} (hm : 2 * N * D < m)
    (hr₀ : N < r₀) (hr₁ : r₁ ≤ N) (hn : |n| ≤ N) (hd : |d| ≤ D) :
    ∃ b, n = b * r₁ ∧ d = b * t₁ := by
  obtain ⟨a, b, hna, hda⟩ := h.combination
  rw [hna] at hn
  rw [hda] at hd
  have hpos := h.not_pos hm hr₀ hr₁ hn hd
  have hneg : ¬ 0 < -a := by
    refine h.not_pos (b := -b) hm hr₀ hr₁ ?_ ?_
    · rwa [neg_mul, neg_mul, ← neg_add, abs_neg]
    · rwa [neg_mul, neg_mul, ← neg_add, abs_neg]
  -- The larger remainder is not used in either direction.
  obtain rfl : a = 0 := by omega
  rw [zero_mul, zero_add] at hna hda
  exact ⟨b, hna, hda⟩

/-- A fraction within the bounds is what its residue is turned into. -/
theorem ofResidue_eq_ok {x : ℚ} {y m N D : ℤ} (hnum : |x.num| ≤ N) (hden : (x.den : ℤ) ≤ D)
    (hm : 2 * N * D < m) (hy : x.den * y ≡ x.num [ZMOD m]) : ofResidue y m N D = .ok x := by
  have hN : 0 ≤ N := (abs_nonneg _).trans hnum
  have hD : 1 ≤ D := by
    have := x.den_pos
    omega
  have hNm : N < m := by
    have : N * 1 ≤ N * D := mul_le_mul_of_nonneg_left hD hN
    have : 0 ≤ N * D := mul_nonneg hN (by omega)
    linarith
  obtain ⟨r₀, r₁, t₀, t₁, s, hfirst, h, hr₀, hr₁⟩ :=
    firstSmall_eq_ok hN (Remaining.start (by omega) hy) hNm
  obtain ⟨b, hnum', hden'⟩ := h.eq_mul hm hr₀ hr₁ hnum (by rwa [Nat.abs_cast])
  -- In lowest terms the factor is a unit.
  have hunit : b = 1 ∨ b = -1 := by
    have hcoprime := x.isCoprime_num_den
    rw [hnum', hden'] at hcoprime
    exact Int.isUnit_iff.1 (hcoprime.isUnit_of_dvd' (dvd_mul_right b r₁) (dvd_mul_right b t₁))
  have hdenPos : (0 : ℤ) < x.den := by exact_mod_cast x.den_pos
  have hsize : t₁.natAbs = x.den ∧ Int.gcd r₁ t₁ = 1 := by
    have hreduced : Int.gcd x.num x.den = 1 := x.reduced
    rw [hnum', hden', Int.gcd_mul_left] at hreduced
    rcases hunit with rfl | rfl
    · exact ⟨by omega, by simpa using hreduced⟩
    · exact ⟨by omega, by simpa using hreduced⟩
  refine (if_neg (by omega)).trans (Outcome.bind_eq_ok.2 ⟨(r₁, t₁), hfirst, ?_⟩)
  dsimp only
  rw [if_neg (by omega), hsize.1]
  rcases hunit with rfl | rfl
  · rw [one_mul] at hnum' hden'
    rw [if_neg (by omega), ← hnum', Rat.mkRat_self]
    rfl
  · rw [if_pos (by omega), ← neg_one_mul, ← hnum', Rat.mkRat_self]
    rfl

/-! ## The answer for one residue -/

/-- A fraction within the bounds that has the residue `y` modulo `m`. As a rational number it is in
lowest terms. -/
structure HasResidue (y m N D : ℤ) (x : ℚ) : Prop where
  num_le : |x.num| ≤ N
  den_le : (x.den : ℤ) ≤ D
  num_modEq : x.num ≡ x.den * y [ZMOD m]

section Answer

variable {y N D : ℤ}

/-- The algorithm finds a small remainder with a coefficient that turns `y` into it. -/
theorem firstSmall_modEq (hm : 0 < m) (hN : 0 ≤ N) :
    ∃ r t, firstSmall N m (Int.fmod y m) 0 1 = .ok (r, t) ∧ 0 ≤ r ∧ r ≤ N ∧
      r ≡ t * y [ZMOD m] := by
  have hreduced : Int.fmod y m = y % m := Int.fmod_eq_emod_of_nonneg y hm.le
  have hstart : 0 ≤ Int.fmod y m ∧ m ≡ 0 * y [ZMOD m] ∧ Int.fmod y m ≡ 1 * y [ZMOD m] := by
    rw [hreduced, zero_mul, one_mul]
    exact ⟨Int.emod_nonneg y hm.ne', by simp [Int.modEq_iff_dvd], Int.mod_modEq y m⟩
  obtain ⟨-, r, -, t, hok, ⟨hnonneg, -, hmod⟩, hsmall⟩ := exists_firstSmall
    (fun r₀ r₁ t₀ t₁ => 0 ≤ r₁ ∧ r₀ ≡ t₀ * y [ZMOD m] ∧ r₁ ≡ t₁ * y [ZMOD m]) hN (by
      rintro r₀ r₁ t₀ t₁ hr₁ ⟨-, hr₀, hr₁'⟩
      rw [Int.fmod_eq_emod_of_nonneg _ (by omega), Int.fdiv_eq_ediv_of_nonneg _ (by omega)]
      refine ⟨Int.emod_nonneg _ (by omega), hr₁', ?_⟩
      rw [Int.emod_def, mul_comm r₁, sub_mul, mul_assoc]
      exact hr₀.sub (hr₁'.mul_left _)) hstart
  exact ⟨r, t, hok, hnonneg, hsmall, hmod⟩

/-- A coefficient and its remainder in lowest terms are, up to their sign, a fraction that has the
residue. -/
theorem hasResidue_mkRat {r t u v : ℤ} (hmod : r ≡ t * y [ZMOD m]) (hr : |r| ≤ N) (ht : t ≠ 0)
    (htD : (t.natAbs : ℤ) ≤ D) (hcoprime : Int.gcd r t = 1)
    (hsign : u = r ∧ v = t ∨ u = -r ∧ v = -t) (hv : 0 < v) :
    HasResidue y m N D (mkRat u t.natAbs) := by
  have habs : (t.natAbs : ℤ) = v := by omega
  have hreduced : Nat.Coprime u.natAbs t.natAbs := by
    rcases hsign with ⟨rfl, -⟩ | ⟨rfl, -⟩
    · exact hcoprime
    · rw [Int.natAbs_neg]
      exact hcoprime
  have hself : mkRat u t.natAbs = ⟨u, t.natAbs, by omega, hreduced⟩ :=
    Rat.mkRat_self ⟨u, t.natAbs, by omega, hreduced⟩
  rw [hself]
  refine ⟨?_, htD, ?_⟩
  · rcases hsign with ⟨rfl, -⟩ | ⟨rfl, -⟩
    · exact hr
    · rwa [abs_neg]
  · show u ≡ (t.natAbs : ℤ) * y [ZMOD m]
    rw [habs]
    rcases hsign with ⟨rfl, rfl⟩ | ⟨rfl, rfl⟩
    · exact hmod
    · rw [neg_mul]
      exact hmod.neg

/-- Either a fraction within the bounds that has the residue is returned, or there is said to be
none. -/
theorem ofResidue_cases (y D : ℤ) (hm : 0 < m) (hN : 0 ≤ N) :
    (∃ x, ofResidue y m N D = .ok x ∧ HasResidue y m N D x) ∨
      ofResidue y m N D = .error (.lifting (.noFraction N D y m)) := by
  obtain ⟨r, t, hfirst, hnonneg, hsmall, hmod⟩ := firstSmall_modEq (y := y) hm hN
  have hr : |r| ≤ N := by
    rw [abs_of_nonneg hnonneg]
    exact hsmall
  unfold ofResidue
  rw [if_neg hm.ne', hfirst]
  dsimp only [bind, Except.bind]
  by_cases hrefused : t = 0 ∨ D < t.natAbs ∨ Int.gcd r t ≠ 1
  · rw [if_pos hrefused]
    exact .inr rfl
  · rw [if_neg hrefused]
    push Not at hrefused
    obtain ⟨ht, htD, hcoprime⟩ := hrefused
    left
    by_cases hneg : t < 0
    · rw [if_pos hneg]
      exact ⟨_, rfl, hasResidue_mkRat hmod hr ht htD hcoprime (.inr ⟨rfl, rfl⟩) (by omega)⟩
    · rw [if_neg hneg]
      exact ⟨_, rfl, hasResidue_mkRat hmod hr ht htD hcoprime (.inl ⟨rfl, rfl⟩) (by omega)⟩

/-- A search always ends with an answer. What it returns is a fraction within the bounds that has
the residue; and for a modulus past twice the product of the bounds there is at most one such
fraction, it is returned, and only where there is none this is said. -/
theorem ofResidue_decides (y D : ℤ) (hm : 1 ≤ m) (hN : 0 ≤ N) :
    ((∃ x, ofResidue y m N D = .ok x) ∨
      ofResidue y m N D = .error (.lifting (.noFraction N D y m))) ∧
    (∀ x, ofResidue y m N D = .ok x → HasResidue y m N D x) ∧
    (2 * N * D < m →
      (∀ x, ofResidue y m N D = .ok x ↔ HasResidue y m N D x) ∧
      (∀ x x', HasResidue y m N D x → HasResidue y m N D x' → x = x') ∧
      (ofResidue y m N D = .error (.lifting (.noFraction N D y m)) ↔
        ∀ x, ¬ HasResidue y m N D x)) := by
  have hcases := ofResidue_cases y D hm hN
  have hsound : ∀ x, ofResidue y m N D = .ok x → HasResidue y m N D x := by
    intro x hx
    rcases hcases with ⟨x', hx', hresidue⟩ | herror
    · obtain rfl : x = x' := Except.ok.inj (hx.symm.trans hx')
      exact hresidue
    · rw [hx] at herror
      cases herror
  refine ⟨hcases.imp_left fun ⟨x, hx, _⟩ => ⟨x, hx⟩, hsound, fun hlarge => ?_⟩
  -- A large modulus leaves room for one fraction only, and the search meets it.
  have hcomplete : ∀ x, HasResidue y m N D x → ofResidue y m N D = .ok x := fun x h =>
    ofResidue_eq_ok h.num_le h.den_le hlarge h.num_modEq.symm
  refine ⟨fun x => ⟨hsound x, hcomplete x⟩, fun x x' hx hx' => ?_, fun herror x hx => ?_,
    fun hnone => ?_⟩
  · exact Except.ok.inj ((hcomplete x hx).symm.trans (hcomplete x' hx'))
  · rw [hcomplete x hx] at herror
    cases herror
  · rcases hcases with ⟨x, -, hx⟩ | herror
    · exact absurd hx (hnone x)
    · exact herror

/-- With numerators up to 2 and denominators up to 3 the modulus 13 is just large enough: `-2 / 3`
is found from its residue 8, and no such fraction has the residue 3. -/
theorem ofResidue_decides_thirteen :
    ofResidue 8 13 2 3 = .ok (-2 / 3) ∧ ∀ x, ¬ HasResidue 3 13 2 3 x := by
  obtain ⟨-, -, hfound⟩ := ofResidue_decides (m := 13) (N := 2) 8 3 (by decide) (by decide)
  obtain ⟨-, -, hnone⟩ := ofResidue_decides (m := 13) (N := 2) 3 3 (by decide) (by decide)
  refine ⟨((hfound (by decide)).1 _).2 ⟨?_, ?_, ?_⟩, (hnone (by decide)).2.2.1 ?_⟩
  · decide +kernel
  · decide +kernel
  · decide +kernel
  · decide +kernel

end Answer

/-! ## A common denominator -/

section Common

variable {xs : List ℚ}

theorem dvd_foldl_lcm (xs : List ℚ) (c : ℕ) :
    c ∣ xs.foldl (fun d f => Nat.lcm d f.den) c ∧
      ∀ f ∈ xs, f.den ∣ xs.foldl (fun d f => Nat.lcm d f.den) c := by
  induction xs generalizing c with
  | nil => simp
  | cons f rest ih =>
    obtain ⟨hc, hrest⟩ := ih (Nat.lcm c f.den)
    rw [List.foldl_cons, List.forall_mem_cons]
    exact ⟨(Nat.dvd_lcm_left c f.den).trans hc, (Nat.dvd_lcm_right c f.den).trans hc, hrest⟩

theorem foldl_lcm_dvd {c d : ℕ} (hc : c ∣ d) (h : ∀ f ∈ xs, f.den ∣ d) :
    xs.foldl (fun d f => Nat.lcm d f.den) c ∣ d := by
  induction xs generalizing c with
  | nil => exact hc
  | cons f rest ih =>
    rw [List.forall_mem_cons] at h
    exact ih (Nat.lcm_dvd hc h.1) h.2

theorem den_dvd_denominator {f : ℚ} (hf : f ∈ xs) : f.den ∣ (common xs).denominator :=
  (dvd_foldl_lcm xs 1).2 f hf

/-- The common denominator divides all common multiples. -/
theorem denominator_dvd {d : ℕ} (h : ∀ f ∈ xs, f.den ∣ d) : (common xs).denominator ∣ d :=
  foldl_lcm_dvd (one_dvd d) h

theorem denominator_pos (xs : List ℚ) : 0 < (common xs).denominator := by
  have hprod : (common xs).denominator ∣ (xs.map Rat.den).prod :=
    denominator_dvd fun f hf => List.dvd_prod (List.mem_map_of_mem hf)
  refine Nat.pos_of_dvd_of_pos hprod (List.prod_pos fun d hd => ?_)
  obtain ⟨f, -, rfl⟩ := List.mem_map.1 hd
  exact f.den_pos

/-- A numerator over the common denominator. -/
def numeratorOf (xs : List ℚ) (f : ℚ) : ℤ := f.num * ((common xs).denominator / f.den : ℕ)

theorem numerators_eq (xs : List ℚ) : (common xs).numerators = xs.map (numeratorOf xs) := rfl

theorem numeratorOf_mul_den {f : ℚ} (hf : f ∈ xs) :
    numeratorOf xs f * f.den = f.num * (common xs).denominator := by
  rw [numeratorOf, mul_assoc, ← Nat.cast_mul, Nat.div_mul_cancel (den_dvd_denominator hf)]

theorem cast_numeratorOf {f : ℚ} (hf : f ∈ xs) :
    (numeratorOf xs f : ℚ) = (common xs).denominator * f := by
  have hden : (f.den : ℚ) ≠ 0 := by exact_mod_cast f.den_nz
  have hmul : (numeratorOf xs f : ℚ) * f.den = f.num * (common xs).denominator := by
    exact_mod_cast numeratorOf_mul_den hf
  have hself : f * f.den = f.num := Rat.mul_den_eq_num f
  apply mul_right_cancel₀ hden
  rw [hmul, mul_assoc, hself, mul_comm]

/-- The numerators and the common denominator have no divisor in common. -/
theorem isUnit_of_dvd_common {g : ℤ} (hnum : ∀ f ∈ xs, g ∣ numeratorOf xs f)
    (hden : g ∣ (common xs).denominator) : IsUnit g := by
  obtain ⟨e, he⟩ := hden
  have hpos : (0 : ℤ) < (common xs).denominator := by exact_mod_cast denominator_pos xs
  have hg : g ≠ 0 := by
    rintro rfl
    rw [zero_mul] at he
    omega
  -- Without the divisor the denominator is still common to all fractions.
  have hcommon : ∀ f ∈ xs, f.den ∣ e.natAbs := by
    intro f hf
    obtain ⟨j, hj⟩ := hnum f hf
    have hmul := numeratorOf_mul_den hf
    rw [hj, he] at hmul
    have hdvd : (f.den : ℤ) ∣ f.num * e := by
      refine ⟨j, mul_left_cancel₀ hg ?_⟩
      linarith
    exact Int.natCast_dvd.1 (f.isCoprime_num_den.symm.dvd_of_dvd_mul_left hdvd)
  have hdvd := denominator_dvd hcommon
  have hle : (common xs).denominator ≤ e.natAbs := by
    refine Nat.le_of_dvd (Int.natAbs_pos.2 ?_) hdvd
    rintro rfl
    rw [mul_zero] at he
    omega
  have hsize : (common xs).denominator = g.natAbs * e.natAbs := by
    rw [← Int.natAbs_mul, ← he, Int.natAbs_natCast]
  have hone : g.natAbs ≤ 1 := by
    by_contra htwo
    have : 2 * e.natAbs ≤ g.natAbs * e.natAbs := Nat.mul_le_mul_right _ (by omega)
    have := denominator_pos xs
    omega
  exact Int.isUnit_iff_natAbs_eq.2 (by omega)

/-- Fractions within the bounds are found from their residues. -/
theorem ofResidues_eq_ok {n : ℕ} {x : Fin n → ℚ} {y : Fin n → ℤ} {m N D : ℤ}
    (hnum : ∀ i, |(x i).num| ≤ N) (hden : ∀ i, ((x i).den : ℤ) ≤ D) (hm : 2 * N * D < m)
    (hy : ∀ i, (x i).den * y i ≡ (x i).num [ZMOD m]) :
    ofResidues (List.ofFn y) m N D = .ok (common (List.ofFn x)) := by
  refine Outcome.bind_eq_ok.2 ⟨List.ofFn x, ?_, rfl⟩
  rw [Outcome.mapM_eq_ok_iff, List.forall₂_iff_get]
  refine ⟨by rw [List.length_ofFn, List.length_ofFn], fun i hi _ => ?_⟩
  rw [List.get_eq_getElem, List.getElem_ofFn, List.get_eq_getElem, List.getElem_ofFn]
  exact ofResidue_eq_ok (hnum _) (hden _) hm (hy _)

/-- There is a numerator for every residue, over a positive denominator. -/
theorem ofResidues_shape {ys : List ℤ} {m N D : ℤ} {x : Common}
    (h : ofResidues ys m N D = .ok x) : x.numerators.length = ys.length ∧ 0 < x.denominator := by
  obtain ⟨fractions, hfractions, h⟩ := Outcome.bind_eq_ok.1 h
  cases h
  have hlength := (Outcome.mapM_eq_ok_iff.1 hfractions).length_eq
  rw [numerators_eq, List.length_map, hlength]
  exact ⟨rfl, denominator_pos fractions⟩

end Common

end Fraction
end PadicLift
