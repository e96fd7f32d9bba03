import PadicLift.Proofs.Reconstruction.Expansion

/-!
# Calls of an accumulator that fail

`add` advances one lane after the other and looks at a vector only when it comes to its lane. So a
call that fails leaves no trace only if the first lane already refuses its vector
(`add_cases`). A lane takes every vector of its own length, but also a single number for all
positions. An accumulator keeps its size and the powers of its primes as long as no call of its
history was torn in this way (`IsSound`).
-/

namespace PadicLift

variable {n : ℕ}

/-! ## What a lane takes -/

/-- A lane takes vectors of its own length and single numbers; a lane with a single position takes
all vectors. -/
def Lane.Takes (lane : Lane) (digit : List ℤ) : Prop :=
  lane.sum.length = digit.length ∨ lane.sum.length = 1 ∨ digit.length = 1

/-- One digit further: the power has the prime once more. -/
def Lane.Precedes (lane next : Lane) : Prop :=
  next.prime = lane.prime ∧ next.power = lane.power * lane.prime

/-- Vectors of one length add up, and so does a vector with a single number. -/
theorem exists_addVectors {u v : List ℤ} (h : u.length = v.length ∨ u.length = 1 ∨ v.length = 1) :
    ∃ w, addVectors u v = .ok w := by
  unfold addVectors
  split
  · exact ⟨_, rfl⟩
  next hne =>
    split
    · exact ⟨_, rfl⟩
    · exact ⟨_, rfl⟩
    next hnotLeft hnotRight =>
      rcases h with h | h | h
      · exact absurd h hne
      · obtain ⟨x, hx⟩ := List.length_eq_one_iff.1 h
        exact (hnotLeft x hx).elim
      · obtain ⟨y, hy⟩ := List.length_eq_one_iff.1 h
        exact (hnotRight y hy).elim

/-- Other lengths do not go together. -/
theorem addVectors_eq_error {u v : List ℤ}
    (h : ¬ (u.length = v.length ∨ u.length = 1 ∨ v.length = 1)) :
    addVectors u v = .error .incompatibleShapes := by
  rw [not_or, not_or] at h
  unfold addVectors
  rw [if_neg h.1]
  split
  · exact absurd rfl h.2.2
  · exact absurd rfl h.2.1
  · rfl

/-- A lane takes a digit vector whose length goes with its own, -/
theorem Lane.exists_add {lane : Lane} {digit : List ℤ} (h : lane.Takes digit) :
    ∃ next, lane.add digit = .ok next ∧ lane.Precedes next := by
  obtain ⟨sum, hsum⟩ := exists_addVectors (u := lane.sum) (v := digit.map (· * lane.power)) (by
    rw [List.length_map]
    exact h)
  exact ⟨_, Outcome.bind_eq_ok.2 ⟨sum, hsum, rfl⟩, rfl, rfl⟩

/-- and refuses others. -/
theorem Lane.add_eq_error {lane : Lane} {digit : List ℤ} (h : ¬ lane.Takes digit) :
    lane.add digit = .error .incompatibleShapes := by
  refine Outcome.bind_eq_error.2 (.inl (addVectors_eq_error ?_))
  rw [List.length_map]
  exact h

/-! ## Lane by lane -/

/-- Two lists of one length agree at all places, or up to a first place where they do not. -/
theorem forall₂_or_exists_first {α β : Type} {R : α → β → Prop} :
    ∀ {xs : List α} {ys : List β}, xs.length = ys.length → List.Forall₂ R xs ys ∨
      ∃ xs₁ x xs₂ ys₁ y ys₂, xs = xs₁ ++ x :: xs₂ ∧ ys = ys₁ ++ y :: ys₂ ∧
        List.Forall₂ R xs₁ ys₁ ∧ ¬ R x y
  | [], [], _ => .inl .nil
  | x :: xs, y :: ys, hlength => by
    by_cases hxy : R x y
    · rcases forall₂_or_exists_first (R := R) (Nat.succ_injective hlength) with
        h | ⟨xs₁, x', xs₂, ys₁, y', ys₂, rfl, rfl, hfront, hnot⟩
      · exact .inl (.cons hxy h)
      · exact .inr ⟨x :: xs₁, x', xs₂, y :: ys₁, y', ys₂, rfl, rfl, .cons hxy hfront, hnot⟩
    · exact .inr ⟨[], x, xs, [], y, ys, rfl, rfl, .nil, hxy⟩

namespace Accumulator

/-- If every lane takes its vector, all of them move on. -/
theorem exists_addLanes {lanes : List Lane} {digits : List (List ℤ)}
    (h : List.Forall₂ Lane.Takes lanes digits) :
    ∃ after, addLanes lanes digits = (.ok (), after) ∧ List.Forall₂ Lane.Precedes lanes after := by
  induction h with
  | nil => exact ⟨[], rfl, .nil⟩
  | cons htakes _ ih =>
    obtain ⟨next, hnext, hprecedes⟩ := Lane.exists_add htakes
    obtain ⟨after, hafter, hrest⟩ := ih
    refine ⟨next :: after, ?_, .cons hprecedes hrest⟩
    rw [addLanes, hnext]
    dsimp only
    rw [hafter]

/-- The lanes in front of one that refuses its vector have advanced; this lane and those behind it
stay as they are. -/
theorem exists_addLanes_append {front : List Lane} {lane : Lane} {digits : List (List ℤ)}
    {digit : List ℤ} (back : List Lane) (rest : List (List ℤ))
    (h : List.Forall₂ Lane.Takes front digits) (hnot : ¬ lane.Takes digit) :
    ∃ after, addLanes (front ++ lane :: back) (digits ++ digit :: rest)
        = (.error .incompatibleShapes, after ++ lane :: back) ∧
      List.Forall₂ Lane.Precedes front after := by
  induction h with
  | nil =>
    refine ⟨[], ?_, .nil⟩
    rw [List.nil_append, List.nil_append, addLanes, Lane.add_eq_error hnot]
  | cons htakes _ ih =>
    obtain ⟨next, hnext, hprecedes⟩ := Lane.exists_add htakes
    obtain ⟨after, hafter, hrest⟩ := ih
    refine ⟨next :: after, ?_, .cons hprecedes hrest⟩
    rw [List.cons_append, List.cons_append, addLanes, hnext]
    dsimp only
    rw [hafter]
    rfl

/-- What a call does: it refuses a wrong number of vectors; or all lanes take theirs; or it fails at
the first lane that does not, behind lanes that have advanced. -/
theorem add_cases (acc : Accumulator) (digits : List (List ℤ)) :
    (digits.length ≠ acc.lanes.length ∧ ∃ f, acc.add digits = (.error f, acc)) ∨
    (List.Forall₂ Lane.Takes acc.lanes digits ∧ ∃ after,
      acc.add digits = (.ok (), ⟨acc.size, acc.count + 1, after⟩) ∧
      List.Forall₂ Lane.Precedes acc.lanes after) ∨
    (digits.length = acc.lanes.length ∧
      ∃ front lane back taken digit rest after, acc.lanes = front ++ lane :: back ∧
        digits = taken ++ digit :: rest ∧ List.Forall₂ Lane.Takes front taken ∧
        ¬ lane.Takes digit ∧ List.Forall₂ Lane.Precedes front after ∧
        acc.add digits
          = (.error .incompatibleShapes, ⟨acc.size, acc.count, after ++ lane :: back⟩)) := by
  by_cases hlength : digits.length = acc.lanes.length
  · rcases forall₂_or_exists_first (R := Lane.Takes) hlength.symm with
      hall | ⟨front, lane, back, taken, digit, rest, hlanes, rfl, hfront, hnot⟩
    · obtain ⟨after, hafter, hprecedes⟩ := exists_addLanes hall
      refine .inr (.inl ⟨hall, after, ?_, hprecedes⟩)
      rw [add, if_neg (not_not.2 hlength), hafter]
    · obtain ⟨after, hafter, hprecedes⟩ := exists_addLanes_append back rest hfront hnot
      refine .inr (.inr ⟨hlength, front, lane, back, taken, digit, rest, after, hlanes, rfl, hfront,
        hnot, hprecedes, ?_⟩)
      rw [add, if_neg (not_not.2 hlength), hlanes, hafter]
  · refine .inl ⟨hlength, .argument (.digitVectorCount acc.lanes.length digits.length), ?_⟩
    rw [add, if_pos hlength]

/-! ## Powers -/

section Powers

variable {lanes after : List Lane}

theorem map_prime_eq (h : List.Forall₂ Lane.Precedes lanes after) :
    after.map Lane.prime = lanes.map Lane.prime := by
  induction h with
  | nil => rfl
  | cons hprecedes _ ih => rw [List.map_cons, List.map_cons, hprecedes.1, ih]

/-- When all lanes move on, the modulus grows by the product of the primes. -/
theorem prod_power_eq (h : List.Forall₂ Lane.Precedes lanes after) :
    (after.map Lane.power).prod = (lanes.map Lane.power).prod * (lanes.map Lane.prime).prod := by
  induction h with
  | nil => simp
  | cons hprecedes _ ih =>
    simp only [List.map_cons, List.prod_cons, hprecedes.2, ih]
    ring

theorem power_pos_of_precedes (h : List.Forall₂ Lane.Precedes lanes after)
    (hpos : ∀ lane ∈ lanes, 0 < lane.prime ∧ 0 < lane.power) : ∀ next ∈ after, 0 < next.power := by
  induction h with
  | nil => simp
  | cons hprecedes _ ih =>
    rw [List.forall_mem_cons] at hpos ⊢
    exact ⟨hprecedes.2 ▸ mul_pos hpos.1.2 hpos.1.1, ih hpos.2⟩

/-- A product of numbers from 2 up is 1 only if there are none. -/
theorem prod_eq_one_iff {ps : List ℤ} (h : ∀ p ∈ ps, 2 ≤ p) : ps.prod = 1 ↔ ps = [] := by
  constructor
  · intro hprod
    cases ps with
    | nil => rfl
    | cons p rest =>
      have hdvd : p ∣ 1 := hprod ▸ List.dvd_prod List.mem_cons_self
      have hle := Int.le_of_dvd one_pos hdvd
      have htwo := h p List.mem_cons_self
      omega
  · rintro rfl
    rfl

end Powers

/-! ## Histories -/

/-- What some calls leave behind, one after the other, whether they fail or not. -/
def addAll (acc : Accumulator) (calls : List (List (List ℤ))) : Accumulator :=
  calls.foldl (fun acc digits => (acc.add digits).2) acc

theorem addAll_concat (acc : Accumulator) (calls : List (List (List ℤ)))
    (digits : List (List ℤ)) :
    acc.addAll (calls ++ [digits]) = ((acc.addAll calls).add digits).2 := by
  rw [addAll, List.foldl_append]
  rfl

/-- What every call keeps: the primes, and powers that are positive. -/
structure IsFor (primes : List ℤ) (acc : Accumulator) : Prop where
  primes_eq : acc.lanes.map Lane.prime = primes
  power_pos : ∀ lane ∈ acc.lanes, 0 < lane.power

section Histories

variable {primes : List ℤ} {acc : Accumulator}

theorem isFor_start (primes : List ℤ) (n : ℕ) : (start primes n).IsFor primes := by
  constructor
  · simp [start, Function.comp_def]
  · intro lane hlane
    obtain ⟨p, -, rfl⟩ := List.mem_map.1 hlane
    exact one_pos

theorem IsFor.prime_of_mem (hacc : acc.IsFor primes) {lane : Lane} (hlane : lane ∈ acc.lanes) :
    lane.prime ∈ primes := by
  rw [← hacc.primes_eq]
  exact List.mem_map_of_mem hlane

/-- A call keeps the primes, and powers that are positive, also when it fails. -/
theorem IsFor.add (hprimes : ∀ p ∈ primes, 2 ≤ p) (hacc : acc.IsFor primes)
    (digits : List (List ℤ)) : (acc.add digits).2.IsFor primes := by
  have hpos : ∀ lane ∈ acc.lanes, 0 < lane.prime ∧ 0 < lane.power := by
    intro lane hlane
    have htwo := hprimes _ (hacc.prime_of_mem hlane)
    exact ⟨by omega, hacc.power_pos lane hlane⟩
  rcases add_cases acc digits with
    ⟨-, f, hadd⟩ | ⟨-, after, hadd, hafter⟩ |
    ⟨-, front, lane, back, taken, digit, rest, after, hlanes, -, -, -, hafter, hadd⟩
  · rw [hadd]
    exact hacc
  · rw [hadd]
    exact ⟨(map_prime_eq hafter).trans hacc.primes_eq, power_pos_of_precedes hafter hpos⟩
  · rw [hadd]
    rw [hlanes, List.forall_mem_append] at hpos
    constructor
    · rw [← hacc.primes_eq, hlanes, List.map_append, List.map_append, map_prime_eq hafter]
    · rw [List.forall_mem_append]
      exact ⟨power_pos_of_precedes hafter hpos.1, fun lane hlane => (hpos.2 lane hlane).2⟩

/-- So do any calls. -/
theorem isFor_addAll (hprimes : ∀ p ∈ primes, 2 ≤ p) (n : ℕ) (calls : List (List (List ℤ))) :
    ((start primes n).addAll calls).IsFor primes := by
  induction calls using List.reverseRecOn with
  | nil => exact isFor_start primes n
  | append_singleton front digits ih =>
    rw [addAll_concat]
    exact ih.add hprimes digits

/-! ## Calls that are not torn -/

/-- No reading tells two accumulators apart. -/
def LooksLike (acc acc' : Accumulator) : Prop :=
  acc'.count = acc.count ∧ acc'.modulus = acc.modulus ∧
    ∀ j, acc'.expansion j = acc.expansion j

/-- A call takes one vector of `n` numbers for every lane, or it fails and leaves no trace. -/
def IsAllOrNothing (n : ℕ) (acc : Accumulator) (digits : List (List ℤ)) : Prop :=
  (digits.length = acc.lanes.length ∧ (∀ digit ∈ digits, digit.length = n) ∧
    (acc.add digits).1 = .ok ()) ∨
  ((∃ f, (acc.add digits).1 = .error f) ∧ acc.LooksLike (acc.add digits).2)

/-- A call has a wrong number of vectors, or the first lane refuses its vector, or all lanes take
vectors of `n` numbers. -/
def IsSound (n : ℕ) (acc : Accumulator) (digits : List (List ℤ)) : Prop :=
  digits.length ≠ acc.lanes.length ∨
  (∃ lane ∈ acc.lanes.head?, ∃ digit ∈ digits.head?, ¬ lane.Takes digit) ∨
  (List.Forall₂ Lane.Takes acc.lanes digits ∧ ∀ digit ∈ digits, digit.length = n)

theorem not_head_refuses {lanes : List Lane} {digits : List (List ℤ)}
    (h : List.Forall₂ Lane.Takes lanes digits) :
    ¬ ∃ lane ∈ lanes.head?, ∃ digit ∈ digits.head?, ¬ lane.Takes digit := by
  cases h with
  | nil => simp
  | cons htakes _ => simpa using htakes

/-- Where a later lane refuses its vector, the call is sound only if that lane is the first one. -/
theorem isSound_iff_of_refused {digits taken rest : List (List ℤ)} {front back : List Lane}
    {lane : Lane} {digit : List ℤ} (hlength : digits.length = acc.lanes.length)
    (hlanes : acc.lanes = front ++ lane :: back) (hdigits : digits = taken ++ digit :: rest)
    (hfront : List.Forall₂ Lane.Takes front taken) (hnot : ¬ lane.Takes digit) :
    acc.IsSound n digits ↔ front = [] := by
  -- Two lists whose fronts match can only match in all if the refused vector does.
  have hnotAll : ¬ List.Forall₂ Lane.Takes acc.lanes digits := by
    intro hall
    rw [hlanes, hdigits] at hall
    have hback := List.forall₂_drop_append _ _ _ hall
    rw [← hfront.length_eq, List.drop_left] at hback
    cases hback with
    | cons htakes _ => exact hnot htakes
  constructor
  · rintro (hne | hhead | ⟨hall, -⟩)
    · exact absurd hlength hne
    · cases hfront with
      | nil => rfl
      | cons htakes _ =>
        rw [hlanes, hdigits] at hhead
        simp at hhead
        exact absurd htakes hhead
    · exact absurd hall hnotAll
  · rintro rfl
    cases hfront
    refine .inr (.inl ⟨lane, ?_, digit, ?_, hnot⟩)
    · simp [hlanes]
    · simp [hdigits]

/-- Lanes that have advanced show in the product of the powers. -/
theorem modulus_eq_iff_of_refused (hprimes : ∀ p ∈ primes, 2 ≤ p) (hacc : acc.IsFor primes)
    {front back after : List Lane} {lane : Lane} (hlanes : acc.lanes = front ++ lane :: back)
    (hafter : List.Forall₂ Lane.Precedes front after) :
    (Accumulator.mk acc.size acc.count (after ++ lane :: back)).modulus = acc.modulus ↔
      front = [] := by
  have hpos : (acc.lanes.map Lane.power).prod ≠ 0 := by
    refine List.prod_ne_zero fun hzero => ?_
    obtain ⟨lane, hlane, hpower⟩ := List.mem_map.1 hzero
    exact (hacc.power_pos lane hlane).ne' hpower
  have hfront : ∀ p ∈ front.map Lane.prime, 2 ≤ p := by
    intro p hp
    refine hprimes p ?_
    rw [← hacc.primes_eq, hlanes, List.map_append]
    exact List.mem_append_left _ hp
  have hmodulus : (Accumulator.mk acc.size acc.count (after ++ lane :: back)).modulus
      = acc.modulus * (front.map Lane.prime).prod := by
    unfold modulus
    rw [← List.prod_eq_foldl, ← List.prod_eq_foldl, hlanes, List.map_append, List.map_append,
      List.prod_append, List.prod_append, prod_power_eq hafter]
    ring
  have hne : acc.modulus ≠ 0 := by
    unfold modulus
    rwa [← List.prod_eq_foldl]
  rw [hmodulus, mul_eq_left₀ hne, prod_eq_one_iff hfront, List.map_eq_nil_iff]

/-- Whether a call advances all lanes or none can be told from its vectors. -/
theorem isAllOrNothing_iff_isSound (hprimes : ∀ p ∈ primes, 2 ≤ p) (hacc : acc.IsFor primes)
    (digits : List (List ℤ)) : acc.IsAllOrNothing n digits ↔ acc.IsSound n digits := by
  unfold IsAllOrNothing
  -- A call has a wrong number of vectors, moves all lanes, or stops at one behind some that moved.
  rcases add_cases acc digits with
    ⟨hlength, f, hadd⟩ | ⟨hall, after, hadd, hafter⟩ |
    ⟨hlength, front, lane, back, taken, digit, rest, after, hlanes, hdigits, hfront, hnot, hafter,
      hadd⟩
  · rw [hadd]
    exact iff_of_true (.inr ⟨⟨f, rfl⟩, rfl, rfl, fun _ => rfl⟩) (.inl hlength)
  · rw [hadd]
    constructor
    · rintro (⟨-, hshape, -⟩ | ⟨⟨f, hf⟩, -⟩)
      · exact .inr (.inr ⟨hall, hshape⟩)
      · cases hf
    · rintro (hne | hhead | ⟨-, hshape⟩)
      · exact absurd hall.length_eq.symm hne
      · exact absurd hhead (not_head_refuses hall)
      · exact .inl ⟨hall.length_eq.symm, hshape, rfl⟩
  · rw [hadd, isSound_iff_of_refused hlength hlanes hdigits hfront hnot,
      ← modulus_eq_iff_of_refused hprimes hacc hlanes hafter]
    constructor
    · rintro (⟨-, -, hok⟩ | ⟨-, hlooks⟩)
      · cases hok
      · exact hlooks.2.1
    · intro hmodulus
      obtain rfl := (modulus_eq_iff_of_refused hprimes hacc hlanes hafter).1 hmodulus
      cases hafter
      have hsame : Accumulator.mk acc.size acc.count ([] ++ lane :: back) = acc := by
        rw [List.nil_append]
        rw [List.nil_append] at hlanes
        rw [← hlanes]
      rw [hsame]
      exact .inr ⟨⟨_, rfl⟩, rfl, rfl, fun _ => rfl⟩

/-! ## Histories without torn calls -/

/-- Of a vector for `n` positions a lane takes `n` numbers or one; for a single position it takes
any vector. -/
theorem HasSize.takes_iff (hacc : acc.HasSize n) {lane : Lane} (hlane : lane ∈ acc.lanes)
    (digit : List ℤ) : lane.Takes digit ↔ n = digit.length ∨ n = 1 ∨ digit.length = 1 := by
  unfold Lane.Takes
  rw [hacc.length_sum lane hlane]

/-- Soundness by lengths alone. -/
theorem HasSize.isSound_iff (hacc : acc.HasSize n) (digits : List (List ℤ)) :
    acc.IsSound n digits ↔ digits.length ≠ acc.lanes.length ∨
      (∃ digit ∈ digits.head?, ¬ (n = digit.length ∨ n = 1 ∨ digit.length = 1)) ∨
      ∀ digit ∈ digits, digit.length = n := by
  by_cases hlength : digits.length = acc.lanes.length
  · refine or_congr Iff.rfl (or_congr ?_ ?_)
    · constructor
      · rintro ⟨lane, hlane, digit, hdigit, hnot⟩
        rw [hacc.takes_iff (List.mem_of_mem_head? hlane)] at hnot
        exact ⟨digit, hdigit, hnot⟩
      · rintro ⟨digit, hdigit, hnot⟩
        have hpos : 0 < acc.lanes.length :=
          hlength ▸ List.length_pos_of_mem (List.mem_of_mem_head? hdigit)
        have hlane : acc.lanes[0] ∈ acc.lanes := List.getElem_mem hpos
        refine ⟨acc.lanes[0], ?_, digit, hdigit, ?_⟩
        · rw [List.head?_eq_getElem?, List.getElem?_eq_getElem hpos]
          rfl
        · rwa [hacc.takes_iff hlane]
    · constructor
      · rintro ⟨-, hshape⟩
        exact hshape
      · intro hshape
        refine ⟨List.forall₂_iff_get.2 ⟨hlength.symm, fun i hi hi' => ?_⟩, hshape⟩
        rw [hacc.takes_iff (List.get_mem _ _)]
        exact .inl (hshape _ (List.get_mem _ _)).symm
  · exact iff_of_true (.inl hlength) (.inl hlength)

/-- Every call of a history is sound in the state it meets. -/
def IsSoundRun (primes : List ℤ) (n : ℕ) (calls : List (List (List ℤ))) : Prop :=
  ∀ front digits, front ++ [digits] <+: calls → ((start primes n).addAll front).IsSound n digits

/-- A sound call keeps the size and that the powers are those of the digits counted. -/
theorem IsFor.add_of_isSound (hacc : acc.IsFor primes) (hsize : acc.HasSize n)
    (hmodulus : acc.modulus = primes.prod ^ acc.count) {digits : List (List ℤ)}
    (hsound : acc.IsSound n digits) :
    (acc.add digits).2.HasSize n ∧
      (acc.add digits).2.modulus = primes.prod ^ (acc.add digits).2.count := by
  rcases add_cases acc digits with
    ⟨-, f, hadd⟩ | ⟨hall, after, hadd, hafter⟩ |
    ⟨hlength, front, lane, back, taken, digit, rest, after, hlanes, hdigits, hfront, hnot, hafter,
      hadd⟩
  · rw [hadd]
    exact ⟨hsize, hmodulus⟩
  · have hshape : ∀ digit ∈ digits, digit.length = n := by
      rcases hsound with hne | hhead | ⟨-, hshape⟩
      · exact absurd hall.length_eq.symm hne
      · exact absurd hhead (not_head_refuses hall)
      · exact hshape
    refine ⟨?_, ?_⟩
    · rw [hadd]
      exact hsize.add hadd hshape
    · rw [hadd]
      show (after.map Lane.power).foldl (· * ·) 1 = primes.prod ^ (acc.count + 1)
      unfold modulus at hmodulus
      rw [← List.prod_eq_foldl] at hmodulus ⊢
      rw [prod_power_eq hafter, hmodulus, hacc.primes_eq, pow_succ]
  · -- A sound call that is refused in a lane is refused in the first one, before any has moved.
    obtain rfl := (isSound_iff_of_refused hlength hlanes hdigits hfront hnot).1 hsound
    cases hafter
    rw [List.nil_append] at hlanes hadd
    rw [hadd, ← hlanes]
    exact ⟨hsize, hmodulus⟩

/-- Sound calls leave vectors of size `n`, and the product of the primes to the power of the count
as the modulus. -/
theorem addAll_of_isSoundRun (hprimes : ∀ p ∈ primes, 2 ≤ p) {calls : List (List (List ℤ))}
    (hrun : IsSoundRun primes n calls) :
    ((start primes n).addAll calls).HasSize n ∧
      ((start primes n).addAll calls).modulus
        = primes.prod ^ ((start primes n).addAll calls).count := by
  induction calls using List.reverseRecOn with
  | nil =>
    refine ⟨hasSize_start primes n, ?_⟩
    show ((start primes n).lanes.map Lane.power).foldl (· * ·) 1 = primes.prod ^ 0
    rw [← List.prod_eq_foldl, start, List.map_map]
    simp [Function.comp_def]
  | append_singleton front digits ih =>
    obtain ⟨hsize, hmodulus⟩ := ih fun front' digits' hinit =>
      hrun front' digits' (hinit.trans (List.prefix_append front [digits]))
    rw [addAll_concat]
    exact (isFor_addAll hprimes n front).add_of_isSound hsize hmodulus
      (hrun front digits List.prefix_rfl)

theorem HasSize.length_of_expansion (hacc : acc.HasSize n) {j : ℤ} {y : List ℤ} {m : ℤ}
    (h : acc.expansion j = .ok (y, m)) : y.length = n := by
  obtain ⟨i, -, h⟩ := Outcome.bind_eq_ok.1 h
  cases h
  exact hacc.length_sum _ (List.get_mem _ _)

/-- After any history, a call takes one vector of `n` numbers for every prime or fails without a
trace exactly if it is sound. As long as all calls were, every expansion has `n` numbers, the
modulus is the power of all primes that the count says, and soundness is a matter of lengths: a
wrong number of vectors, a first vector that does not fit, or vectors that are all of `n` numbers.
-/
theorem isAllOrNothing_addAll_iff (hprimes : ∀ p ∈ primes, 2 ≤ p) (n : ℕ)
    (calls : List (List (List ℤ))) :
    (∀ digits, ((start primes n).addAll calls).IsAllOrNothing n digits ↔
      ((start primes n).addAll calls).IsSound n digits) ∧
    (IsSoundRun primes n calls →
      (∀ j y m, ((start primes n).addAll calls).expansion j = .ok (y, m) → y.length = n) ∧
      ((start primes n).addAll calls).modulus
        = primes.prod ^ ((start primes n).addAll calls).count ∧
      ∀ digits, ((start primes n).addAll calls).IsSound n digits ↔
        digits.length ≠ primes.length ∨
        (∃ digit ∈ digits.head?, ¬ (n = digit.length ∨ n = 1 ∨ digit.length = 1)) ∨
        ∀ digit ∈ digits, digit.length = n) := by
  have hfor := isFor_addAll hprimes n calls
  refine ⟨isAllOrNothing_iff_isSound hprimes hfor, fun hrun => ?_⟩
  obtain ⟨hsize, hmodulus⟩ := addAll_of_isSoundRun hprimes hrun
  have hlanes : ((start primes n).addAll calls).lanes.length = primes.length := by
    simpa using congrArg List.length hfor.primes_eq
  refine ⟨fun j y m => hsize.length_of_expansion, hmodulus, fun digits => ?_⟩
  rw [hsize.isSound_iff, hlanes]

/-- A call with a vector too many leaves no trace, one that ends in a vector too long does. -/
theorem isAllOrNothing_addAll_iff_five_seven :
    (∀ p ∈ [(5 : ℤ), 7], 2 ≤ p) ∧ IsSoundRun [5, 7] 2 [[[1, 2], [3, 4]]] ∧
      ((start [5, 7] 2).addAll [[[1, 2], [3, 4]]]).modulus = 35 ∧
      ((start [5, 7] 2).addAll [[[1, 2], [3, 4]]]).IsAllOrNothing 2 [[1, 2], [3, 4], [5, 6]] ∧
      ¬ ((start [5, 7] 2).addAll [[[1, 2], [3, 4]]]).IsAllOrNothing 2 [[1, 2], [3, 4, 5]] := by
  have hprimes : ∀ p ∈ [(5 : ℤ), 7], 2 ≤ p := by decide
  have hrun : IsSoundRun [5, 7] 2 [[[1, 2], [3, 4]]] := by
    intro front digits hinit
    have hlength := hinit.length_le
    have hfront : front = [] := by
      rw [List.length_append] at hlength
      exact List.length_eq_zero_iff.1 (by simpa using hlength)
    subst hfront
    obtain rfl : digits = [[1, 2], [3, 4]] := by simpa using hinit
    exact ((hasSize_start [5, 7] 2).isSound_iff _).2 (by decide)
  obtain ⟨hiff, hsound⟩ := isAllOrNothing_addAll_iff hprimes 2 [[[1, 2], [3, 4]]]
  obtain ⟨-, hmodulus, hlengths⟩ := hsound hrun
  refine ⟨hprimes, hrun, ?_, ?_, ?_⟩
  · rw [hmodulus]
    decide
  · rw [hiff, hlengths]
    exact .inl (by decide)
  · rw [hiff, hlengths]
    decide

/-- The first lane has advanced when the second one refuses its vector: the modulus says one digit
more than the count. A single number, on the other hand, is taken for all positions. -/
theorem add_five_seven_torn :
    ((start [5, 7] 2).add [[1, 2], [1, 2, 3]]).1 = .error .incompatibleShapes ∧
    ((start [5, 7] 2).add [[1, 2], [1, 2, 3]]).2.count = 0 ∧
    (start [5, 7] 2).modulus = 1 ∧
    ((start [5, 7] 2).add [[1, 2], [1, 2, 3]]).2.modulus = 5 ∧
    ((start [5, 7] 2).add [[1, 2], [1, 2, 3]]).2.expansion 0 = .ok ([1, 2], 5) ∧
    ¬ (start [5, 7] 2).IsAllOrNothing 2 [[1, 2], [1, 2, 3]] ∧
    ¬ (start [5, 7] 2).IsAllOrNothing 2 [[1], [2]] := by
  refine ⟨rfl, rfl, rfl, rfl, rfl, ?_, ?_⟩
  · rintro (⟨-, hshape, -⟩ | ⟨-, -, hmodulus, -⟩)
    · exact absurd (hshape [1, 2, 3] (by decide)) (by decide)
    · exact absurd hmodulus (by decide)
  · rintro (⟨-, hshape, -⟩ | ⟨-, hcount, -⟩)
    · exact absurd (hshape [1] (by decide)) (by decide)
    · exact absurd hcount (by decide)

end Histories

end Accumulator
end PadicLift
