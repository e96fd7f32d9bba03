import PadicLift.Proofs.Prime.Pool

/-!
# What a pool takes of what a source hands out

Draws that succeed ask the source for one prime after the other, and take every one that is above
the floor and not excluded; what is a member already changes nothing. So the members are determined
by what was handed out, whatever the order and however often it came (`PrimePool.Took`).
-/

namespace PadicLift

namespace PrimeSource

/-- The source hands out these primes, one after the other, and is left as `after`. -/
def HandsOut (source : PrimeSource) : List ℕ → PrimeSource → Prop
  | [], after => after = source
  | p :: rest, after => ∃ last, source.next = (.ok p, last) ∧ last.HandsOut rest after

theorem HandsOut.append {source middle after : PrimeSource} {ps qs : List ℕ}
    (h : source.HandsOut ps middle) (h' : middle.HandsOut qs after) :
    source.HandsOut (ps ++ qs) after := by
  induction ps generalizing source with
  | nil =>
    cases h
    exact h'
  | cons p rest ih =>
    obtain ⟨last, hnext, h⟩ := h
    exact ⟨last, hnext, ih h⟩

end PrimeSource

namespace PrimePool

variable {pool pool' pool'' : PrimePool} {source after last : PrimeSource} {handed later : List ℕ}

/-- A pool has taken what it can of the primes that the source has handed out. -/
structure Took (pool : PrimePool) (source : PrimeSource) (handed : List ℕ) (pool' : PrimePool)
    (after : PrimeSource) : Prop where
  hands_out : source.HandsOut handed after
  two_le : ∀ q ∈ handed, 2 ≤ q
  floor_eq : pool'.floor = pool.floor
  excluded_eq : pool'.excluded = pool.excluded
  mem_iff : ∀ q, q ∈ pool'.primes ↔
    q ∈ pool.primes ∨ (q ∈ handed ∧ pool.floor < q ∧ q ∉ pool.excluded)

theorem took_nil (pool : PrimePool) (source : PrimeSource) : pool.Took source [] pool source :=
  ⟨rfl, by simp, rfl, rfl, by simp⟩

/-- Two runs of draws take what one run does. -/
theorem Took.trans (h : pool.Took source handed pool' after)
    (h' : pool'.Took after later pool'' last) : pool.Took source (handed ++ later) pool'' last := by
  refine ⟨h.hands_out.append h'.hands_out, ?_, h'.floor_eq.trans h.floor_eq,
    h'.excluded_eq.trans h.excluded_eq, fun q => ?_⟩
  · rw [List.forall_mem_append]
    exact ⟨h.two_le, h'.two_le⟩
  · rw [h'.mem_iff, h.mem_iff, h.floor_eq, h.excluded_eq, List.mem_append]
    tauto

/-- A prime that cannot be taken is excluded, too small, or a member already. -/
theorem Took.skip {p : ℕ} (hnext : source.next = (.ok p, after)) (htwo : 2 ≤ p)
    (hnot : ¬ pool.Accepts p) (h : pool.Took after handed pool' last) :
    pool.Took source (p :: handed) pool' last := by
  refine ⟨⟨after, hnext, h.hands_out⟩, ?_, h.floor_eq, h.excluded_eq, fun q => ?_⟩
  · rw [List.forall_mem_cons]
    exact ⟨htwo, h.two_le⟩
  · rw [h.mem_iff, List.mem_cons]
    constructor
    · rintro (hq | ⟨hq, hrest⟩)
      · exact .inl hq
      · exact .inr ⟨.inr hq, hrest⟩
    · rintro (hq | ⟨rfl | hq, hfloor, hexcluded⟩)
      · exact .inl hq
      · by_contra hcontra
        exact hnot ⟨hfloor, hexcluded, fun hmem => hcontra (.inl hmem)⟩
      · exact .inr ⟨hq, hfloor, hexcluded⟩

/-- A prime that is accepted is taken. -/
theorem took_insert {p : ℕ} (hnext : source.next = (.ok p, after)) (htwo : 2 ≤ p)
    (haccepts : pool.Accepts p) (hmax : p ≤ maxModulus) :
    pool.Took source [p] (pool.insert p haccepts hmax) after := by
  refine ⟨⟨after, hnext, rfl⟩, by simpa using htwo, rfl, rfl, fun q => ?_⟩
  show q ∈ insertOrdered p pool.primes ↔ _
  rw [mem_insertOrdered, List.mem_singleton]
  constructor
  · rintro (rfl | hq)
    · exact .inr ⟨rfl, haccepts.1, haccepts.2.1⟩
    · exact .inl hq
  · rintro (hq | ⟨rfl, -⟩)
    · exact .inr hq
    · exact .inl rfl

/-- A draw that returns has taken what it can of the primes that it was handed. -/
theorem DrawsTo.took {p : ℕ} (h : pool.DrawsTo source (.ok p) pool' after) :
    ∃ handed, pool.Took source handed pool' after := by
  generalize hresult : Except.ok p = result at h
  induction h with
  | usedUp => cases hresult
  | fails => cases hresult
  | refuses => cases hresult
  | takes haccepts hmax hnext htwo => exact ⟨_, took_insert hnext htwo haccepts hmax⟩
  | passes hnext htwo hnot _ ih =>
    obtain ⟨handed, hhanded⟩ := ih hresult
    exact ⟨_, hhanded.skip hnext htwo hnot⟩

theorem took_of_draw {p : ℕ} (h : pool.draw source = (.ok p, pool', after)) :
    ∃ handed, pool.Took source handed pool' after := by
  rcases drawsTo_of_draw h with hdraws | ⟨-, hresult, -⟩
  · exact hdraws.took
  · cases hresult

/-- So does a loop of draws. -/
theorem took_of_drawUntil {done : List ℕ → Bool}
    (h : pool.drawUntil done source = (.ok (), pool', after)) :
    ∃ handed, pool.Took source handed pool' after := by
  fun_induction drawUntil done pool source with
  | case1 pool source =>
    cases h
    exact ⟨[], took_nil _ _⟩
  | case2 => cases h
  | case3 pool source _ p pool₁ source₁ hdraw ih =>
    obtain ⟨handed, hhanded⟩ := took_of_draw hdraw
    obtain ⟨later, hlater⟩ := ih h
    exact ⟨handed ++ later, hhanded.trans hlater⟩

theorem took_of_split {count : ℕ} {extent : Extent} {s : Split}
    (h : pool.split count extent source = (.ok s, pool', after)) :
    ∃ handed, pool.Took source handed pool' after := by
  obtain ⟨middle, between, hnear, hcovers, -⟩ := splitBy_eq_ok h
  obtain ⟨handed, hhanded⟩ := took_of_drawUntil hnear
  obtain ⟨later, hlater⟩ := took_of_drawUntil hcovers
  exact ⟨handed ++ later, hhanded.trans hlater⟩

/-- The members are distinct, so a discarded one is gone. -/
theorem mem_discard {p q : ℕ} : q ∈ (pool.discard p).primes ↔ q ∈ pool.primes ∧ q ≠ p := by
  have hnodup : pool.primes.Nodup := pool.increasing.imp Nat.ne_of_lt
  show q ∈ pool.primes.erase p ↔ _
  rw [hnodup.mem_erase_iff, and_comm]

end PrimePool
end PadicLift
