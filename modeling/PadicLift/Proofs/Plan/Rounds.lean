import PadicLift.Proofs.Plan.Estimate
import PadicLift.Proofs.Plan.Replacement

/-!
# Rounds that draw nothing but replacements

A pool that a random source has filled up to the estimate holds a basis that covers the extent,
whichever of its primes are cut off for lifting. A round that replaces an unlucky prime leaves as
many primes, all of the same size, so the same is true in front of the next split
(`IsStocked.retry`): no split draws, and besides the first filling there is one new prime for each
replacement (`estimate_suffices`).
-/

namespace PadicLift

variable {n : ℕ}

namespace PrimePool

/-- A split of a pool that covers only cuts it. -/
theorem split_of_covers {pool : PrimePool} {count : ℕ} {value : ℚ}
    (h : Covers value (pool.primes.drop count)) (source : PrimeSource) :
    pool.split count (.bits value) source
      = (.ok ⟨pool.primes.take count, (Extent.bits value).trim (pool.primes.drop count)⟩, pool,
        source) := by
  have hlength : count < pool.primes.length := by
    rw [← not_le, ← List.drop_eq_nil_iff]
    exact h.nonempty
  exact splitBy_of_drawUntil (drawUntil_of_done h.isNear)
    (drawUntil_of_done (coversBehind_eq_true.2 ⟨hlength, h.isCovered⟩))

end PrimePool

namespace Selection

/-! ## Rounds -/

/-- The rounds that can follow on a first split: the primes discarded so far, and the pool and the
source in front of the next split. -/
inductive IsRound (A : Mat n n) (count : ℕ) (extent : Extent) (pool : PrimePool)
    (source : PrimeSource) : List ℕ → PrimePool → PrimeSource → Prop
  | first : IsRound A count extent pool source [] pool source
  | retry {discarded : List ℕ} {p : ℕ} {pool' pool₁ pool₂ : PrimePool}
      {source' source₁ source₂ : PrimeSource} :
      IsRound A count extent pool source discarded pool' source' →
      IsRetry A count extent pool' source' p pool₁ source₁ pool₂ source₂ →
      IsRound A count extent pool source (discarded ++ [p]) pool₂ source₂

/-- A pool of a certain size whose members, with the discarded primes, are all that the source has
handed out. -/
structure IsStocked (A : Mat n n) (start : Supply) (size : ℕ) (discarded : List ℕ)
    (pool : PrimePool) (source : PrimeSource) : Prop where
  genuine : pool.IsGenuine
  replaced : ∃ limit replacements handed,
    IsReplaced A limit start handed discarded pool ⟨source, replacements⟩ ∧
      ∀ p ∈ discarded, p ∈ handed
  length_eq : pool.primes.length = size

section Stocked

variable {A : Mat n n} {start : Supply} {bits count size : ℕ} {value : ℚ} {discarded : List ℕ}
  {pool pool' : PrimePool} {source source' : PrimeSource}

/-- A pool that has been filled holds as many primes as it was asked for. -/
theorem isStocked_of_fill (A : Mat n n) (hstart : start.source.IsRandom bits)
    {allowance : Allowance}
    (h : (PrimePool.empty 0 allowance).fill size start.source = (.ok (), pool, source)) :
    IsStocked A start size [] pool source := by
  obtain ⟨handed, htook⟩ := PrimePool.took_of_drawUntil h
  obtain ⟨hdrawn, -⟩ := PrimePool.drawn_of_drawUntil (PrimePool.isGenuine_empty 0 allowance)
    hstart.isGenuine h
  have hlength := PrimePool.length_of_fill (by exact_mod_cast Nat.zero_le size) h
  refine ⟨hdrawn.pool_genuine, ⟨"", start.replacements, handed, ?_, by simp⟩, ?_⟩
  · exact (isReplaced_empty A "" start allowance).took htook
  · exact_mod_cast hlength

namespace IsStocked

variable (h : IsStocked A start size discarded pool source)
include h

/-- Members and discarded primes are the distinct primes that have been handed out. -/
theorem exists_handsOut :
    ∃ handed, start.source.HandsOut handed source ∧
      (∀ q, q ∈ handed ↔ q ∈ pool.primes ∨ q ∈ discarded) ∧
      handed.toFinset.card = size + discarded.length := by
  obtain ⟨limit, replacements, handed, hreplaced, hdiscarded⟩ := h.replaced
  have hmem : ∀ q, q ∈ handed ↔ q ∈ pool.primes ∨ q ∈ discarded := by
    intro q
    rw [hreplaced.mem_iff]
    constructor
    · intro hq
      by_cases hqDiscarded : q ∈ discarded
      · exact .inr hqDiscarded
      · exact .inl ⟨hq, hqDiscarded⟩
    · rintro (⟨hq, -⟩ | hq)
      · exact hq
      · exact hdiscarded q hq
  have hnodup : (pool.primes ++ discarded).Nodup := by
    rw [List.nodup_append]
    refine ⟨pool.increasing.imp Nat.ne_of_lt, hreplaced.nodup, fun q hq r hr => ?_⟩
    rintro rfl
    exact ((hreplaced.mem_iff q).1 hq).2 hr
  refine ⟨handed, hreplaced.hands_out, hmem, ?_⟩
  have heq : handed.toFinset = (pool.primes ++ discarded).toFinset := by
    ext q
    rw [List.mem_toFinset, List.mem_toFinset, List.mem_append, hmem]
  rw [heq, List.toFinset_card_of_nodup hnodup, List.length_append, h.length_eq]

section Random

variable (hstart : start.source.IsRandom bits)
include hstart

theorem isRandom (hlow : 2 ≤ bits) (hhigh : bits ≤ 64) :
    source.IsRandom bits ∧ ∀ p ∈ pool.primes, HasBits bits p := by
  obtain ⟨handed, hhands, hmem, -⟩ := h.exists_handsOut
  obtain ⟨hsource, hbits⟩ := hstart.of_handsOut hlow hhigh hhands
  exact ⟨hsource, fun p hp => hbits p ((hmem p).2 (.inl hp))⟩

/-- The estimate is never short. -/
theorem covers (hlow : 3 ≤ bits) (hhigh : bits ≤ 64) (hvalue : 0 < value)
    (hsize : size = count + estimate bits value) : Covers value (pool.primes.drop count) := by
  have hlength : (pool.primes.drop count).length = estimate bits value := by
    rw [List.length_drop, h.length_eq, hsize, Nat.add_sub_cancel_left]
  have hpos := estimate_pos (by omega : 2 ≤ bits) hvalue
  obtain ⟨-, hbits⟩ := h.isRandom hstart (by omega) hhigh
  apply covers_of_hasBits (d := bits - 1)
  · exact List.ne_nil_of_length_pos (by omega)
  · exact pool.increasing.sublist (List.drop_sublist count _)
  · exact fun q hq => pool.le_max q (List.mem_of_mem_drop hq)
  · omega
  · rw [Nat.sub_add_cancel (by omega)]
    exact fun q hq => hbits q (List.mem_of_mem_drop hq)
  · rw [hlength]
    exact le_estimate_mul (by omega) value

/-- A replacement leaves a pool of the same size. -/
theorem retry (hlow : 3 ≤ bits) (hhigh : bits ≤ 64) (hvalue : 0 < value)
    (hsize : size = count + estimate bits value) {p : ℕ} {pool₁ pool₂ : PrimePool}
    {source₁ source₂ : PrimeSource}
    (hretry : IsRetry A count (.bits value) pool source p pool₁ source₁ pool₂ source₂) :
    IsStocked A start size (discarded ++ [p]) pool₂ source₂ := by
  obtain ⟨limit, replacements, handed, hreplaced, hdiscarded⟩ := h.replaced
  have hcovers := h.covers hstart hlow hhigh hvalue hsize
  have hsource := (h.isRandom hstart (by omega) hhigh).1.isGenuine
  have hallowed : discarded.length + 1 = discarded.length + (0 + 1) := rfl
  obtain ⟨later, hnext⟩ := hreplaced.retry hallowed h.genuine hsource hretry
  obtain ⟨s, hsplit, hp⟩ := hretry.split_eq
  rw [PrimePool.split_of_covers hcovers] at hsplit
  cases hsplit
  have hmem : p ∈ pool.primes := List.mem_of_mem_take hp
  refine ⟨(hretry.genuine h.genuine hsource).1, ⟨limit, _, _, hnext, fun q hq => ?_⟩, ?_⟩
  · rw [List.mem_append, List.mem_singleton] at hq
    apply List.mem_append_left
    rcases hq with hq | rfl
    · exact hdiscarded q hq
    · exact ((hreplaced.mem_iff q).1 hmem).1
  · obtain ⟨q, hdraw⟩ := hretry.draw_eq
    have hlength : (pool.discard p).primes.length = pool.primes.length - 1 :=
      List.length_erase_of_mem hmem
    have hpos := List.length_pos_of_mem hmem
    rw [PrimePool.length_of_draw hdraw, hlength, ← h.length_eq]
    omega

end Random

end IsStocked

/-- Every round keeps as many primes in stock. -/
theorem isStocked_of_isRound (hstart : start.source.IsRandom bits) (hlow : 3 ≤ bits)
    (hhigh : bits ≤ 64) (hvalue : 0 < value) (hsize : size = count + estimate bits value)
    (hfirst : IsStocked A start size [] pool source)
    (h : IsRound A count (.bits value) pool source discarded pool' source') :
    IsStocked A start size discarded pool' source' := by
  induction h with
  | first => exact hfirst
  | retry _ hretry ih => exact ih.retry hstart hlow hhigh hvalue hsize hretry

end Stocked

/-! ## The run of all rounds -/

/-- How the rounds end at a pool that is only cut: all lifting primes have inverses, or one of them
has none and is not replaced, or no prime comes in its place. -/
def EndsAt (A : Mat n n) (known : Known n) (count : ℕ) (value : ℚ) (discarded : List ℕ)
    (pool : PrimePool) (source : PrimeSource) (result : Except Fault (Moduli n))
    (last : PrimeSource) : Prop :=
  (∃ cs, channels (residuesOf A) known (pool.primes.take count) = .ok cs ∧
    result = .ok ⟨cs, (Extent.bits value).trim (pool.primes.drop count), discarded⟩ ∧
    last = source) ∨
  ∃ p ∈ pool.primes.take count,
    (∃ k, A.IsUnlucky p k ∧ result = .error (.lifting (.singular p k)) ∧ last = source) ∨
    ∃ f pool', (pool.discard p).draw source = (.error f, pool', last) ∧ result = .error f

section Run

variable {A : Mat n n} {known : Known n} {bits count size allowed retries : ℕ} {limit : String}
  {value : ℚ} {discarded : List ℕ} {pool first : PrimePool} {source origin : PrimeSource}
  {supply after : Supply} {result : Except Fault (Moduli n)}

/-- A round with a pool that covers is the last one, or a replacement follows. -/
theorem settle_of_covers (hpool : pool.IsGenuine) (hcovers : Covers value (pool.primes.drop count))
    (h : settle (residuesOf A) known allowed limit count (.bits value) retries discarded pool supply
      = (result, after)) :
    EndsAt A known count value discarded pool supply.source result after.source ∨
    ∃ left p pool₂ source₂ replacements, retries = left + 1 ∧
      IsRetry A count (.bits value) pool supply.source p pool supply.source pool₂ source₂ ∧
      settle (residuesOf A) known allowed limit count (.bits value) left (discarded ++ [p]) pool₂
        ⟨source₂, replacements⟩ = (result, after) := by
  -- A pool that covers is split without a draw, so only the inverses can send it to a next round.
  have hsplit := PrimePool.split_of_covers hcovers supply.source
  have hlifting : ∀ p ∈ pool.primes.take count, p.Prime ∧ p ≤ maxModulus := fun p hp =>
    have hmem := List.mem_of_mem_take hp
    ⟨(hpool p hmem).1, pool.le_max p hmem⟩
  unfold settle at h
  rw [hsplit] at h
  dsimp only at h
  split at h
  next cs hcs =>
    cases h
    exact .inl (.inl ⟨cs, hcs, rfl, rfl⟩)
  next p k left hchannels =>
    obtain ⟨p', hp', k', hunlucky, heq⟩ := isUnlucky_of_channels hlifting hchannels
    cases heq
    split at h
    next f pool' last hdraw =>
      cases h
      exact .inl (.inr ⟨p, hp', .inr ⟨f, pool', hdraw, rfl⟩⟩)
    next q pool₂ source₂ hdraw =>
      exact .inr ⟨left, p, pool₂, source₂, _, rfl,
        ⟨⟨_, hsplit, hp'⟩, ⟨k, hunlucky⟩, ⟨q, hdraw⟩⟩, h⟩
  next f hchannels _ =>
    obtain ⟨p, hp, k, hunlucky, rfl⟩ := isUnlucky_of_channels hlifting hchannels
    cases h
    exact .inl (.inr ⟨p, hp, .inl ⟨k, hunlucky, rfl, rfl⟩⟩)

/-- The rounds of a run are among those that can follow on its first split. -/
theorem exists_endsAt
    (hrounds : ∀ {discarded pool source},
      IsRound A count (.bits value) first origin discarded pool source →
        pool.IsGenuine ∧ Covers value (pool.primes.drop count))
    (hround : IsRound A count (.bits value) first origin discarded pool supply.source)
    (h : settle (residuesOf A) known allowed limit count (.bits value) retries discarded pool supply
      = (result, after)) :
    ∃ discarded' pool' source',
      IsRound A count (.bits value) first origin discarded' pool' source' ∧
      EndsAt A known count value discarded' pool' source' result after.source := by
  induction retries generalizing discarded pool supply with
  | zero =>
    obtain ⟨hpool, hcovers⟩ := hrounds hround
    rcases settle_of_covers hpool hcovers h with hends | ⟨left, _, _, _, _, hleft, -⟩
    · exact ⟨discarded, pool, supply.source, hround, hends⟩
    · cases hleft
  | succ retries ih =>
    obtain ⟨hpool, hcovers⟩ := hrounds hround
    rcases settle_of_covers hpool hcovers h with
      hends | ⟨left, p, pool₂, source₂, replacements, hleft, hretry, h⟩
    · exact ⟨discarded, pool, supply.source, hround, hends⟩
    · cases hleft
      exact ih (.retry hround hretry) h

/-- Primes of up to 26 bits are never too large. -/
theorem EndsAt.not_isOversized {last : PrimeSource} (hsource : source.IsRandom bits)
    (hlow : 2 ≤ bits) (hhigh : bits ≤ 26) {f : Fault}
    (h : EndsAt A known count value discarded pool source (.error f) last) : ¬ f.IsOversized := by
  rcases h with ⟨cs, -, hf, -⟩ | ⟨p, -, ⟨k, -, hf, -⟩ | ⟨f', pool', hdraw, hf⟩⟩
  · cases hf
  · cases hf
    exact not_false
  · cases hf
    exact PrimePool.not_isOversized_of_draw hsource hlow hhigh hdraw

end Run

end Selection

/-! ## The sources of settings -/

theorem Quantity.le_of_isWithin {q : Quantity} {low high k : ℤ} (hq : q.isWithin low high = true)
    (hk : q.integer? = some k) : k ≤ high := by
  unfold integer? at hk
  split at hk
  next v hv =>
    cases hk
    unfold isWithin isBelow at hq
    simp only [hv, Bool.and_eq_true, Bool.or_eq_true] at hq
    rcases hq.2 with hless | hsame
    · have hlt : (k : ℚ) < (high : ℤ) := of_decide_eq_true hless
      exact_mod_cast hlt.le
    · have heq : (k : ℚ) = (high : ℤ) := eq_of_beq hsame
      exact_mod_cast heq.le
  next => cases hk

namespace Settings

variable {fields : Document.Fields} {settings : Settings} {source : PrimeSource} {bits : ℕ}

/-- Settings that are read ask for primes of 3 to 26 bits. -/
theorem isWithin_primeBits_of_ofFields (h : ofFields fields = .ok settings) :
    settings.primeBits.isWithin 3 26 = true := by
  obtain ⟨_, -, h⟩ := Outcome.bind_eq_ok.1 h
  obtain ⟨primesCount, -, h⟩ := Outcome.bind_eq_ok.1 h
  obtain ⟨primeBits, hprimeBits, h⟩ := Outcome.bind_eq_ok.1 h
  obtain ⟨maxRetries, -, h⟩ := Outcome.bind_eq_ok.1 h
  obtain ⟨margin, -, h⟩ := Outcome.bind_eq_ok.1 h
  cases h
  obtain ⟨q, -, hadmitted⟩ := Outcome.bind_eq_ok.1 hprimeBits
  unfold admitPrimeBits at hadmitted
  split at hadmitted
  next hwithin =>
    cases hadmitted
    exact hwithin
  next => cases hadmitted

/-- Whatever settings are admitted, their random source has primes of at most 26 bits. -/
theorem bits_le_of_ofFields (h : ofFields fields = .ok settings)
    (hsource : settings.source = .ok source) (hrandom : source.IsRandom bits) : bits ≤ 26 := by
  have hwithin := isWithin_primeBits_of_ofFields h
  have hdocument : Quantity.ofDocument settings.primeBits.toDocument = .ok settings.primeBits := by
    cases settings.primeBits <;> rfl
  unfold Settings.source PrimeSource.ofDocuments at hsource
  rw [hdocument] at hsource
  obtain ⟨size, hsize, hsource⟩ := Outcome.bind_eq_ok.1 hsource
  cases hsize
  dsimp only at hsource
  split at hsource
  · cases hsource
  · obtain ⟨start, -, hsource⟩ := Outcome.bind_eq_ok.1 hsource
    split at hsource
    next k v tries hk _ _ =>
      cases hsource
      obtain rfl : k.toNat = bits := hrandom
      have hle := Quantity.le_of_isWithin hwithin hk
      omega
    next =>
      cases hsource
      cases hrandom
    next => cases hsource

end Settings

/-! ## The estimate -/

namespace Selection

/-- A round whose basis covers before anything is drawn. -/
structure NeedsNoDraw (start : PrimeSource) (bits count : ℕ) (value : ℚ) (discarded : List ℕ)
    (pool : PrimePool) (source : PrimeSource) : Prop where
  lt_prod : (2 : ℝ) ^ (value : ℝ) < ((pool.primes.drop count).prod : ℕ)
  split_eq : pool.split count (.bits value) source
    = (.ok ⟨pool.primes.take count, (Extent.bits value).trim (pool.primes.drop count)⟩, pool,
      source)
  /-- The pool has taken as many distinct primes as were estimated, and one for each of those that
  were discarded; the source has handed out no others. -/
  taken : ∃ handed, start.HandsOut handed source ∧
    (∀ q, q ∈ handed ↔ q ∈ pool.primes ∨ q ∈ discarded) ∧
    handed.toFinset.card = count + estimate bits value + discarded.length
  length_eq : pool.primes.length = count + estimate bits value

/-- For a random source the estimate of the basis is never short. Once a pool has been filled up to
it, no split of any round draws, in a run with any number of replacements; so the distinct primes
that are taken are those of the filling and one for each replacement. The primes of a source with up
to 26 bits are never too large, and settings that are admitted have no other random source. -/
theorem estimate_suffices {A : Mat n n} {known : Known n} {settings : Settings} {asked : Option ℤ}
    {supply after : Supply} {result : Except Fault (Moduli n)} {bits count : ℕ} {value : ℚ}
    (hsource : supply.source.IsRandom bits) (hlow : 3 ≤ bits) (hhigh : bits ≤ 62)
    (hA : A.maxAbs ≠ 0) (hmargin : settings.margin.toNumber.before (.whole 1) = false)
    (hextent : Extent.ofMargin A.maxAbs n settings.margin.toNumber = .ok (.bits value))
    (hcount : (requested settings asked).integer? = some (count : ℤ)) (hpos : 1 ≤ count)
    (h : fromPool (residuesOf A) known settings asked (.bits value) supply = (result, after)) :
    ((∃ f pool, (PrimePool.empty 0 settings.allowance).fill (count + estimate bits value : ℕ)
          supply.source = (.error f, pool, after.source) ∧ result = .error f) ∨
      ∃ pool source, (PrimePool.empty 0 settings.allowance).fill (count + estimate bits value : ℕ)
          supply.source = (.ok (), pool, source) ∧
        (∀ discarded pool' source',
          IsRound A count (.bits value) pool source discarded pool' source' →
            NeedsNoDraw supply.source bits count value discarded pool' source') ∧
        ∃ discarded pool' source',
          IsRound A count (.bits value) pool source discarded pool' source' ∧
          EndsAt A known count value discarded pool' source' result after.source) ∧
    (bits ≤ 26 → ∀ f, result = .error f → ¬ f.IsOversized) ∧
    ∀ {fields s source}, Settings.ofFields fields = .ok s → s.source = .ok source →
      source.IsRandom bits → bits ≤ 26 := by
  obtain ⟨hone, hdouble⟩ := Extent.isDouble_of_ofMargin (Nat.pos_of_ne_zero hA)
    (Mat.pos_of_maxAbs_ne_zero hA) hmargin hextent
  -- For a random source the choice is a filling up to the estimate and the rounds behind it.
  rw [fromPool_of_isRandom hsource hlow hhigh hdouble hone hcount hpos] at h
  rw [← and_assoc]
  refine ⟨?_, Settings.bits_le_of_ofFields⟩
  split at h
  next f pool source hfill =>
    cases h
    refine ⟨.inl ⟨f, pool, hfill, rfl⟩, fun hsmall f' hf' => ?_⟩
    cases hf'
    exact PrimePool.not_isOversized_of_drawUntil hsource (by omega) hsmall hfill
  next pool source hfill =>
    -- Every round begins with as many primes as the filling has left, so it covers without a draw.
    have hstocked : ∀ {discarded pool' source'},
        IsRound A count (.bits value) pool source discarded pool' source' →
          IsStocked A supply (count + estimate bits value) discarded pool' source' :=
      isStocked_of_isRound hsource hlow (by omega) (by linarith) rfl
        (isStocked_of_fill A hsource hfill)
    have hcovers : ∀ {discarded pool' source'},
        IsRound A count (.bits value) pool source discarded pool' source' →
          Covers value (pool'.primes.drop count) := fun hround =>
      (hstocked hround).covers hsource hlow (by omega) (by linarith) rfl
    obtain ⟨discarded, pool', source', hround, hends⟩ :=
      exists_endsAt (fun hround => ⟨(hstocked hround).genuine, hcovers hround⟩) .first h
    refine ⟨.inr ⟨pool, source, hfill, fun _ pool' source' hround => ?_, discarded, pool', source',
      hround, hends⟩, fun hsmall f hf => ?_⟩
    · exact ⟨(hcovers hround).lt_prod, PrimePool.split_of_covers (hcovers hround) source',
        (hstocked hround).exists_handsOut, (hstocked hround).length_eq⟩
    · subst hf
      have hrandom := ((hstocked hround).isRandom hsource (by omega) (by omega)).1
      exact hends.not_isOversized hrandom (by omega) hsmall

/-- For the matrix `17` and one lifting prime, three primes with 5 bits are drawn first. The
smallest of them is 17 itself, which is replaced by a fourth one. -/
theorem estimate_suffices_seventeen :
    ∃ (supply after : Supply) (m : Moduli 1) (value : ℚ) (pool : PrimePool) (source : PrimeSource),
      supply = ⟨.random 5 (.ofInt 1) 1000000 (PrimeSource.startState 1), []⟩ ∧
      Extent.ofMargin 17 1 (.double false 2) = .ok (.bits value) ∧
      fromPool (residuesOf ⟨#v[#v[17]]⟩) [] { primesCount := .ofInt 1 } none (.bits value) supply
        = (.ok m, after) ∧
      m.channels.map Channel.prime = [19] ∧ m.basis = [23, 29] ∧ m.discarded = [17] ∧
      (PrimePool.empty 0 (Settings.allowance {})).fill 3 supply.source
        = (.ok (), pool, source) ∧
      ∀ discarded pool' source',
        IsRound ⟨#v[#v[17]]⟩ 1 (.bits value) pool source discarded pool' source' →
          NeedsNoDraw supply.source 5 1 value discarded pool' source' := by
  have hextent : Extent.ofMargin 17 1 (.double false 2)
      = .ok (.bits (1713468461467923 / 281474976710656)) := by decide +kernel
  have hestimate : estimate 5 (1713468461467923 / 281474976710656) = 2 := by decide +kernel
  have hchosen : (fromPool (residuesOf ⟨#v[#v[17]]⟩) [] { primesCount := .ofInt 1 } none
      (.bits (1713468461467923 / 281474976710656))
      ⟨.random 5 (.ofInt 1) 1000000 (PrimeSource.startState 1), []⟩).1.map
        (fun m => (m.channels.map Channel.prime, m.basis, m.discarded))
      = .ok ([19], [23, 29], [17]) := by
    decide +kernel
  generalize hrun : fromPool (residuesOf ⟨#v[#v[17]]⟩) [] { primesCount := .ofInt 1 } none
    (.bits (1713468461467923 / 281474976710656))
    ⟨.random 5 (.ofInt 1) 1000000 (PrimeSource.startState 1), []⟩ = run at hchosen
  obtain ⟨result, after⟩ := run
  obtain ⟨m, rfl, hm⟩ := Outcome.map_eq_ok.1 hchosen
  simp only [Prod.mk.injEq] at hm
  obtain ⟨hprimes, hbasis, hdiscarded⟩ := hm
  have hnorm : (⟨#v[#v[17]]⟩ : Mat 1 1).maxAbs = 17 := by decide +kernel
  have hsource : (Supply.source
      ⟨.random 5 (.ofInt 1) 1000000 (PrimeSource.startState 1), []⟩).IsRandom 5 := rfl
  have hmargin : (Settings.margin { primesCount := .ofInt 1 }).toNumber.before (.whole 1) = false :=
    by decide +kernel
  have hcount : (requested { primesCount := .ofInt 1 } none).integer? = some ((1 : ℕ) : ℤ) := rfl
  obtain ⟨⟨f, pool, -, hf⟩ | ⟨pool, source, hfill, hrounds, -⟩, -⟩ :=
    estimate_suffices hsource (by decide) (by decide) (hnorm ▸ by decide) hmargin
      (hnorm.symm ▸ hextent) hcount le_rfl hrun
  · cases hf
  · rw [hestimate] at hfill
    exact ⟨_, after, m, _, pool, source, rfl, hextent, hrun, hprimes, hbasis, hdiscarded, hfill,
      hrounds⟩

end Selection
end PadicLift
