import Mathlib.Data.List.Forall2

/-!
# Computations that may stop

How the success of a composed computation comes from the success of its parts.
-/

namespace PadicLift
namespace Outcome

variable {α β ε : Type}

theorem bind_eq_ok {x : Except ε α} {f : α → Except ε β} {b : β} :
    x >>= f = .ok b ↔ ∃ a, x = .ok a ∧ f a = .ok b := by
  cases x <;> simp [bind, Except.bind]

theorem map_eq_ok {x : Except ε α} {f : α → β} {b : β} :
    x.map f = .ok b ↔ ∃ a, x = .ok a ∧ f a = b := by
  cases x <;> simp [Except.map]

theorem bind_eq_error {x : Except ε α} {f : α → Except ε β} {e : ε} :
    x >>= f = .error e ↔ x = .error e ∨ ∃ a, x = .ok a ∧ f a = .error e := by
  cases x <;> simp [bind, Except.bind]

theorem map_eq_error {x : Except ε α} {f : α → β} {e : ε} : x.map f = .error e ↔ x = .error e := by
  cases x <;> simp [Except.map]

theorem pure_eq_ok {a b : α} : (pure a : Except ε α) = .ok b ↔ a = b := by
  simp [pure, Except.pure]

/-- Every member succeeds, with the results in order. -/
theorem mapM_eq_ok_iff {f : α → Except ε β} {xs : List α} {ys : List β} :
    xs.mapM f = .ok ys ↔ List.Forall₂ (fun x y => f x = .ok y) xs ys := by
  induction xs generalizing ys with
  | nil =>
    rw [List.mapM_nil, pure_eq_ok, List.forall₂_nil_left_iff]
    exact eq_comm
  | cons x rest ih =>
    rw [List.mapM_cons, bind_eq_ok, List.forall₂_cons_left_iff]
    constructor
    · rintro ⟨y, hy, h⟩
      obtain ⟨zs, hzs, h⟩ := bind_eq_ok.1 h
      rw [pure_eq_ok] at h
      exact ⟨y, zs, hy, ih.1 hzs, h.symm⟩
    · rintro ⟨y, zs, hy, hzs, rfl⟩
      exact ⟨y, hy, bind_eq_ok.2 ⟨zs, ih.2 hzs, rfl⟩⟩

theorem exists_mem_of_mapM_eq_ok {f : α → Except ε β} {xs : List α} {ys : List β}
    (h : xs.mapM f = .ok ys) {x : α} (hx : x ∈ xs) : ∃ y ∈ ys, f x = .ok y := by
  have hall := mapM_eq_ok_iff.1 h
  clear h
  induction hall with
  | nil => exact absurd hx List.not_mem_nil
  | cons hy _ ih =>
    rcases List.mem_cons.1 hx with rfl | hx
    · exact ⟨_, List.mem_cons_self, hy⟩
    · obtain ⟨z, hz, hfz⟩ := ih hx
      exact ⟨z, List.mem_cons_of_mem _ hz, hfz⟩

theorem exists_of_mapM_eq_ok {f : α → Except ε β} {xs : List α} {ys : List β}
    (h : xs.mapM f = .ok ys) {x : α} (hx : x ∈ xs) : ∃ y, f x = .ok y := by
  obtain ⟨y, -, hy⟩ := exists_mem_of_mapM_eq_ok h hx
  exact ⟨y, hy⟩

theorem mapM_congr {f g : α → Except ε β} {xs : List α} (h : ∀ x ∈ xs, f x = g x) :
    xs.mapM f = xs.mapM g := by
  induction xs with
  | nil => rfl
  | cons x rest ih =>
    rw [List.forall_mem_cons] at h
    rw [List.mapM_cons, List.mapM_cons, h.1, ih h.2]

/-- What is done to each result is done to all of them. -/
theorem mapM_map {γ : Type} (f : α → Except ε β) (g : β → γ) (xs : List α) :
    xs.mapM (fun x => (f x).map g) = (xs.mapM f).map (List.map g) := by
  induction xs with
  | nil => rfl
  | cons x rest ih =>
    rw [List.mapM_cons, List.mapM_cons, ih]
    cases f x with
    | error e => rfl
    | ok y => cases rest.mapM f <;> rfl

/-- The first member that fails says why. -/
theorem mapM_eq_error_iff {f : α → Except ε β} {xs : List α} {e : ε} :
    xs.mapM f = .error e ↔ ∃ before x later, xs = before ++ x :: later ∧
      (∀ y ∈ before, ∃ z, f y = .ok z) ∧ f x = .error e := by
  induction xs with
  | nil =>
    constructor
    · intro h
      cases h
    · rintro ⟨before, x, later, heq, -, -⟩
      exact absurd heq.symm (List.append_ne_nil_of_right_ne_nil _ (List.cons_ne_nil x later))
  | cons x rest ih =>
    rw [List.mapM_cons, bind_eq_error]
    constructor
    · rintro (hx | ⟨y, hy, h⟩)
      · exact ⟨[], x, rest, rfl, by simp, hx⟩
      · rcases bind_eq_error.1 h with hrest | ⟨ys, -, h⟩
        · obtain ⟨before, z, later, rfl, hbefore, hz⟩ := ih.1 hrest
          exact ⟨x :: before, z, later, rfl, List.forall_mem_cons.2 ⟨⟨y, hy⟩, hbefore⟩, hz⟩
        · cases h
    · rintro ⟨before, z, later, heq, hbefore, hz⟩
      cases before with
      | nil =>
        obtain ⟨rfl, rfl⟩ := List.cons.inj heq
        exact .inl hz
      | cons y before =>
        obtain ⟨rfl, rfl⟩ := List.cons.inj heq
        rw [List.forall_mem_cons] at hbefore
        obtain ⟨⟨u, hu⟩, hbefore⟩ := hbefore
        exact .inr ⟨u, hu, bind_eq_error.2 (.inl (ih.2 ⟨before, z, later, rfl, hbefore, hz⟩))⟩

/-- A failure of a list is that of one of its members. -/
theorem exists_mem_of_mapM_eq_error {f : α → Except ε β} {xs : List α} {e : ε}
    (h : xs.mapM f = .error e) : ∃ x ∈ xs, f x = .error e := by
  obtain ⟨before, x, later, rfl, -, hx⟩ := mapM_eq_error_iff.1 h
  exact ⟨x, List.mem_append_right before List.mem_cons_self, hx⟩

/-- What has a result for all members has one for each. -/
theorem isSome_of_mapM {f : α → Option β} {xs : List α} {ys : List β}
    (h : xs.mapM f = some ys) {x : α} (hx : x ∈ xs) : (f x).isSome = true := by
  induction xs generalizing ys with
  | nil => exact absurd hx List.not_mem_nil
  | cons y rest ih =>
    rw [List.mapM_cons] at h
    obtain ⟨z, hz, h⟩ := Option.bind_eq_some_iff.1 h
    obtain ⟨zs, hzs, -⟩ := Option.bind_eq_some_iff.1 h
    rcases List.mem_cons.1 hx with rfl | hx
    · rw [hz]
      rfl
    · exact ih hzs hx

/-- Every member succeeds. -/
theorem forM_eq_ok_iff {f : α → Except ε Unit} {xs : List α} :
    xs.forM f = .ok () ↔ ∀ x ∈ xs, f x = .ok () := by
  induction xs with
  | nil => exact ⟨fun _ x hx => absurd hx List.not_mem_nil, fun _ => rfl⟩
  | cons x rest ih =>
    rw [List.forM_eq_forM, List.forM_cons, bind_eq_ok, ← List.forM_eq_forM, List.forall_mem_cons]
    constructor
    · rintro ⟨u, hx, hrest⟩
      exact ⟨hx, ih.1 hrest⟩
    · rintro ⟨hx, hrest⟩
      exact ⟨(), hx, ih.2 hrest⟩

/-- Some member fails. -/
theorem exists_mem_of_forM_eq_error {f : α → Except ε Unit} {xs : List α} {e : ε}
    (h : xs.forM f = .error e) : ∃ x ∈ xs, f x = .error e := by
  induction xs with
  | nil => cases h
  | cons x rest ih =>
    rw [List.forM_eq_forM, List.forM_cons, bind_eq_error, ← List.forM_eq_forM] at h
    rcases h with hx | ⟨u, -, hrest⟩
    · exact ⟨x, List.mem_cons_self, hx⟩
    · obtain ⟨y, hy, he⟩ := ih hrest
      exact ⟨y, List.mem_cons_of_mem x hy, he⟩

/-! ## Loops over positions -/

/-- A loop fails where one of its steps does. -/
theorem exists_mem_of_foldlM_eq_error {σ : Type} {f : σ → α → Except ε σ} {xs : List α} {s : σ}
    {e : ε} (h : xs.foldlM f s = .error e) : ∃ x ∈ xs, ∃ t, f t x = .error e := by
  induction xs generalizing s with
  | nil => cases h
  | cons x rest ih =>
    rw [List.foldlM_cons, bind_eq_error] at h
    rcases h with hx | ⟨t, -, hrest⟩
    · exact ⟨x, List.mem_cons_self, s, hx⟩
    · obtain ⟨y, hy, hstep⟩ := ih hrest
      exact ⟨y, List.mem_cons_of_mem x hy, hstep⟩

section Loops

variable {σ : Type} {n : ℕ} {f : σ → Fin n → Except ε σ} {s : σ}

/-- What every step preserves holds after each part of a loop that succeeds. -/
theorem foldlM_take_finRange_invariant (I : ℕ → σ → Prop)
    (hstep : ∀ (c : Fin n) s s', I c s → f s c = .ok s' → I (c + 1) s') (hs : I 0 s) {k : ℕ}
    (hk : k ≤ n) {s' : σ} (h : ((List.finRange n).take k).foldlM f s = .ok s') : I k s' := by
  induction k generalizing s' with
  | zero =>
    cases h
    exact hs
  | succ k ih =>
    have hlength : k < (List.finRange n).length := by
      rw [List.length_finRange]
      omega
    rw [List.take_succ_eq_append_getElem hlength, List.foldlM_append, bind_eq_ok] at h
    obtain ⟨t, ht, h⟩ := h
    rw [List.foldlM_cons, bind_eq_ok] at h
    obtain ⟨u, hu, h⟩ := h
    cases h
    rw [List.getElem_finRange] at hu
    exact hstep ⟨k, hk⟩ t s' (ih (by omega) ht) hu

/-- A loop succeeds if no step fails where the invariant holds. -/
theorem exists_foldlM_finRange (I : ℕ → σ → Prop)
    (hstep : ∀ (c : Fin n) s, I c s → ∃ s', f s c = .ok s' ∧ I (c + 1) s') (hs : I 0 s) :
    ∃ s', (List.finRange n).foldlM f s = .ok s' ∧ I n s' := by
  induction n with
  | zero => exact ⟨s, rfl, hs⟩
  | succ n ih =>
    obtain ⟨t, ht, hI⟩ := ih (f := fun s c => f s c.castSucc) fun c s => hstep c.castSucc s
    obtain ⟨u, hu, hI⟩ := hstep (Fin.last n) t hI
    refine ⟨u, ?_, hI⟩
    rw [List.finRange_succ_last, List.foldlM_append, List.foldlM_map, bind_eq_ok]
    refine ⟨t, ht, ?_⟩
    rw [List.foldlM_cons, hu]
    rfl

end Loops

end Outcome
end PadicLift
