import PadicLift.Proofs.Lifting.Container
import PadicLift.Proofs.Lifting.Invariant

/-!
# Faults leave a container usable

A session is what a caller does with a container, in any order: steps, iterations, looking at
residuals, writing over the table of inverses, restoring it, and closing. The session keeps the
calls of `next` that it has made. Every operation keeps what is in `Session.IsKept`: the position is
the number of calls that returned, and the trace has one record for each. As long as all these calls
had the true table, the run with the true table is the run that has taken as many steps from the
start without any failure. So it goes on with the same digits.
-/

namespace PadicLift

variable {n l : ℕ}

/-! ## Sessions -/

/-- What can be done with a container. -/
inductive Operation
  | next
  /-- Takes digits one after the other, no more than `limit` of them. An iteration that does
  something else in between is several iterations. -/
  | iterate (limit : ℕ)
  | residual (j : ℤ)
  /-- Puts whole numbers into the table of inverses; any table of whole doubles is one of these. -/
  | overwrite (entries : ℕ → ℕ → ℤ)
  /-- Puts the inverses back into the table. -/
  | restore
  | close

/-- The table of a run, by plane and prime. -/
def Run.entries (run : Run n l) : ℕ → ℕ → ℤ := fun h j =>
  if hh : h < run.basis.size then if hj : j < l then run.table.entry ⟨h, hh⟩ ⟨j, hj⟩ else 0 else 0

/-- The table of a run is the given one. -/
def Run.HasTable (run : Run n l) (entries : ℕ → ℕ → ℤ) : Prop :=
  run.table = Mat.ofFn fun h j => entries h j

/-- A call of `next`. -/
structure Call (n l : ℕ) where
  result : Except Fault (Vector (Vector ℤ n) l)
  /-- The call was made with the true table. -/
  faithful : Prop

/-- The call has returned digits. -/
def Call.returned (c : Call n l) : Bool := c.result.isOk

/-- A container and the calls that have been made so far. -/
structure Session (n l : ℕ) where
  container : Container n l
  calls : List (Call n l)

namespace Session

/-- The number of calls that have returned. -/
def returned (s : Session n l) : ℕ := s.calls.countP Call.returned

/-- Calls `next`, where `entries` is the true table. -/
def call (entries : ℕ → ℕ → ℤ) (s : Session n l) : Session n l where
  container := s.container.next.2
  calls := s.calls ++ [⟨s.container.next.1, s.container.run.HasTable entries⟩]

/-- Calls `next` up to `limit` times, until all digits have been emitted or a call fails. -/
def iterate (entries : ℕ → ℕ → ℤ) : ℕ → Session n l → Session n l
  | 0, s => s
  | limit + 1, s =>
    if s.container.run.exhausted then s
    else if s.container.next.1.isOk then iterate entries limit (s.call entries)
    else s.call entries

/-- Performs one operation, where `entries` is the true table. -/
def perform (entries : ℕ → ℕ → ℤ) (s : Session n l) : Operation → Session n l
  | .next => s.call entries
  | .iterate limit => s.iterate entries limit
  | .residual _ => s
  | .overwrite other => { s with container := s.container.overwrite other }
  | .restore => { s with container := s.container.overwrite entries }
  | .close => { s with container := s.container.close }

end Session

/-- The container after `t` calls of `next`. -/
def Container.after (x : Container n l) (t : ℕ) : Container n l := (fun y => y.next.2)^[t] x

/-- A container takes its run through the steps of a run. -/
theorem Container.run_after (x : Container n l) (t : ℕ) : (x.after t).run = x.run.after t := by
  induction t generalizing x with
  | zero => rfl
  | succ t ih =>
    rw [after, Function.iterate_succ_apply, Run.after, Function.iterate_succ_apply]
    exact (ih _).trans (congrArg (Run.after · t) x.next_eq.2)

/-! ## What operations keep -/

namespace Run

/-- The run with the given table, open. -/
def restored (run : Run n l) (entries : ℕ → ℕ → ℤ) : Run n l :=
  { run with table := Mat.ofFn fun h j => entries h j, isOpen := true }

theorem restored_eq_self {run : Run n l} {entries : ℕ → ℕ → ℤ} (htable : run.HasTable entries)
    (hopen : run.isOpen = true) : run.restored entries = run := by
  cases run
  simp only [HasTable] at htable
  simp only [restored]
  rw [← htable, ← hopen]

theorem hasTable_entries (run : Run n l) : run.HasTable run.entries := by
  refine Mat.ext_entry fun h j => ?_
  rw [Mat.entry_ofFn, entries, dif_pos h.isLt, dif_pos j.isLt]

end Run

/-- What every operation keeps in a session that began with the run `first`. -/
structure Session.IsKept (first : Run n l) (s : Session n l) : Prop where
  plan_eq : s.container.run.plan = first.plan
  primes_eq : s.container.run.primes = first.primes
  position_eq : s.container.run.position = s.returned
  position_le : s.container.run.position ≤ first.plan.iterations
  /-- The steps are numbered from 1. -/
  trace_eq : s.container.run.trace.map (fun r => (r.iteration, r.total))
    = (List.range' 1 s.container.run.position).map (·, first.plan.iterations)
  /-- If all calls that returned had the true table, nothing has been lost. -/
  restored_eq : (∀ c ∈ s.calls, c.returned = true → c.faithful) →
    s.container.run.restored first.entries = first.after s.container.run.position

namespace Session

variable {first : Run n l} {s : Session n l}

/-- A call keeps what is kept. -/
theorem IsKept.call (h : s.IsKept first) : (s.call first.entries).IsKept first := by
  obtain ⟨hresult, hrun⟩ := s.container.next_eq
  generalize hnext : s.container.run.next = outcome at hresult hrun
  obtain ⟨result, later⟩ := outcome
  dsimp only at hresult hrun
  rw [Run.next_eq_nextWith] at hnext
  cases result with
  | error f =>
    -- The run has not changed, and the call does not count.
    obtain ⟨rfl, -⟩ := Run.nextWith_eq_error hnext
    have hreturned : (s.call first.entries).returned = s.returned := by
      simp [Session.returned, Session.call, hresult, Call.returned, Except.isOk, Except.toBool]
    obtain ⟨hplan, hprimes, hposition, hle, htrace, hrestored⟩ := h
    rw [← hrun] at hplan hprimes hposition hle htrace hrestored
    refine ⟨hplan, hprimes, hposition.trans hreturned.symm, hle, htrace, fun hall => ?_⟩
    exact hrestored fun c hc => hall c (List.mem_append_left _ hc)
  | ok digits =>
    obtain ⟨hfault, -, -, rfl⟩ := Run.nextWith_eq_ok hnext
    obtain ⟨hopen, hlt⟩ := Run.fault?_eq_none.1 hfault
    rw [h.plan_eq] at hlt
    have hreturned : (s.call first.entries).returned = s.returned + 1 := by
      simp [Session.returned, Session.call, hresult, Call.returned, Except.isOk, Except.toBool]
    have hposition : (s.call first.entries).container.run.position
        = s.container.run.position + 1 := congrArg Run.position hrun
    refine ⟨(congrArg Run.plan hrun).trans h.plan_eq, (congrArg Run.primes hrun).trans h.primes_eq,
      ?_, ?_, ?_, fun hall => ?_⟩
    · rw [hposition, hreturned, h.position_eq]
    · rw [hposition]
      exact hlt
    · have htrace : (s.call first.entries).container.run.trace = s.container.run.trace
          ++ [⟨s.container.run.position + 1, s.container.run.plan.iterations, _⟩] :=
        congrArg Run.trace hrun
      rw [htrace, hposition, List.map_append, h.trace_eq, h.plan_eq, List.range'_1_concat,
        List.map_append, Nat.add_comm 1]
      rfl
    · have htable : s.container.run.HasTable first.entries :=
        hall _ (List.mem_append_right _ List.mem_cons_self) (by
          simp [Call.returned, hresult, Except.isOk, Except.toBool])
      have hbefore := h.restored_eq fun c hc => hall c (List.mem_append_left _ hc)
      rw [Run.restored_eq_self htable hopen] at hbefore
      have hafter : (s.call first.entries).container.run = s.container.run.next.2 :=
        s.container.next_eq.2
      have hlater : (s.call first.entries).container.run.restored first.entries
          = (s.call first.entries).container.run := by
        refine Run.restored_eq_self ?_ ?_
        · exact hrun ▸ htable
        · exact hrun ▸ hopen
      rw [hlater, hposition, Run.after_succ, ← hbefore, hafter]

/-- So does an iteration. -/
theorem IsKept.iterate (limit : ℕ) (h : s.IsKept first) :
    (s.iterate first.entries limit).IsKept first := by
  induction limit generalizing s with
  | zero => exact h
  | succ limit ih =>
    unfold Session.iterate
    split
    · exact h
    · split
      · exact ih h.call
      · exact h.call

/-- Every operation keeps the invariant. -/
theorem IsKept.perform (h : s.IsKept first) (op : Operation) :
    (s.perform first.entries op).IsKept first := by
  cases op with
  | next => exact h.call
  | iterate limit => exact h.iterate limit
  | residual j => exact h
  | overwrite other =>
    exact ⟨h.plan_eq, h.primes_eq, h.position_eq, h.position_le, h.trace_eq, h.restored_eq⟩
  | restore =>
    exact ⟨h.plan_eq, h.primes_eq, h.position_eq, h.position_le, h.trace_eq, h.restored_eq⟩
  | close =>
    exact ⟨h.plan_eq, h.primes_eq, h.position_eq, h.position_le, h.trace_eq, h.restored_eq⟩

/-- So does every sequence of operations. -/
theorem IsKept.performAll (h : s.IsKept first) (ops : List Operation) :
    (ops.foldl (Session.perform first.entries) s).IsKept first := by
  induction ops generalizing s with
  | nil => exact h
  | cons op rest ih => exact ih (h.perform op)

/-- A new session has lost nothing. -/
theorem isKept_start {S : LinearSystem n} {plan : Plan n} {run : Run n plan.channels.length}
    (hrun : Run.IsStart S plan run) (htrace : run.trace = [])
    (buffers : Buffers run.basis.size n plan.channels.length) :
    Session.IsKept run ⟨⟨run, buffers⟩, []⟩ where
  plan_eq := rfl
  primes_eq := rfl
  position_eq := hrun.position_eq
  position_le := hrun.position_eq ▸ Nat.zero_le _
  trace_eq := by
    dsimp only
    rw [htrace, hrun.position_eq]
    rfl
  restored_eq := fun _ => by
    dsimp only
    rw [hrun.position_eq]
    exact Run.restored_eq_self run.hasTable_entries hrun.set_up.is_open

end Session

/-! ## Closing -/

theorem Run.isOpen_next (run : Run n l) : run.next.2.isOpen = run.isOpen := by
  generalize hnext : run.next = outcome
  obtain ⟨result, later⟩ := outcome
  rw [Run.next_eq_nextWith] at hnext
  cases result with
  | error f =>
    obtain ⟨rfl, -⟩ := Run.nextWith_eq_error hnext
    rfl
  | ok digits =>
    obtain ⟨-, -, -, rfl⟩ := Run.nextWith_eq_ok hnext
    rfl

namespace Session

variable (entries : ℕ → ℕ → ℤ) (s : Session n l)

theorem isOpen_call : (s.call entries).container.run.isOpen = s.container.run.isOpen := by
  rw [call, s.container.next_eq.2, Run.isOpen_next]

theorem isOpen_iterate (limit : ℕ) :
    (s.iterate entries limit).container.run.isOpen = s.container.run.isOpen := by
  induction limit generalizing s with
  | zero => rfl
  | succ limit ih =>
    unfold iterate
    split
    · rfl
    · split
      · rw [ih, isOpen_call]
      · exact s.isOpen_call entries

/-- Only closing ends a run. -/
theorem isOpen_perform (op : Operation) : (s.perform entries op).container.run.isOpen = true ↔
    s.container.run.isOpen = true ∧ Operation.close ≠ op := by
  cases op with
  | next => simp [perform, isOpen_call]
  | iterate limit => simp [perform, isOpen_iterate]
  | residual j => simp [perform]
  | overwrite other => simp [perform, Container.overwrite]
  | restore => simp [perform, Container.overwrite]
  | close => simp [perform, Container.close, Run.close]

theorem isOpen_performAll (ops : List Operation) :
    (ops.foldl (Session.perform entries) s).container.run.isOpen = true ↔
      s.container.run.isOpen = true ∧ Operation.close ∉ ops := by
  induction ops generalizing s with
  | nil => simp
  | cons op rest ih =>
    rw [List.foldl_cons, ih, isOpen_perform, List.mem_cons, not_or, and_assoc]

end Session

/-- A closed container yields neither digits nor residuals. -/
theorem Container.eq_closed {x : Container n l} (h : x.run.isOpen = false) :
    x.next.1 = .error (.lifting .closed) ∧ ∀ j, x.residual j = .error (.lifting .closed) := by
  have hfault : x.run.fault? = some (.lifting .closed) := by
    rw [Run.fault?, h]
    rfl
  refine ⟨?_, fun j => ?_⟩
  · rw [next, hfault]
  · rw [residual, Run.residual, h]
    rfl

/-! ## Faults and recovery -/

/-- Why a call of `next` fails: the run is closed, it has emitted all digits, or a check of the next
step fails. -/
def Run.FailsWith (run : Run n l) (f : Fault) : Prop :=
  (run.isOpen = false ∧ f = .lifting .closed) ∨
  (run.isOpen = true ∧ run.position = run.plan.iterations ∧
    f = .lifting (.digitsExhausted run.plan.iterations)) ∨
  (run.isOpen = true ∧ run.position < run.plan.iterations ∧
    ∃ j, f.IsFailedCheck (run.primes.get j) run.position)

/-- A failed step of a container leaves its run as it was, and is a failure of the run. -/
theorem Container.failsWith_of_next {x later : Container n l} {f : Fault}
    (hle : x.run.position ≤ x.run.plan.iterations) (h : x.next = (.error f, later)) :
    later.run = x.run ∧ x.run.FailsWith f := by
  have hnext : x.run.next = (.error f, later.run) := by
    obtain ⟨hresult, hrun⟩ := x.next_eq
    rw [h] at hresult hrun
    exact Prod.ext hresult.symm hrun.symm
  rw [Run.next_eq_nextWith] at hnext
  obtain ⟨hlater, hfault | ⟨hnone, hcheck⟩⟩ := Run.nextWith_eq_error hnext
  · refine ⟨hlater, ?_⟩
    rcases Run.fault?_eq_some hfault with hclosed | ⟨hopen, hge, rfl⟩
    · exact .inl hclosed
    · exact .inr (.inl ⟨hopen, le_antisymm hle hge, rfl⟩)
  · obtain ⟨hopen, hlt⟩ := Run.fault?_eq_none.1 hnone
    exact ⟨hlater, .inr (.inr ⟨hopen, hlt, hcheck⟩)⟩

/-- Whatever is done with a container, and whatever its arrays held at the start: the position
counts the calls of `next` that returned, and the trace numbers them; a call that fails changes
neither the position nor a residual; and if all calls that returned had the true table, then once
the table is restored the next digits are those of a run in which nothing failed. The run stays open
until it is closed, and from then on there are neither digits nor residuals. -/
theorem SomeRun.perform_recovers {a b : Nested} {settings : Settings} {choice : Selection.Choice}
    {supplied : List (ℤ × Nested)} {supply after : Supply} {r : SomeRun}
    (hsource : supply.source.IsGenuine)
    (hstart : SomeRun.start a b settings choice supplied supply = (.ok r, after))
    (buffers : Buffers r.run.basis.size r.size r.width) (ops : List Operation) :
    let s := ops.foldl (Session.perform r.run.entries) ⟨⟨r.run, buffers⟩, []⟩
    let run := s.container.run
    run.position = s.returned ∧ run.position ≤ r.run.plan.iterations ∧
    run.trace.map (fun r => (r.iteration, r.total))
      = (List.range' 1 run.position).map (·, r.run.plan.iterations) ∧
    (∀ f later, s.container.next = (.error f, later) →
      later.run.position = run.position ∧ (∀ j, later.residual j = s.container.residual j) ∧
        run.FailsWith f) ∧
    ((∀ c ∈ s.calls, c.returned = true → c.faithful) → run.isOpen = true →
      ∀ k, run.position + k < r.run.plan.iterations → ∃ digits,
        ((s.perform r.run.entries .restore).container.after k).next.1 = .ok digits ∧
        (r.run.after (run.position + k)).next.1 = .ok digits) ∧
    (run.isOpen = true ↔ Operation.close ∉ ops) ∧
    (Operation.close ∈ ops → s.container.next.1 = .error (.lifting .closed) ∧
      ∀ j, s.container.residual j = .error (.lifting .closed)) := by
  obtain ⟨n, S, plan, first, hread, hselect, hstartRun, rfl⟩ := SomeRun.start_eq_ok hstart
  have hplan := Selection.isFor_of_selectFor hsource hselect
  have hfirst := Run.isStart_of_start hplan hstartRun
  dsimp only at buffers ⊢
  -- What every operation keeps gives the counts; whether the run is open depends on `close` alone.
  have hkept :=
    (Session.isKept_start hfirst (Run.settings_of_start hstartRun).2 buffers).performAll ops
  have hisOpen := Session.isOpen_performAll first.entries ⟨⟨first, buffers⟩, []⟩ ops
  set s := ops.foldl (Session.perform first.entries) ⟨⟨first, buffers⟩, []⟩
  have hclosed : s.container.run.isOpen = true ↔ Operation.close ∉ ops :=
    hisOpen.trans (and_iff_right hfirst.set_up.is_open)
  refine ⟨hkept.position_eq, hkept.position_le, hkept.trace_eq, fun f later h => ?_,
    fun hall hopen k hk => ?_, hclosed, fun hclose => Container.eq_closed ?_⟩
  · obtain ⟨hlater, hfails⟩ := Container.failsWith_of_next
      (hkept.plan_eq ▸ hkept.position_le) h
    exact ⟨congrArg Run.position hlater, fun j => congrArg (Run.residual · j) hlater, hfails⟩
  · -- With the table back the container has the run that made as many steps without a failure.
    have hrestored : (s.perform first.entries .restore).container.run
        = first.after s.container.run.position := by
      rw [← hkept.restored_eq hall, Run.restored, ← hopen]
      rfl
    have hlater : ((s.perform first.entries .restore).container.after k).run
        = first.after (s.container.run.position + k) := by
      rw [Container.run_after, hrestored, Run.after, Run.after, Run.after, Nat.add_comm,
        Function.iterate_add_apply]
    have hafter : first.IsAfter (first.after (s.container.run.position + k))
        (s.container.run.position + k) :=
      Run.isAfter_after hfirst.set_up (by rw [hfirst.position_eq]; omega)
    have hdigits := hafter.next_eq_digitsAt (by rw [hfirst.position_eq]; omega)
    refine ⟨_, ?_, hdigits⟩
    rw [(Container.next_eq _).1, hlater]
    exact hdigits
  · exact Bool.eq_false_iff.2 fun hopen => hclosed.1 hopen hclose

/-- The system `2 x + y = 3`, `x + 3 y = -5`, lifted in the bases 7 and 11 with all checks. With
zeros for the inverses the first call fails, and with the inverses the second one returns. -/
theorem SomeRun.perform_recovers_after_zeros : ∃ r after,
    SomeRun.start (.list [.list [.entry 2, .entry 1], .list [.entry 1, .entry 3]])
      (.list [.entry 3, .entry (-5)]) { verifySteps := .bool true } (.given [11, 7]) []
      (.ofSource (.listed 1 7 [101])) = (.ok r, after) ∧
    let s := [Operation.overwrite fun _ _ => 0, .next, .restore, .next].foldl
      (Session.perform r.run.entries) ⟨.ofRun r.run, []⟩
    s.calls.map Call.returned = [false, true] ∧ s.container.run.position = 1 ∧
    ∃ digits, ((s.perform r.run.entries .restore).container.after 0).next.1 = .ok digits ∧
      (r.run.after 1).next.1 = .ok digits := by
  have hsource : (Supply.ofSource (.listed 1 7 [101])).source.IsGenuine :=
    PrimeSource.isGenuine_of_all (by decide +kernel)
  have hcalls : (SomeRun.start (.list [.list [.entry 2, .entry 1], .list [.entry 1, .entry 3]])
      (.list [.entry 3, .entry (-5)]) { verifySteps := .bool true } (.given [11, 7]) []
      (.ofSource (.listed 1 7 [101]))).1.map (fun r =>
        let s := [Operation.overwrite fun _ _ => 0, .next, .restore, .next].foldl
          (Session.perform r.run.entries) ⟨.ofRun r.run, []⟩
        (s.calls.map Call.returned, r.run.plan.iterations, s.container.run.isOpen))
      = .ok ([false, true], 2, true) := by
    decide +kernel
  generalize hstart : SomeRun.start _ _ _ _ _ _ = outcome at hcalls
  obtain ⟨result, after⟩ := outcome
  obtain ⟨r, rfl, hr⟩ := Outcome.map_eq_ok.1 hcalls
  dsimp only at hr
  rw [Prod.mk.injEq, Prod.mk.injEq] at hr
  obtain ⟨hreturned, hiterations, hopen⟩ := hr
  obtain ⟨hposition, -, -, -, hrecovers, -⟩ := SomeRun.perform_recovers hsource hstart
    (.zero ..) [Operation.overwrite fun _ _ => 0, .next, .restore, .next]
  rw [Session.returned, ← Function.id_comp Call.returned, ← List.countP_map] at hposition
  have hone : _ = 1 := hposition.trans (congrArg (List.countP id) hreturned)
  have hfailed := (List.cons.inj hreturned).1
  refine ⟨r, after, rfl, hreturned, hone, ?_⟩
  rw [hone] at hrecovers
  refine hrecovers (fun c hc hc' => ?_) hopen 0 (by omega)
  -- Of the two calls, the first one failed and the second one had the inverses.
  rcases List.mem_cons.1 hc with rfl | hc
  · cases hc'.symm.trans hfailed
  · rw [List.mem_singleton.1 hc]
    rfl

end PadicLift
