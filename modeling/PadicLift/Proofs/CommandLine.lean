import PadicLift.Proofs.Solution.Check
import PadicLift.Proofs.Solution.Logged
import PadicLift.Proofs.Solution.Printed

/-!
# Exit codes tell the truth

A session that gets as far as solving ends as the solve and the check of its solution say. For a
system of integers the check is decisive, so exit code 0 stands for printed fractions that solve the
system in the file, 2 for a returned solution that does not, and 1 for a failure of the lifting
family. That holds for every reader of documents, whatever the settings and the options are, and
whether or not logs are kept.
-/

namespace PadicLift

/-! ## Fields of a mapping -/

/-- A key is the same as a text only if it is this text. -/
theorem Key.same_text_iff {k : Key} {t : Text} : k.same (.text t) = true ↔ k = .text t := by
  cases k <;> simp [Key.same, Key.number?]

namespace Document

/-- The mapping has this field of the given name, and no other one. -/
def HasField (fields : Fields) (name : String) (value : Document) : Prop :=
  ∀ d, (Key.text name, d) ∈ fields ↔ d = value

theorem HasField.field?_eq {fields : Fields} {name : String} {value : Document}
    (h : HasField fields name value) : field? fields name = some value := by
  have hfound : (fields.find? fun f => f.1.same (.text name)).isSome = true := by
    rw [List.find?_isSome]
    exact ⟨_, (h value).2 rfl, Key.same_text_iff.2 rfl⟩
  obtain ⟨f, hf⟩ := Option.isSome_iff_exists.1 hfound
  have hkey : f.1 = .text name := Key.same_text_iff.1 (List.find?_eq_some_iff_append.1 hf).1
  have hvalue : f.2 = value := by
    rw [← h f.2, ← hkey]
    exact List.mem_of_find?_eq_some hf
  rw [field?, hf, Option.map_some, hvalue]

end Document

namespace CommandLine

variable {read : Reader} {files : Files} {o : Options} {a b : Document}

/-! ## What a session works on -/

/-- The file at the path holds a mapping, as the reader tells, whose fields `A` and `b` are the
matrix and the right side. -/
def HoldsSystem (read : Reader) (files : Files) (path : String) (a b : Document) : Prop :=
  ∃ text fields, files path = some (.file text) ∧ read text = .ok (.mapping fields) ∧
    Document.HasField fields "A" a ∧ Document.HasField fields "b" b

/-- The lists of a file that holds a system are read. -/
theorem HoldsSystem.readSystem_eq {path : String} (h : HoldsSystem read files path a b) :
    readSystem read files path = .ok (a, b) := by
  obtain ⟨text, fields, hfile, hread, ha, hb⟩ := h
  have htext : readFile files path = .ok text := by
    rw [readFile, hfile]
  unfold readSystem
  rw [htext]
  dsimp only [bind, Except.bind]
  rw [hread]
  dsimp only
  rw [ha.field?_eq, hb.field?_eq]
  rfl

/-- What the solve of a system comes to under some settings, from a new source of primes. -/
def solveFor (settings : Settings) (choice : Selection.Choice) (a b : Nested) :
    Except Fault Solution := do
  let source ← settings.source
  (Solution.solve a b settings choice [] (Supply.ofSource source)).1

/-- The session gets as far as solving the system of the given matrix and right side, and this is
what the solve comes to. -/
def Solves (read : Reader) (files : Files) (o : Options) (a b : Document)
    (result : Except Fault Solution) : Prop :=
  ∃ settings size logged, readSettings read files o = .ok settings ∧ a.extent = .ok size ∧
    openLogs files o settings = .ok logged ∧
    result = solveFor settings (choiceOf o.primes) a.outline b.outline

/-! ## What a session prints -/

/-- Whatever the time that the solve took, the last that a session prints is the verdict on the
check, a line for each of the fractions and one for the denominator. Their texts read back to
them. -/
def Session.Reports (s : Session) (verdict : String) (xs : List ℚ) (denominator : ℤ) : Prop :=
  ∀ elapsed, ∃ front fractions last,
    List.Forall₂ (fun t x => Fraction.ofText? t = some x) fractions xs ∧
    last.toInt? = some denominator ∧
    s.output elapsed
      = front ++ "  check: " ++ verdict ++ "\n" ++ solutionLines fractions last ++ "\n"

/-- A session that ends with a solution reports it. -/
theorem reports_of_ending {s : Session} {x : Solution} {xs : List ℚ} {passed : Bool}
    (h : s.ending = .solved x xs passed) (hxs : xs ≠ []) :
    s.Reports (if passed then "PASS" else "FAIL") xs x.denominator := by
  intro elapsed
  refine ⟨s.heading ++ circumstances elapsed x, xs.map Fraction.text, toString x.denominator, ?_,
    Int.toInt?_repr _, ?_⟩
  · rw [List.forall₂_map_left_iff, List.forall₂_same]
    exact fun q _ => Fraction.ofText?_text q
  · rw [Session.output, h, Ending.report, writeIndented_resultDocument x hxs]
    simp only [String.append_assoc]

/-! ## The result of the solve -/

/-- The fractions that a solution stands for. -/
def values (x : Solution) : List ℚ := x.numerators.map fun (v : ℤ) => (v : ℚ) / x.denominator

theorem eq_values {x : Solution} {xs : List ℚ} (h : x.fractions = .ok xs) : xs = values x := by
  unfold Solution.fractions at h
  split at h
  · cases h
  · exact (Except.ok.inj h).symm

theorem values_ne_nil {n : ℕ} {x : Solution} (hx : x.HasShape n) (hn : 0 < n) : values x ≠ [] := by
  have hlength : (values x).length = n := by
    rw [values, List.length_map, hx.length_eq]
  exact List.ne_nil_of_length_pos (by omega)

/-- Keeping logs makes no difference to the result. -/
theorem Inputs.solve_eq (inputs : Inputs) (primes : Option (List ℤ)) (logged : Bool) :
    (inputs.solve primes logged).1 = solveFor inputs.settings (choiceOf primes)
      inputs.matrix.outline inputs.right.outline := by
  unfold Inputs.solve solveFor
  dsimp only
  cases inputs.settings.source with
  | error f => rfl
  | ok source =>
    cases logged with
    | false => rfl
    | true => exact Journal.solve_eq Journal.isReady_new _ _ _ _ _ _

/-- Only a fault of the lifting family has an exit code, and the code is 1. -/
theorem exitCode_ofFault {f : Fault} {code : ℕ} :
    (Ending.ofFault f).exitCode = some code ↔ code = 1 ∧ ∃ g, f = .lifting g := by
  cases f <;> simp [Ending.ofFault, Ending.exitCode, eq_comm]

/-- What is returned for integers is meant for a system that they hold. -/
theorem exists_isIn_of_solveFor {settings : Settings} {choice : Selection.Choice} {c d : Nested}
    (hc : c.IsIntegral) (hd : d.IsIntegral) {x : Solution}
    (h : solveFor settings choice c d = .ok x) :
    ∃ (n : ℕ) (L : LinearSystem n), L.IsIn c d ∧ x.HasShape n := by
  obtain ⟨source, -, hsolve⟩ := Outcome.bind_eq_ok.1 h
  exact Solution.exists_isIn_of_solveWith hc hd hsolve

section System

variable (hsystem : HoldsSystem read files o.input a b)
include hsystem

/-- A session with a result ends as the result and its check say. -/
theorem ending_of_solves {result : Except Fault Solution} (h : Solves read files o a b result) :
    ∃ settings size, (runWith read files o).ending
      = Inputs.conclude ⟨settings, a, b, size⟩ result := by
  obtain ⟨settings, size, logged, hsettings, hsize, hopened, rfl⟩ := h
  -- What the session gets as far as says what its inputs are.
  have hinputs : readInputs read files o = .ok ⟨settings, a, b, size⟩ := by
    unfold readInputs
    rw [hsettings]
    dsimp only [bind, Except.bind]
    rw [hsystem.readSystem_eq]
    dsimp only
    rw [hsize]
    rfl
  refine ⟨settings, size, ?_⟩
  unfold runWith
  rw [hinputs]
  dsimp only
  rw [hopened]
  dsimp only
  rw [Inputs.solve_eq]

/-- Only a session with a result has an exit code. -/
theorem exists_solves {code : ℕ} (h : (runWith read files o).ending.exitCode = some code) :
    ∃ result, Solves read files o a b result := by
  unfold runWith at h
  cases hread : readInputs read files o with
  | error f =>
    rw [hread] at h
    cases h
  | ok inputs =>
    rw [hread] at h
    dsimp only at h
    cases hopened : openLogs files o inputs.settings with
    | error f =>
      rw [hopened] at h
      cases h
    | ok logged =>
      obtain ⟨settings, hsettings, hread⟩ := Outcome.bind_eq_ok.1 hread
      obtain ⟨system, hreadSystem, hread⟩ := Outcome.bind_eq_ok.1 hread
      rw [hsystem.readSystem_eq] at hreadSystem
      cases hreadSystem
      obtain ⟨size, hsize, hread⟩ := Outcome.bind_eq_ok.1 hread
      cases hread
      exact ⟨_, settings, size, logged, hsettings, hsize, hopened, rfl⟩

/-! ## Exit codes -/

/-- A failure of the lifting family gives exit code 1. -/
theorem exitCode_of_refused {f : LiftingFault} (h : Solves read files o a b (.error (.lifting f))) :
    (runWith read files o).ending.exitCode = some 1 := by
  obtain ⟨settings, size, hending⟩ := ending_of_solves hsystem h
  rw [hending, Inputs.conclude, exitCode_ofFault]
  exact ⟨rfl, f, rfl⟩

variable (ha : a.outline.IsIntegral) (hb : b.outline.IsIntegral)
include ha hb

/-- A session over integers that returns a solution reports it, with the truth about it. -/
theorem exists_reports_of_solves {x : Solution} (h : Solves read files o a b (.ok x)) :
    ∃ passed : Bool, (passed = true ↔ IsSolvedBy a.outline b.outline (values x)) ∧
      (runWith read files o).ending.exitCode = some (if passed then 0 else 2) ∧
      (runWith read files o).Reports (if passed then "PASS" else "FAIL") (values x)
        x.denominator := by
  obtain ⟨settings, size, hending⟩ := ending_of_solves hsystem h
  obtain ⟨_, _, _, -, -, -, hsolve⟩ := h
  obtain ⟨n, L, hL, hx⟩ := exists_isIn_of_solveFor ha hb hsolve.symm
  obtain ⟨passed, xs, hfits, hfractions, hpassed⟩ := hx.exists_fits hL
  rw [Inputs.conclude, hfits, hfractions] at hending
  rw [eq_values hfractions] at hending hpassed
  refine ⟨passed, hpassed, ?_, reports_of_ending hending (values_ne_nil hx hL.pos)⟩
  rw [hending]
  rfl

/-- A returned solution of the system gives exit code 0, -/
theorem exitCode_of_solved {x : Solution} (h : Solves read files o a b (.ok x))
    (hsolved : IsSolvedBy a.outline b.outline (values x)) :
    (runWith read files o).ending.exitCode = some 0 := by
  obtain ⟨passed, hpassed, hcode, -⟩ := exists_reports_of_solves hsystem ha hb h
  rw [hcode, hpassed.2 hsolved]
  rfl

/-- and one that is none gives 2. -/
theorem exitCode_of_unsolved {x : Solution} (h : Solves read files o a b (.ok x))
    (hunsolved : ¬ IsSolvedBy a.outline b.outline (values x)) :
    (runWith read files o).ending.exitCode = some 2 := by
  obtain ⟨passed, hpassed, hcode, -⟩ := exists_reports_of_solves hsystem ha hb h
  rw [hcode, Bool.eq_false_iff.2 (mt hpassed.1 hunsolved)]
  rfl

/-- There is no other way to these exit codes. -/
theorem exitCode_cases {code : ℕ} (h : (runWith read files o).ending.exitCode = some code) :
    (code = 0 ∧ ∃ x, Solves read files o a b (.ok x) ∧
        (runWith read files o).Reports "PASS" (values x) x.denominator ∧
        IsSolvedBy a.outline b.outline (values x)) ∨
      (code = 2 ∧ ∃ x, Solves read files o a b (.ok x) ∧
        ¬ IsSolvedBy a.outline b.outline (values x)) ∨
      (code = 1 ∧ ∃ f, Solves read files o a b (.error (.lifting f))) := by
  obtain ⟨result, hsolves⟩ := exists_solves hsystem h
  cases result with
  | error f =>
    obtain ⟨settings, size, hending⟩ := ending_of_solves hsystem hsolves
    rw [hending, Inputs.conclude, exitCode_ofFault] at h
    obtain ⟨rfl, f, rfl⟩ := h
    exact .inr (.inr ⟨rfl, f, hsolves⟩)
  | ok x =>
    obtain ⟨passed, hpassed, hcode, hreports⟩ := exists_reports_of_solves hsystem ha hb hsolves
    rw [hcode] at h
    cases passed with
    | true => exact .inl ⟨(Option.some.inj h).symm, x, hsolves, hreports, hpassed.1 rfl⟩
    | false =>
      have hunsolved : ¬ IsSolvedBy a.outline b.outline (values x) :=
        fun hsolved => Bool.false_ne_true (hpassed.2 hsolved)
      exact .inr (.inl ⟨(Option.some.inj h).symm, x, hsolves, hunsolved⟩)

/-- Over integers, whatever reads the file, the settings and the options are: exit code 0 stands for
a report of a passed check and of fractions that solve the system in the file. It is the exit code
exactly if the solve returned a solution of the system, 2 exactly if the solve returned what is
none, and 1 exactly if the solve failed with a fault of the lifting family. -/
theorem exitCode_runWith :
    ((runWith read files o).ending.exitCode = some 0 → ∃ xs denominator,
      (runWith read files o).Reports "PASS" xs denominator ∧
      IsSolvedBy a.outline b.outline xs) ∧
    ((runWith read files o).ending.exitCode = some 0 ↔ ∃ x, Solves read files o a b (.ok x) ∧
      IsSolvedBy a.outline b.outline (values x)) ∧
    ((runWith read files o).ending.exitCode = some 2 ↔ ∃ x, Solves read files o a b (.ok x) ∧
      ¬ IsSolvedBy a.outline b.outline (values x)) ∧
    ((runWith read files o).ending.exitCode = some 1 ↔
      ∃ f, Solves read files o a b (.error (.lifting f))) := by
  have hzero (h : (runWith read files o).ending.exitCode = some 0) :
      ∃ x, Solves read files o a b (.ok x) ∧
        (runWith read files o).Reports "PASS" (values x) x.denominator ∧
        IsSolvedBy a.outline b.outline (values x) := by
    obtain ⟨-, hends⟩ | ⟨hcode, -⟩ | ⟨hcode, -⟩ := exitCode_cases hsystem ha hb h
    · exact hends
    · cases hcode
    · cases hcode
  refine ⟨fun h => ?_, ⟨fun h => ?_, ?_⟩, ⟨fun h => ?_, ?_⟩, ⟨fun h => ?_, ?_⟩⟩
  · obtain ⟨x, -, hreports, hsolved⟩ := hzero h
    exact ⟨values x, x.denominator, hreports, hsolved⟩
  · obtain ⟨x, hsolves, -, hsolved⟩ := hzero h
    exact ⟨x, hsolves, hsolved⟩
  · rintro ⟨x, hsolves, hsolved⟩
    exact exitCode_of_solved hsystem ha hb hsolves hsolved
  · obtain ⟨hcode, -⟩ | ⟨-, hends⟩ | ⟨hcode, -⟩ := exitCode_cases hsystem ha hb h
    · cases hcode
    · exact hends
    · cases hcode
  · rintro ⟨x, hsolves, hunsolved⟩
    exact exitCode_of_unsolved hsystem ha hb hsolves hunsolved
  · obtain ⟨hcode, -⟩ | ⟨hcode, -⟩ | ⟨-, hends⟩ := exitCode_cases hsystem ha hb h
    · cases hcode
    · cases hcode
    · exact hends
  · rintro ⟨f, hfails⟩
    exact exitCode_of_refused hsystem hfails

end System

/-- A file with `2 x + y = 3` and `x + y = 2`, which is lifted with the prime 7. -/
theorem exitCode_run_two_unknowns :
    ∃ (files : Files) (o : Options) (a b : Document),
      files o.input = some (.file "A: [[2, 1], [1, 1]]\nb: [3, 2]\n") ∧ o.primes = some [7] ∧
      a = .list [.list [.int 2, .int 1], .list [.int 1, .int 1]] ∧ b = .list [.int 3, .int 2] ∧
      HoldsSystem Yaml.read files o.input a b ∧
      a.outline.IsIntegral ∧ b.outline.IsIntegral ∧
      (run files o).ending.exitCode = some 0 ∧
      (∃ xs denominator, (run files o).Reports "PASS" xs denominator ∧
        IsSolvedBy a.outline b.outline xs) ∧
      ∃ x, Solves Yaml.read files o a b (.ok x) ∧
        IsSolvedBy a.outline b.outline (values x) := by
  let files : Files := fun _ => some (.file "A: [[2, 1], [1, 1]]\nb: [3, 2]\n")
  let o : Options := { input := "system", primes := some [7] }
  let a : Document := .list [.list [.int 2, .int 1], .list [.int 1, .int 1]]
  let b : Document := .list [.int 3, .int 2]
  have hread : Yaml.read "A: [[2, 1], [1, 1]]\nb: [3, 2]\n"
      = .ok (.mapping [(.text "A", .list [.list [.int 2, .int 1], .list [.int 1, .int 1]]),
        (.text "b", .list [.int 3, .int 2])]) := by
    cbv
  have hsystem : HoldsSystem Yaml.read files o.input a b := by
    refine ⟨_, _, rfl, hread, fun d => ?_, fun d => ?_⟩
    · simp [a, Text.ofString, Text.ofChars]
    · simp [b, Text.ofString, Text.ofChars]
  have hrows : a.outline.uniform 2 = true := rfl
  have hright : b.outline.uniform 1 = true := rfl
  have ha := Nested.isIntegral_of_uniform hrows
  have hb := Nested.isIntegral_of_uniform hright
  have hcode : (run files o).ending.exitCode = some 0 := by
    decide +kernel
  obtain ⟨hreports, hsolves, -⟩ := exitCode_runWith hsystem ha hb
  exact ⟨files, o, a, b, rfl, rfl, rfl, rfl, hsystem, ha, hb, hcode, hreports hcode,
    hsolves.1 hcode⟩

end CommandLine
end PadicLift
