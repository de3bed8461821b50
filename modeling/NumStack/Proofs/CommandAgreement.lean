import NumStack.Proofs.PipelineOutcome

/-!
# The commands agree on what assembles

Checking collects all faults of a text, formatting stops at the first one, and running does either,
on the way to a run of the program. All of them assemble the same texts to the same program. So a
file is refused by every command or by none, and how a run collects the faults of its text shows
neither in its exit status nor in its output.
-/

namespace NumStack

/-! ## Requests for one file -/

/-- A name that does not look like a flag is the file to run. -/
theorem Request.ofRunArgs_file (policy : Policy) (verbose : Bool) (path : String)
    (h : path.toList.head? ≠ some '-') :
    ofRunArgs policy verbose none [path] = .run policy verbose (.file path) := by
  have hflag : ∀ flag : String, flag.toList.head? = some '-' → path ≠ flag := by
    rintro flag hflag rfl
    exact h hflag
  simp [ofRunArgs, hflag "--collect" (by decide), hflag "--verbose" (by decide), h]

/-- A valid file is read as its text. -/
theorem Input.decode_file (path text : String) :
    (Input.file path).decode (.ok (Utf8.encode text.toList)) = .ok text := by
  simp only [decode, bind, Except.bind, Utf8.decode?_encode]
  exact congrArg Except.ok String.ofList_toList

section

variable (env : Environment) (path text : String)
  (hfile : env.file path = .ok (Utf8.encode text.toList))

include hfile

/-- A request for a valid file works on its text. -/
theorem Outcome.withText_file (work : String → Outcome) :
    Outcome.withText (.file path) (env.contents (some (.file path))) work = work text := by
  rw [Environment.contents, hfile, Outcome.withText, Input.decode_file]

theorem Environment.execute_check :
    env.execute ["check", path] = .ofCheck path env.verbosity text :=
  Outcome.withText_file env path text hfile (.ofCheck path env.verbosity)

theorem Environment.execute_format :
    env.execute ["fmt", path] = .ofFormat env.verbosity text :=
  Outcome.withText_file env path text hfile (.ofFormat env.verbosity)

/-- Running a file, whatever the arguments that ask for it. -/
theorem Environment.execute_run (policy : Policy) (args : List String)
    (hargs : Request.ofArgs args = .run policy false (.file path)) :
    env.execute args = .ofRun ⟨policy, false⟩ env.verbosity text := by
  rw [execute, hargs]
  exact Outcome.withText_file env path text hfile (.ofRun ⟨policy, false⟩ env.verbosity)

end

/-! ## Outcomes by what the text assembles to -/

/-- A file is assembled alike on its own and under either policy. -/
theorem Program.assembleWith_file_iff (policy : Policy) (text : String) (p : Program) :
    assembleWith ⟨policy, false⟩ text = .ok p ↔ assemble text = .ok p := by
  rw [assembleWith_eq_ok_iff, assemble_eq_ok_iff]

/-- A file with a fault has faults under either policy. -/
theorem Program.exists_faults_of_assemble (policy : Policy) (text : String) (fault : SourceFault)
    (h : assemble text = .error fault) :
    ∃ faults, assembleWith ⟨policy, false⟩ text = .error faults := by
  cases hresult : assembleWith ⟨policy, false⟩ text with
  | error faults => exact ⟨faults, rfl⟩
  | ok p =>
    rw [assembleWith_file_iff, h] at hresult
    cases hresult

namespace Outcome

/-- Running a text that has faults. -/
theorem ofRun_of_error (options : Options) (v : Verbosity) (text : String)
    (faults : List SourceFault) (h : Program.assembleWith options text = .error faults) :
    (ofRun options v text).status = 2 ∧ (ofRun options v text).stdout = [] := by
  have hstatus : Fault.status (faults.map .source) = 2 := by
    cases faults <;> rfl
  simp only [ofRun, interpret_of_error options text faults h, hstatus, true_and]

/-- Running a text that assembles: the exit status tells whether the run has ended at an `exit`, and
the output is that of the run. -/
theorem ofRun_of_ok (options : Options) (v : Verbosity) (text : String) (p : Program)
    (h : Program.assembleWith options text = .ok p) :
    (ofRun options v text).stdout = (p.run ({} : Buffer)).1.written.toList ∧
      (((ofRun options v text).status = 0 ∧ ∃ stack, (p.run ({} : Buffer)).2 = .ok stack) ∨
        ((ofRun options v text).status = 3 ∧ ∃ fault, (p.run ({} : Buffer)).2 = .error fault)) := by
  simp only [ofRun, interpret_of_ok options text p h]
  cases (p.run ({} : Buffer)).2 with
  | ok stack => exact ⟨rfl, .inl ⟨rfl, stack, rfl⟩⟩
  | error fault => exact ⟨rfl, .inr ⟨rfl, fault, rfl⟩⟩

/-- How the faults of a text are collected does not show in running one that assembles. -/
theorem ofRun_eq_of_ok (options options' : Options) (v : Verbosity) (text : String) (p : Program)
    (h : Program.assembleWith options text = .ok p)
    (h' : Program.assembleWith options' text = .ok p) :
    (ofRun options v text).status = (ofRun options' v text).status ∧
      (ofRun options v text).stdout = (ofRun options' v text).stdout := by
  simp only [ofRun, interpret_of_ok options text p h, interpret_of_ok options' text p h']
  cases (p.run ({} : Buffer)).2 <;> exact ⟨rfl, rfl⟩

end Outcome

/-! ## The agreement -/

/-- **The commands agree on what assembles.** For a valid file whose name does not look like a flag,
either the text has a fault, and checking, formatting and both ways of running it end with the
status 2 and no output; or it assembles to a program, checking and formatting it succeed, and both
ways of running it write what the program writes and end with the same status, which is 0 if the run
of the program ends at an `exit` and 3 if it ends with a fault. -/
theorem Environment.commands_agree (env : Environment) (path text : String)
    (hpath : path.toList.head? ≠ some '-')
    (hfile : env.file path = .ok (Utf8.encode text.toList)) :
    ((∃ fault, Program.assemble text = .error fault) ∧
      ∀ args ∈ [["check", path], ["fmt", path], ["run", path], ["run", "--collect", path]],
        (env.execute args).status = 2 ∧ (env.execute args).stdout = []) ∨
    ∃ p, Program.assemble text = .ok p ∧
      (env.execute ["check", path]).status = 0 ∧ (env.execute ["fmt", path]).status = 0 ∧
      (env.execute ["run", path]).status = (env.execute ["run", "--collect", path]).status ∧
      (env.execute ["run", path]).stdout = (env.execute ["run", "--collect", path]).stdout ∧
      (env.execute ["run", path]).stdout = (p.run ({} : Buffer)).1.written.toList ∧
      (((env.execute ["run", path]).status = 0 ∧ ∃ stack, (p.run ({} : Buffer)).2 = .ok stack) ∨
        ((env.execute ["run", path]).status = 3 ∧
          ∃ fault, (p.run ({} : Buffer)).2 = .error fault)) := by
  have hrun := env.execute_run path text hfile .failFast ["run", path]
    (Request.ofRunArgs_file .failFast false path hpath)
  have hcollect := env.execute_run path text hfile .collect ["run", "--collect", path]
    (Request.ofRunArgs_file .collect false path hpath)
  simp only [List.forall_mem_cons, List.not_mem_nil, false_imp_iff, implies_true, and_true,
    env.execute_check path text hfile, env.execute_format path text hfile, hrun, hcollect]
  cases h : Program.assemble text with
  | error fault =>
    obtain ⟨faults, hfaults⟩ := Program.exists_faults_of_assemble .failFast text fault h
    obtain ⟨faults', hfaults'⟩ := Program.exists_faults_of_assemble .collect text fault h
    refine .inl ⟨⟨fault, rfl⟩, ?_, ?_, ?_, ?_⟩
    · simp only [Outcome.ofCheck, hfaults', and_self]
    · simp only [Outcome.ofFormat, h, and_self]
    · exact Outcome.ofRun_of_error _ _ _ faults hfaults
    · exact Outcome.ofRun_of_error _ _ _ faults' hfaults'
  | ok p =>
    have hok : ∀ policy, Program.assembleWith ⟨policy, false⟩ text = .ok p := fun policy =>
      (Program.assembleWith_file_iff policy text p).2 h
    obtain ⟨hstatus, hstdout⟩ :=
      Outcome.ofRun_eq_of_ok _ _ env.verbosity text p (hok .failFast) (hok .collect)
    obtain ⟨hwritten, hend⟩ := Outcome.ofRun_of_ok _ env.verbosity text p (hok .failFast)
    refine .inr ⟨p, rfl, ?_, ?_, hstatus, hstdout, hwritten, hend⟩
    · simp only [Outcome.ofCheck, hok]
    · simp only [Outcome.ofFormat, h]

/-- A program that prints a letter and then takes one value too many off the stack: it passes the
check, and both ways of running it print the letter and end with the status 3. -/
theorem Environment.commands_agree_pop_empty :
    let text := "push int8(65)\nprint\npop\npop\nexit\n"
    let env : Environment := { file := fun _ => .ok (Utf8.encode text.toList), stdin := [] }
    "letter".toList.head? ≠ some '-' ∧ env.file "letter" = .ok (Utf8.encode text.toList) ∧
      (env.execute ["check", "letter"]).status = 0 ∧ (env.execute ["fmt", "letter"]).status = 0 ∧
      ∀ args ∈ [["run", "letter"], ["run", "--collect", "letter"]],
        (env.execute args).status = 3 ∧ (env.execute args).stdout = [65] := by
  intro text env
  let p : Program := [.push (.int8 65), .print, .pop, .pop, .exit]
  have hassemble : Program.assemble text = .ok p := by decide +kernel
  have hwritten : (p.run ({} : Buffer)).1.written.toList = [65] := by decide +kernel
  have hfault : (p.run ({} : Buffer)).2 = .error (.emptyStack 3 .pop) := by decide +kernel
  refine ⟨by decide, rfl, ?_⟩
  obtain ⟨⟨fault, herror⟩, -⟩ | ⟨q, hq, hcheck, hformat, hstatus, hstdout, hout, hend⟩ :=
    env.commands_agree "letter" text (by decide) rfl
  · rw [hassemble] at herror
    cases herror
  · rw [hassemble] at hq
    cases hq
    obtain ⟨-, stack, hstack⟩ | ⟨hthree, -⟩ := hend
    · rw [hfault] at hstack
      cases hstack
    · refine ⟨hcheck, hformat, ?_⟩
      simp only [List.forall_mem_cons, List.not_mem_nil, false_imp_iff, implies_true, ← hstatus,
        ← hstdout, hthree, hout, hwritten, and_self]

end NumStack
