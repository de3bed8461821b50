import NumStack.Command
import NumStack.Proofs.Assembled
import NumStack.Proofs.KindStack

/-!
# How an interpretation ends

A source text with faults is not run, and nothing is written. One without faults gives a program
that is ready to run, so its run ends at an `exit` or with a single fault, which is neither a
missing `exit` nor a fault of an operand in the text. The two stages never mix their faults, so the
first fault tells which of them has failed.
-/

namespace NumStack

/-! ## Running a program that is ready -/

/-- An instruction with a finite operand, or with none, raises an arithmetic fault only if it is
arithmetic itself. -/
theorem Instruction.HasFault.arith_of_finite {k : Nat} {i : Instruction} {s : List Operand}
    {fault : RunFault} (h : i.HasFault k s fault) (hi : ∀ v ∈ i.value?, v.isFinite = true)
    (index : Nat) (cause : OperandFault) (hfault : fault = .arithmetic index cause) :
    index = k ∧ ∃ op, i = .arith op := by
  have hchecked : ∀ v ∈ i.value?, ∀ cause, v.checked ≠ .error cause := by
    intro v hv cause hcause
    rw [v.checked_of_isFinite (hi v hv)] at hcause
    cases hcause
  cases h with
  | push v s cause hv => exact absurd hv (hchecked v rfl cause)
  | assertValue v s cause hv => exact absurd hv (hchecked v rfl cause)
  | arith op left right s cause hresult =>
    cases hfault
    exact ⟨rfl, op, rfl⟩
  | pop | assertEmpty | assertFailed | short | printEmpty | notPrintable => cases hfault

namespace Machine

variable {σ : Type} [Sink σ]

/-- What can be wrong with trying an instruction whose operand is finite. -/
theorem attempt_fault_of_finite (m : Machine σ) (k : Nat) (i : Instruction)
    (hi : ∀ v ∈ i.value?, v.isFinite = true) (fault : RunFault)
    (h : (m.attempt k i).2 = .error fault) :
    fault ≠ .missingExit ∧
      ∀ index cause, fault = .arithmetic index cause → index = k ∧ ∃ op, i = .arith op := by
  have hindex : fault.index? = some k := index?_of_step_error { m with index := k } i fault h
  refine ⟨?_, ?_⟩
  · rintro rfl
    cases hindex
  · rintro index cause rfl
    have hraised := (attempt_eq_error_iff m k i _ (by simp)).1 h
    exact hraised.arith_of_finite hi index cause rfl

/-- **A program that is ready runs up to an `exit`, or fails at an instruction.** It never misses
its `exit`, and only an arithmetic instruction raises an arithmetic fault. -/
theorem execute_of_ready (m : Machine σ) (hm : m.terminated = false) (p : Program)
    (hp : p.Ready) :
    (∃ fault, (m.execute p).2 = .error fault ∧ fault ≠ .missingExit ∧
      ∀ index cause, fault = .arithmetic index cause → ∃ op, p[index]? = some (.arith op)) ∨
    ∃ before after, p = before ++ .exit :: after ∧ .exit ∉ before ∧ m.Completes 0 before ∧
      (m.execute p).2 = .ok () ∧ (m.execute p).1.stack = (m.walk 0 before).stack := by
  obtain ⟨-, hnone⟩ | ⟨before, i, after, rfl, hcompletes, hnone, hstop⟩ := m.completes_or_stops 0 p
  · exact absurd hp.exit_mem hnone
  · obtain rfl | ⟨fault, hfault⟩ := hstop
    · -- the run succeeds, and the flush may still fail
      have hrun := m.runFrom_of_exit hm before after hcompletes hnone
      obtain ⟨hflushed, hrefused⟩ :=
        m.execute_snd_of_ok (before ++ .exit :: after) (congrArg Prod.snd hrun)
      cases hflush : (Sink.flush (m.runFrom 0 (before ++ .exit :: after)).1.sink).2 with
      | none =>
        refine .inr ⟨before, after, rfl, hnone, hcompletes, hflushed hflush, ?_⟩
        rw [execute_fst, hrun]
        rfl
      | some reason =>
        refine .inl ⟨_, hrefused reason hflush, by simp, ?_⟩
        intro index cause heq
        cases heq
    · rw [Nat.zero_add] at hfault
      have hfinite : ∀ v ∈ i.value?, v.isFinite = true := by
        intro v hv
        exact hp.finite v (List.mem_filterMap.2 ⟨i, by simp, hv⟩)
      obtain ⟨hexit, harith⟩ := attempt_fault_of_finite _ _ i hfinite fault hfault
      have hrun := m.runFrom_of_error hm before i after hcompletes hnone fault hfault
      refine .inl ⟨fault, m.execute_snd_of_error _ fault (congrArg Prod.snd hrun), hexit, ?_⟩
      intro index cause heq
      obtain ⟨rfl, op, rfl⟩ := harith index cause heq
      exact ⟨op, by simp⟩

end Machine

variable {σ : Type} [Sink σ]

/-! ## The two stages -/

theorem interpret_of_error (options : Options) (text : String) (faults : List SourceFault)
    (h : Program.assembleWith options text = .error faults) (sink : σ) :
    interpret options text sink = (sink, .error (faults.map .source)) := by
  rw [interpret, h]

theorem interpret_of_ok (options : Options) (text : String) (p : Program)
    (h : Program.assembleWith options text = .ok p) (sink : σ) :
    interpret options text sink =
      ((p.run sink).1, (p.run sink).2.mapError fun fault => [.run fault]) := by
  rw [interpret, h]

/-- **How an interpretation ends.** Either the text has faults, exactly one of which is returned if
the assembly stops at the first, and the sink is as it was; or the program fails with a single
fault, which is not a missing `exit` and, if it is arithmetic, is raised by an arithmetic
instruction; or the stack is returned that the instructions up to an `exit` lead to. The first fault
decides between the exit statuses 2 and 3 as the stage does that has failed. -/
theorem interpret_outcome (options : Options) (text : String) (sink : σ) :
    (∃ faults, Program.assembleWith options text = .error faults ∧ faults ≠ [] ∧
      (options.policy = .failFast → faults.length = 1) ∧
      interpret options text sink = (sink, .error (faults.map .source)) ∧
      Fault.status (faults.map .source) = 2) ∨
    (∃ p fault, Program.assembleWith options text = .ok p ∧
      (interpret options text sink).2 = .error [.run fault] ∧ fault ≠ .missingExit ∧
      (∀ index cause, fault = .arithmetic index cause → ∃ op, p[index]? = some (.arith op)) ∧
      Fault.status [.run fault] = 3) ∨
    ∃ p before after, Program.assembleWith options text = .ok p ∧
      p = before ++ .exit :: after ∧ .exit ∉ before ∧
      (Machine.fresh sink).Completes 0 before ∧
      (interpret options text sink).2 = .ok ((Machine.fresh sink).walk 0 before).stack := by
  cases h : Program.assembleWith options text with
  | error faults =>
    obtain ⟨hne, hlength⟩ := Program.faults_of_assembleWith options text faults h
    refine .inl ⟨faults, rfl, hne, hlength, interpret_of_error options text faults h sink, ?_⟩
    obtain ⟨fault, others, rfl⟩ := List.exists_cons_of_ne_nil hne
    rfl
  | ok p =>
    obtain ⟨hfaults, rfl⟩ := (Program.assembleWith_eq_ok_iff options text p).1 h
    have hready := Program.ready_of_allFaults_eq_nil options.interactive text hfaults
    rw [interpret_of_ok options text _ h sink]
    obtain ⟨fault, hfault, hexit, harith⟩ | ⟨before, after, hp, hnone, hcompletes, hok, hstack⟩ :=
      (Machine.fresh sink).execute_of_ready rfl _ hready
    · refine .inr (.inl ⟨_, fault, rfl, ?_, hexit, harith, rfl⟩)
      simp only [Program.run, hfault]
      rfl
    · refine .inr (.inr ⟨_, before, after, rfl, hp, hnone, hcompletes, ?_⟩)
      simp only [Program.run, hok, hstack]
      rfl

end NumStack
