import NumStack.Proofs.Calls

/-!
# The contract of `exit`

Running a program promises to carry it out from its first instruction until an `exit`, and to report
a missing `exit` if there is none. A machine keeps this promise until one of its runs has come to an
`exit`. From then on it is terminated for good, and every later run ends after one instruction: a
program without an `exit` then succeeds.
-/

namespace NumStack

namespace Machine

variable {σ : Type} [Sink σ]

/-- What running a program promises. If the run succeeds, the program has an `exit`, and exactly the
instructions up to its first `exit` have been carried out. A program without an `exit` whose
instructions all succeed misses its `exit`. -/
def ExitContract (m : Machine σ) (p : Program) : Prop :=
  ((m.execute p).2 = .ok () →
    ∃ before after, p = before ++ .exit :: after ∧ .exit ∉ before ∧
      (m.history 0 p).map Executed.instruction = before ++ [.exit]) ∧
  (.exit ∉ p → m.Completes 0 p → (m.execute p).2 = .error .missingExit)

/-! ## The history of a run -/

/-- A run carries out an instruction that succeeds, and goes on unless the machine has
terminated. -/
theorem history_cons_of_ok (m : Machine σ) (k : Nat) (i : Instruction) (rest : List Instruction)
    (flow : Flow) (h : (m.attempt k i).2 = .ok flow) :
    (m.history k (i :: rest)).map Executed.instruction =
      i :: if ((m.attempt k i).1.settle flow).terminated then []
        else (((m.attempt k i).1.settle flow).history (k + 1) rest).map Executed.instruction := by
  have hattempt : step { m with index := k } i = ((m.attempt k i).1, .ok flow) := Prod.ext rfl h
  rw [history, hattempt]
  dsimp only
  split <;> rfl

/-- On a machine that has not terminated, the instructions up to the first `exit` are carried out if
they succeed. -/
theorem history_of_exit (m : Machine σ) (hm : m.terminated = false) (k : Nat)
    (before after : List Instruction) (hbefore : m.Completes k before) (hexit : .exit ∉ before) :
    (m.history k (before ++ .exit :: after)).map Executed.instruction = before ++ [.exit] := by
  induction before generalizing m k with
  | nil =>
    have hattempt : m.attempt k .exit = ({ m with index := k }, .ok .exit) := step_exit _
    rw [List.nil_append, history_cons_of_ok m k .exit after .exit (congrArg Prod.snd hattempt),
      hattempt, settle_exit, if_pos rfl]
    rfl
  | cons i before ih =>
    obtain ⟨⟨flow, hflow⟩, hcompletes⟩ := hbefore
    obtain ⟨hi, hexit⟩ := List.ne_and_not_mem_of_not_mem_cons hexit
    have hterminated := (m.attempt_terminated k i).trans hm
    obtain rfl := m.next_of_attempt k i flow hflow (Ne.symm hi)
    rw [List.cons_append, history_cons_of_ok m k i _ .next hflow, settle_next, hterminated,
      if_neg Bool.false_ne_true, ih _ hterminated _ hcompletes hexit, List.cons_append]

/-! ## Machines that have not terminated -/

/-- A machine that has not terminated keeps the contract. -/
theorem exitContract_of_not_terminated (m : Machine σ) (hm : m.terminated = false) (p : Program) :
    m.ExitContract p := by
  obtain ⟨hcompletes, hnone⟩ | ⟨before, i, after, rfl, hcompletes, hnone, hstop⟩ :=
    m.completes_or_stops 0 p
  · have hrun := m.execute_snd_of_error p .missingExit
      (congrArg Prod.snd (m.runFrom_of_completes hm p hcompletes hnone))
    refine ⟨?_, fun _ _ => hrun⟩
    intro hok
    rw [hrun] at hok
    cases hok
  · obtain rfl | ⟨fault, hfault⟩ := hstop
    · refine ⟨fun _ => ⟨before, after, rfl, hnone, ?_⟩, ?_⟩
      · exact m.history_of_exit hm 0 before after hcompletes hnone
      · intro hexit
        exact absurd (List.mem_append_right before List.mem_cons_self) hexit
    · rw [Nat.zero_add] at hfault
      have hrun := m.execute_snd_of_error _ fault
        (congrArg Prod.snd (m.runFrom_of_error hm before i after hcompletes hnone fault hfault))
      refine ⟨?_, ?_⟩
      · intro hok
        rw [hrun] at hok
        cases hok
      · -- the failing instruction is one of those that are said to succeed
        intro _ hall
        obtain ⟨flow, hflow⟩ := (m.completes_iff 0 _).1 hall before.length i (by simp)
        rw [List.take_left, Nat.zero_add, hfault] at hflow
        cases hflow

/-! ## Machines that have terminated -/

omit [Sink σ] in
theorem settle_of_terminated (m : Machine σ) (flow : Flow) (hm : m.terminated = true) :
    (m.settle flow).terminated = true := by
  rw [settle, hm]
  rfl

/-- A machine that has terminated carries out one instruction of a program. -/
theorem execute_cons_of_terminated (m : Machine σ) (hm : m.terminated = true) (i : Instruction)
    (rest : List Instruction) : m.execute (i :: rest) = m.execute [i] := by
  have hrun : m.runFrom 0 (i :: rest) = m.runFrom 0 [i] := by
    obtain ⟨flow, hflow⟩ | ⟨fault, hfault⟩ := m.attempt_cases 0 i
    · have hsettle := settle_of_terminated _ flow ((m.attempt_terminated 0 i).trans hm)
      rw [runFrom_cons_of_ok m 0 i rest flow hflow, runFrom_cons_of_ok m 0 i [] flow hflow,
        if_pos hsettle, if_pos hsettle]
    · rw [runFrom_cons_of_error m 0 i rest fault hfault,
        runFrom_cons_of_error m 0 i [] fault hfault]
  rw [execute, execute, hrun]

/-- A machine that has terminated breaks the contract: a single push is a program without `exit`,
and does not miss it. -/
theorem not_exitContract_of_terminated (m : Machine σ) (hm : m.terminated = true) :
    ¬ m.ExitContract [.push (.int8 0)] := by
  intro h
  have hattempt : (m.attempt 0 (.push (.int8 0))).2 = .ok .next :=
    congrArg Prod.snd (step_of_taken { m with index := 0 } (.push (.int8 0) m.stack rfl) rfl)
  have hmissing := h.2 (by simp) ⟨⟨.next, hattempt⟩, trivial⟩
  have hrun := m.runFrom_snd_of_execute _ .missingExit (by simp) hmissing
  rw [runFrom_cons_of_ok m 0 _ [] .next hattempt, settle_next, attempt_terminated, hm,
    if_pos rfl] at hrun
  cases hrun

/-- The instructions of a run terminate the machine exactly if the run succeeds. -/
theorem runFrom_terminated_iff (m : Machine σ) (k : Nat) (is : List Instruction) :
    (m.runFrom k is).1.terminated = true ↔ m.terminated = true ∨ (m.runFrom k is).2 = .ok () := by
  induction is generalizing m k with
  | nil => simp [runFrom]
  | cons i rest ih =>
    have hattempt := m.attempt_terminated k i
    obtain ⟨flow, hflow⟩ | ⟨fault, hfault⟩ := m.attempt_cases k i
    · rw [runFrom_cons_of_ok m k i rest flow hflow]
      by_cases hsettle : ((m.attempt k i).1.settle flow).terminated = true
      · simp [hsettle]
      · have hnot : ¬ m.terminated = true := by
          intro hm
          exact hsettle (settle_of_terminated _ flow (hattempt.trans hm))
        rw [if_neg hsettle, ih, or_iff_right hsettle, or_iff_right hnot]
    · rw [runFrom_cons_of_error m k i rest fault hfault, hattempt]
      simp

/-- A call terminates the machine exactly if it is a run whose instructions succeed. -/
theorem call_terminated_iff (m : Machine σ) (c : Call) :
    (m.call c).terminated = true ↔
      m.terminated = true ∨ ∃ p, c = .execute p ∧ (m.runFrom 0 p).2 = .ok () := by
  cases c with
  | step i =>
    rw [call, step_terminated]
    simp
  | execute p =>
    have hdrained : (m.call (.execute p)).terminated = (m.runFrom 0 p).1.terminated := by
      rw [call, execute_fst]
      rfl
    rw [hdrained, runFrom_terminated_iff]
    simp

/-- **What terminates a machine.** After a sequence of calls it is terminated exactly if it was
before, or one of the calls is a run whose instructions have succeeded. -/
theorem perform_terminated_iff (m : Machine σ) (calls : List Call) :
    (m.perform calls).terminated = true ↔
      m.terminated = true ∨ ∃ before p after, calls = before ++ .execute p :: after ∧
        ((m.perform before).runFrom 0 p).2 = .ok () := by
  induction calls generalizing m with
  | nil => simp [perform]
  | cons c calls ih =>
    show ((m.call c).perform calls).terminated = true ↔ _
    rw [ih, call_terminated_iff, or_assoc]
    apply or_congr_right
    -- the run that terminates the machine is the first call or one of the others
    constructor
    · rintro (⟨p, rfl, hok⟩ | ⟨before, p, after, rfl, hok⟩)
      · exact ⟨[], p, calls, rfl, hok⟩
      · exact ⟨c :: before, p, after, rfl, hok⟩
    · rintro ⟨before, p, after, hcalls, hok⟩
      cases before with
      | nil =>
        cases hcalls
        exact .inl ⟨p, rfl, hok⟩
      | cons c' before =>
        cases hcalls
        exact .inr ⟨before, p, after, rfl, hok⟩

/-- **When the contract holds.** After any sequence of calls to a fresh machine, the machine keeps
the contract for all programs exactly if it has not terminated, that is, if none of the calls was a
run whose instructions have succeeded. Otherwise it carries out one instruction of every program. -/
theorem exitContract_iff_never_exited (sink : σ) (calls : List Call) :
    ((∀ p, ((fresh sink).perform calls).ExitContract p) ↔
        ((fresh sink).perform calls).terminated = false) ∧
      (((fresh sink).perform calls).terminated = false ↔
        ∀ before p after, calls = before ++ .execute p :: after →
          (((fresh sink).perform before).runFrom 0 p).2 ≠ .ok ()) ∧
      (((fresh sink).perform calls).terminated = true → ∀ i rest,
        ((fresh sink).perform calls).execute (i :: rest) =
          ((fresh sink).perform calls).execute [i]) := by
  refine ⟨⟨?_, ?_⟩, ?_, execute_cons_of_terminated _⟩
  · intro hcontract
    rw [← Bool.not_eq_true]
    intro hterminated
    exact not_exitContract_of_terminated _ hterminated (hcontract _)
  · intro hterminated p
    exact exitContract_of_not_terminated _ hterminated p
  · rw [← Bool.not_eq_true, perform_terminated_iff]
    simp only [fresh, Bool.false_eq_true, false_or, not_exists, not_and, ne_eq]

/-- After a run of `exit` alone, a program that only pushes a value succeeds, although it has no
`exit`. -/
theorem exitContract_broken_by_exit :
    .exit ∉ [Instruction.push (.int8 1)] ∧
      (((fresh ({} : Buffer)).perform [.execute [.exit]]).execute [.push (.int8 1)]).2 = .ok () ∧
      ¬ ((fresh ({} : Buffer)).perform [.execute [.exit]]).ExitContract [.push (.int8 1)] := by
  have hok : (((fresh ({} : Buffer)).perform [.execute [.exit]]).execute
      [.push (.int8 1)]).2 = .ok () := by decide +kernel
  refine ⟨by simp, hok, ?_⟩
  intro hcontract
  obtain ⟨before, after, hp, -⟩ := hcontract.1 hok
  have hmem : Instruction.exit ∈ [Instruction.push (.int8 1)] := by
    rw [hp]
    exact List.mem_append_right before List.mem_cons_self
  simp at hmem

end Machine

end NumStack
