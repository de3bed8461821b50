import NumStack.Machine
import NumStack.Proofs.Steps

/-!
# Runs

A run is told by the walk along its program, in which each instruction is tried on the machine that
the instructions before it have led to. On a machine that has not terminated, the run follows the
walk up to the first instruction that is `exit` or fails, and this instruction decides how the run
ends; without such an instruction the run goes through the whole program and misses its `exit`.
-/

namespace NumStack

namespace Machine

variable {σ : Type} [Sink σ]

/-! ## Walks -/

/-- Tries the instruction number `k`. -/
def attempt (m : Machine σ) (k : Nat) (i : Instruction) : Machine σ × Except RunFault Flow :=
  step { m with index := k } i

/-- The machine on which instructions have been tried in order, the first of them with the number
`k`. -/
def walk (m : Machine σ) (k : Nat) : List Instruction → Machine σ
  | [] => m
  | i :: rest => (m.attempt k i).1.walk (k + 1) rest

/-- All instructions succeed when they are tried in order, the first of them with the number `k`. -/
def Completes (m : Machine σ) (k : Nat) : List Instruction → Prop
  | [] => True
  | i :: rest => (∃ flow, (m.attempt k i).2 = .ok flow) ∧ (m.attempt k i).1.Completes (k + 1) rest

theorem attempt_terminated (m : Machine σ) (k : Nat) (i : Instruction) :
    (m.attempt k i).1.terminated = m.terminated :=
  step_terminated _ i

theorem attempt_cases (m : Machine σ) (k : Nat) (i : Instruction) :
    (∃ flow, (m.attempt k i).2 = .ok flow) ∨ ∃ fault, (m.attempt k i).2 = .error fault := by
  cases (m.attempt k i).2 with
  | ok flow => exact .inl ⟨flow, rfl⟩
  | error fault => exact .inr ⟨fault, rfl⟩

/-- A run goes on after every instruction but `exit`. -/
theorem next_of_attempt (m : Machine σ) (k : Nat) (i : Instruction) (flow : Flow)
    (h : (m.attempt k i).2 = .ok flow) (hi : i ≠ .exit) : flow = .next := by
  rw [flow_of_step _ i flow h]
  cases hflow : i.flow with
  | next => rfl
  | exit => exact absurd (i.flow_eq_exit_iff.1 hflow) hi

theorem walk_terminated (m : Machine σ) (k : Nat) (is : List Instruction) :
    (m.walk k is).terminated = m.terminated := by
  induction is generalizing m k with
  | nil => rfl
  | cons i rest ih => rw [walk, ih, attempt_terminated]

/-- Instructions succeed if each of them does on the machine that the walk up to it leads to. -/
theorem completes_iff (m : Machine σ) (k : Nat) (is : List Instruction) :
    m.Completes k is ↔
      ∀ j i, is[j]? = some i → ∃ flow, ((m.walk k (is.take j)).attempt (k + j) i).2 = .ok flow := by
  induction is generalizing m k with
  | nil => simp [Completes]
  | cons i rest ih =>
    have hnumber : ∀ j, k + (j + 1) = k + 1 + j := by omega
    rw [Completes, ih]
    constructor
    · rintro ⟨hfirst, hrest⟩ j i' hi'
      cases j with
      | zero =>
        cases hi'
        exact hfirst
      | succ j =>
        rw [hnumber]
        exact hrest j i' hi'
    · intro h
      refine ⟨h 0 i rfl, ?_⟩
      intro j i' hi'
      rw [← hnumber]
      exact h (j + 1) i' hi'

/-- Either all instructions succeed and none is `exit`, or there is a first one that is `exit` or
fails. -/
theorem completes_or_stops (m : Machine σ) (k : Nat) (is : List Instruction) :
    (m.Completes k is ∧ .exit ∉ is) ∨
      ∃ before i after, is = before ++ i :: after ∧ m.Completes k before ∧ .exit ∉ before ∧
        (i = .exit ∨
          ∃ fault, ((m.walk k before).attempt (k + before.length) i).2 = .error fault) := by
  induction is generalizing m k with
  | nil => exact .inl ⟨trivial, List.not_mem_nil⟩
  | cons i rest ih =>
    by_cases hexit : i = .exit
    · exact .inr ⟨[], i, rest, rfl, trivial, List.not_mem_nil, .inl hexit⟩
    · obtain hok | hfail := m.attempt_cases k i
      · obtain ⟨hcompletes, hnone⟩ | ⟨before, i', after, rfl, hcompletes, hnone, hstop⟩ :=
          ih (m.attempt k i).1 (k + 1)
        · exact .inl ⟨⟨hok, hcompletes⟩, List.not_mem_cons_of_ne_of_not_mem (Ne.symm hexit) hnone⟩
        · refine .inr ⟨i :: before, i', after, rfl, ⟨hok, hcompletes⟩,
            List.not_mem_cons_of_ne_of_not_mem (Ne.symm hexit) hnone, ?_⟩
          rwa [List.length_cons, Nat.add_comm before.length, ← Nat.add_assoc]
      · exact .inr ⟨[], i, rest, rfl, trivial, List.not_mem_nil, .inr hfail⟩

/-! ## Runs along walks -/

omit [Sink σ] in
theorem settle_next (m : Machine σ) : m.settle .next = m := by
  show { m with terminated := m.terminated || false } = m
  rw [Bool.or_false]

omit [Sink σ] in
theorem settle_exit (m : Machine σ) : m.settle .exit = { m with terminated := true } := by
  show { m with terminated := m.terminated || true } = _
  rw [Bool.or_true]

/-- A run ends at an instruction that fails. -/
theorem runFrom_cons_of_error (m : Machine σ) (k : Nat) (i : Instruction) (rest : List Instruction)
    (fault : RunFault) (h : (m.attempt k i).2 = .error fault) :
    m.runFrom k (i :: rest) = ((m.attempt k i).1, .error fault) := by
  have hattempt : step { m with index := k } i = ((m.attempt k i).1, .error fault) := Prod.ext rfl h
  rw [runFrom, hattempt]

/-- A run goes on after an instruction that succeeds, unless the machine has terminated. -/
theorem runFrom_cons_of_ok (m : Machine σ) (k : Nat) (i : Instruction) (rest : List Instruction)
    (flow : Flow) (h : (m.attempt k i).2 = .ok flow) :
    m.runFrom k (i :: rest) =
      if ((m.attempt k i).1.settle flow).terminated then ((m.attempt k i).1.settle flow, .ok ())
      else ((m.attempt k i).1.settle flow).runFrom (k + 1) rest := by
  have hattempt : step { m with index := k } i = ((m.attempt k i).1, .ok flow) := Prod.ext rfl h
  rw [runFrom, hattempt]

theorem runFrom_exit (m : Machine σ) (k : Nat) (rest : List Instruction) :
    m.runFrom k (.exit :: rest) = ({ m with terminated := true, index := k }, .ok ()) := by
  have hattempt : m.attempt k .exit = ({ m with index := k }, .ok .exit) := step_exit _
  rw [runFrom_cons_of_ok m k .exit rest .exit (congrArg Prod.snd hattempt), hattempt, settle_exit,
    if_pos rfl]

/-- **What a run preserves.** What holds of a machine and is preserved by every instruction and by
termination holds after a run, however the run ends. -/
theorem runFrom_preserves {P : Machine σ → Prop}
    (hattempt : ∀ (m : Machine σ) (k : Nat) (i : Instruction), P m → P (m.attempt k i).1)
    (hsettle : ∀ (m : Machine σ) (flow : Flow), P m → P (m.settle flow)) (m : Machine σ) (k : Nat)
    (is : List Instruction) (hm : P m) : P (m.runFrom k is).1 := by
  induction is generalizing m k with
  | nil => exact hm
  | cons i rest ih =>
    have hnext := hattempt m k i hm
    obtain ⟨flow, hflow⟩ | ⟨fault, hfault⟩ := m.attempt_cases k i
    · rw [runFrom_cons_of_ok m k i rest flow hflow]
      split
      · exact hsettle _ flow hnext
      · exact ih _ (k + 1) (hsettle _ flow hnext)
    · rw [runFrom_cons_of_error m k i rest fault hfault]
      exact hnext

/-- **A run follows the walk.** On a machine that has not terminated, a run gets past instructions
that succeed and are not `exit`. -/
theorem runFrom_append (m : Machine σ) (hm : m.terminated = false) (k : Nat)
    (before rest : List Instruction) (hbefore : m.Completes k before) (hexit : .exit ∉ before) :
    m.runFrom k (before ++ rest) = (m.walk k before).runFrom (k + before.length) rest := by
  induction before generalizing m k with
  | nil => rfl
  | cons i before ih =>
    obtain ⟨⟨flow, hflow⟩, hcompletes⟩ := hbefore
    obtain ⟨hi, hexit⟩ := List.ne_and_not_mem_of_not_mem_cons hexit
    -- the instruction neither terminates the machine nor ends the run
    have hterminated := (m.attempt_terminated k i).trans hm
    obtain rfl := m.next_of_attempt k i flow hflow (Ne.symm hi)
    rw [List.cons_append, runFrom_cons_of_ok m k i _ .next hflow, settle_next, hterminated,
      if_neg Bool.false_ne_true, ih _ hterminated _ hcompletes hexit, walk, List.length_cons,
      Nat.add_comm before.length, Nat.add_assoc]

/-- A run to an `exit`. -/
theorem runFrom_of_exit (m : Machine σ) (hm : m.terminated = false)
    (before after : List Instruction) (hbefore : m.Completes 0 before) (hexit : .exit ∉ before) :
    m.runFrom 0 (before ++ .exit :: after) =
      ({ m.walk 0 before with terminated := true, index := before.length }, .ok ()) := by
  rw [runFrom_append m hm 0 before _ hbefore hexit, Nat.zero_add, runFrom_exit]

/-- A run to a fault. -/
theorem runFrom_of_error (m : Machine σ) (hm : m.terminated = false) (before : List Instruction)
    (i : Instruction) (after : List Instruction) (hbefore : m.Completes 0 before)
    (hexit : .exit ∉ before) (fault : RunFault)
    (h : ((m.walk 0 before).attempt before.length i).2 = .error fault) :
    m.runFrom 0 (before ++ i :: after) =
      (((m.walk 0 before).attempt before.length i).1, .error fault) := by
  rw [runFrom_append m hm 0 before _ hbefore hexit, Nat.zero_add,
    runFrom_cons_of_error _ _ _ _ fault h]

/-- A run through a program without `exit`. -/
theorem runFrom_of_completes (m : Machine σ) (hm : m.terminated = false) (p : Program)
    (hp : m.Completes 0 p) (hexit : .exit ∉ p) :
    m.runFrom 0 p = (m.walk 0 p, .error .missingExit) := by
  have h := runFrom_append m hm 0 p [] hp hexit
  rwa [List.append_nil] at h

/-! ## Flushing -/

/-- The machine with its sink flushed. -/
def drained (m : Machine σ) : Machine σ := { m with sink := (Sink.flush m.sink).1 }

/-- The machine after a run is the one that the instructions lead to, with its sink flushed. -/
theorem execute_fst (m : Machine σ) (p : Program) :
    (m.execute p).1 = (m.runFrom 0 p).1.drained := by
  show ((m.runFrom 0 p).1.flushed (m.runFrom 0 p).2).1 = _
  rw [flushed, drained]
  rcases Sink.flush (m.runFrom 0 p).1.sink with ⟨sink, _ | reason⟩ <;> rfl

/-- A fault of the run is its result, whatever the flush does. -/
theorem execute_snd_of_error (m : Machine σ) (p : Program) (fault : RunFault)
    (h : (m.runFrom 0 p).2 = .error fault) : (m.execute p).2 = .error fault := by
  show ((m.runFrom 0 p).1.flushed (m.runFrom 0 p).2).2 = _
  rw [flushed, h]
  rcases Sink.flush (m.runFrom 0 p).1.sink with ⟨sink, _ | reason⟩ <;> rfl

/-- A run that succeeds has the result of its flush. -/
theorem execute_snd_of_ok (m : Machine σ) (p : Program) (h : (m.runFrom 0 p).2 = .ok ()) :
    ((Sink.flush (m.runFrom 0 p).1.sink).2 = none → (m.execute p).2 = .ok ()) ∧
      ∀ reason, (Sink.flush (m.runFrom 0 p).1.sink).2 = some reason →
        (m.execute p).2 = .error (.output (m.runFrom 0 p).1.index reason) := by
  have hexecute : m.execute p = (m.runFrom 0 p).1.flushed (.ok ()) := by
    rw [← h]
    rfl
  rw [hexecute, flushed]
  rcases Sink.flush (m.runFrom 0 p).1.sink with ⟨sink, _ | reason⟩
  · refine ⟨fun _ => rfl, ?_⟩
    rintro _ ⟨⟩
  · refine ⟨?_, ?_⟩
    · rintro ⟨⟩
    · rintro _ ⟨⟩
      rfl

/-! ## Faults by their numbers -/

/-- The fault of a run names no instruction before the first of the run. -/
theorem le_index_of_runFrom_error (m : Machine σ) (k : Nat) (is : List Instruction)
    (fault : RunFault) (h : (m.runFrom k is).2 = .error fault) (n : Nat)
    (hn : fault.index? = some n) : k ≤ n := by
  induction is generalizing m k with
  | nil =>
    cases h
    cases hn
  | cons i rest ih =>
    obtain ⟨flow, hflow⟩ | ⟨fault', hfault⟩ := m.attempt_cases k i
    · rw [runFrom_cons_of_ok m k i rest flow hflow] at h
      split at h
      · cases h
      · exact Nat.le_of_succ_le (ih _ (k + 1) h)
    · rw [runFrom_cons_of_error m k i rest fault' hfault] at h
      cases h
      have hindex : fault.index? = some k := index?_of_step_error _ i fault hfault
      exact Nat.le_of_eq (Option.some.inj (hindex.symm.trans hn))

/-- **The fault of a run is the fault of one of its instructions**, unless an `exit` is missing. The
instruction was tried on a machine of which holds what a run preserves, and the run leaves what it
has left. -/
theorem exists_attempt_of_runFrom_error {P : Machine σ → Prop}
    (hattempt : ∀ (m : Machine σ) (k : Nat) (i : Instruction), P m → P (m.attempt k i).1)
    (hsettle : ∀ (m : Machine σ) (flow : Flow), P m → P (m.settle flow)) (m : Machine σ) (k : Nat)
    (is : List Instruction) (hm : P m) (fault : RunFault) (h : (m.runFrom k is).2 = .error fault)
    (hexit : fault ≠ .missingExit) :
    ∃ (n : Nat) (i : Instruction) (m' : Machine σ), is[n]? = some i ∧ P m' ∧
      m'.attempt (k + n) i = ((m.runFrom k is).1, .error fault) := by
  induction is generalizing m k with
  | nil =>
    cases h
    exact absurd rfl hexit
  | cons i rest ih =>
    obtain ⟨flow, hflow⟩ | ⟨fault', hfault⟩ := m.attempt_cases k i
    · rw [runFrom_cons_of_ok m k i rest flow hflow] at h ⊢
      split at h
      · cases h
      · rename_i hgoes
        obtain ⟨n, i', m', hi, hm', hfails⟩ :=
          ih _ (k + 1) (hsettle _ flow (hattempt m k i hm)) h
        refine ⟨n + 1, i', m', hi, hm', ?_⟩
        rw [if_neg hgoes, ← Nat.add_assoc, Nat.add_right_comm]
        exact hfails
    · rw [runFrom_cons_of_error m k i rest fault' hfault] at h ⊢
      cases h
      exact ⟨0, i, m, rfl, hm, Prod.ext rfl hfault⟩

/-- A fault that is not one of output comes from the instructions and not from the flush. -/
theorem runFrom_snd_of_execute (m : Machine σ) (p : Program) (fault : RunFault)
    (hfault : ∀ index reason, fault ≠ .output index reason)
    (h : (m.execute p).2 = .error fault) : (m.runFrom 0 p).2 = .error fault := by
  cases hrun : (m.runFrom 0 p).2 with
  | ok =>
    obtain ⟨hnone, hsome⟩ := m.execute_snd_of_ok p hrun
    cases hflush : (Sink.flush (m.runFrom 0 p).1.sink).2 with
    | none =>
      rw [hnone hflush] at h
      cases h
    | some reason =>
      rw [hsome reason hflush] at h
      cases h
      exact absurd rfl (hfault _ reason)
  | error fault' =>
    rw [m.execute_snd_of_error p fault' hrun] at h
    exact h

/-- **A fault with the number of an instruction is the fault of that instruction**, where a run gets
to it and the fault is not one of output. -/
theorem execute_eq_error_iff (m : Machine σ) (hm : m.terminated = false) (before : List Instruction)
    (i : Instruction) (after : List Instruction) (hbefore : m.Completes 0 before)
    (hexit : .exit ∉ before) (fault : RunFault) (hindex : fault.index? = some before.length)
    (hfault : ∀ index reason, fault ≠ .output index reason) :
    (m.execute (before ++ i :: after)).2 = .error fault ↔
      ((m.walk 0 before).attempt before.length i).2 = .error fault := by
  constructor
  · intro h
    have hrun := m.runFrom_snd_of_execute _ fault hfault h
    rw [runFrom_append m hm 0 before _ hbefore hexit, Nat.zero_add] at hrun
    obtain ⟨flow, hflow⟩ | ⟨fault', hfault'⟩ := (m.walk 0 before).attempt_cases before.length i
    · rw [runFrom_cons_of_ok _ _ i after flow hflow] at hrun
      split at hrun
      · cases hrun
      · -- the faults of all later instructions have greater numbers
        have hle := le_index_of_runFrom_error _ _ after fault hrun before.length hindex
        omega
    · rw [runFrom_cons_of_error _ _ i after fault' hfault'] at hrun
      cases hrun
      exact hfault'
  · intro h
    apply execute_snd_of_error
    rw [m.runFrom_of_error hm before i after hbefore hexit fault h]

end Machine

end NumStack
