import Mathlib.Order.Bounds.Basic
import NumStack.Proofs.Recording

/-!
# How runs end

The first index of a program at which the instruction is `exit` or fails decides everything about a
run of the program: its result, the machine it leaves, and the number in its fault. The instructions
behind that index do not matter. The sink is flushed once, when the instructions are over, and a
failing flush is the result of the run only if the run has succeeded.
-/

namespace NumStack

namespace Machine

variable {σ : Type} [Sink σ]

/-! ## Where a program stops -/

/-- The machine on which the first `k` instructions of a program have been tried. -/
def after (m : Machine σ) (p : Program) (k : Nat) : Machine σ := m.walk 0 (p.take k)

/-- The indices at which a program stops a run that gets there: the instruction is `exit`, or fails
on the machine on which those before it have been tried. -/
def stops (m : Machine σ) (p : Program) : Set Nat :=
  {k | ∃ i, p[k]? = some i ∧ (i = .exit ∨ ∃ fault, ((m.after p k).attempt k i).2 = .error fault)}

theorem cut_at_index (p : Program) (k : Nat) (i : Instruction) (h : p[k]? = some i) :
    p.take k ++ i :: p.drop (k + 1) = p ∧ (p.take k).length = k := by
  obtain ⟨hlt, rfl⟩ := List.getElem?_eq_some_iff.1 h
  rw [← List.drop_eq_getElem_cons hlt, List.take_append_drop]
  exact ⟨rfl, List.length_take_of_le hlt.le⟩

/-- Where a program does not stop before an index, the instructions up to there succeed and none of
them is `exit`. -/
theorem completes_of_not_mem_stops (m : Machine σ) (p : Program) (k : Nat)
    (h : ∀ j < k, j ∉ m.stops p) : m.Completes 0 (p.take k) ∧ .exit ∉ p.take k := by
  have hindex : ∀ j i, (p.take k)[j]? = some i → j < k ∧ p[j]? = some i := by
    intro j i hi
    rw [List.getElem?_take] at hi
    split at hi
    · exact ⟨‹_›, hi⟩
    · cases hi
  constructor
  · rw [completes_iff]
    intro j i hi
    obtain ⟨hj, hi⟩ := hindex j i hi
    rw [List.take_take, Nat.min_eq_left hj.le, Nat.zero_add]
    obtain hok | hfail := ((m.walk 0 (p.take j)).attempt_cases j i)
    · exact hok
    · exact absurd ⟨i, hi, .inr hfail⟩ (h j hj)
  · intro hmem
    obtain ⟨j, hi⟩ := List.mem_iff_getElem?.1 hmem
    obtain ⟨hj, hi⟩ := hindex j .exit hi
    exact h j hj ⟨.exit, hi, .inl rfl⟩

/-- A program is cut at its first stop: the instructions before it succeed, none of them is `exit`,
and there are as many of them as its index says. -/
theorem cut_at_least_stop (m : Machine σ) (p : Program) (k : Nat) (i : Instruction)
    (hk : IsLeast (m.stops p) k) (hi : p[k]? = some i) :
    p.take k ++ i :: p.drop (k + 1) = p ∧ (p.take k).length = k ∧ m.Completes 0 (p.take k) ∧
      .exit ∉ p.take k := by
  obtain ⟨hp, hlength⟩ := cut_at_index p k i hi
  refine ⟨hp, hlength, ?_⟩
  apply completes_of_not_mem_stops
  intro j hj hmem
  exact absurd (hk.2 hmem) (not_le.2 hj)

/-! ## The three ends of a run -/

/-- A run whose first stop is an `exit`. -/
theorem runFrom_of_least_exit (m : Machine σ) (hm : m.terminated = false) (p : Program) (k : Nat)
    (hk : IsLeast (m.stops p) k) (hi : p[k]? = some .exit) :
    m.runFrom 0 p = ({ m.after p k with terminated := true, index := k }, .ok ()) := by
  obtain ⟨hp, hlength, hcompletes, hexit⟩ := m.cut_at_least_stop p k .exit hk hi
  have hrun := m.runFrom_of_exit hm (p.take k) (p.drop (k + 1)) hcompletes hexit
  rwa [hp, hlength] at hrun

/-- A run whose first stop is a fault. -/
theorem runFrom_of_least_error (m : Machine σ) (hm : m.terminated = false) (p : Program) (k : Nat)
    (i : Instruction) (fault : RunFault) (hk : IsLeast (m.stops p) k) (hi : p[k]? = some i)
    (hfault : ((m.after p k).attempt k i).2 = .error fault) :
    m.runFrom 0 p = (((m.after p k).attempt k i).1, .error fault) := by
  obtain ⟨hp, hlength, hcompletes, hexit⟩ := m.cut_at_least_stop p k i hk hi
  have hrun := m.runFrom_of_error hm (p.take k) i (p.drop (k + 1)) hcompletes hexit fault
    (by rwa [hlength])
  rwa [hp, hlength] at hrun

/-- A run without a stop. -/
theorem runFrom_of_stops_eq_empty (m : Machine σ) (hm : m.terminated = false) (p : Program)
    (h : m.stops p = ∅) : m.runFrom 0 p = (m.after p p.length, .error .missingExit) := by
  have hnone : ∀ j < p.length, j ∉ m.stops p := by
    intro j _
    rw [h]
    exact Set.notMem_empty j
  obtain ⟨hcompletes, hexit⟩ := m.completes_of_not_mem_stops p p.length hnone
  rw [after]
  rw [List.take_length] at hcompletes hexit ⊢
  exact m.runFrom_of_completes hm p hcompletes hexit

/-- The instructions behind the first stop do not matter. -/
theorem runFrom_take_append (m : Machine σ) (hm : m.terminated = false) (p : Program) (k : Nat)
    (q : List Instruction) (hk : IsLeast (m.stops p) k) :
    m.runFrom 0 (p.take (k + 1) ++ q) = m.runFrom 0 p := by
  obtain ⟨i, hi, hstop⟩ := hk.1
  obtain ⟨hp, hlength, hcompletes, hexit⟩ := m.cut_at_least_stop p k i hk hi
  have htake : p.take (k + 1) ++ q = p.take k ++ i :: q := by
    rw [List.take_add_one, hi, List.append_assoc]
    rfl
  rw [htake]
  obtain rfl | ⟨fault, hfault⟩ := hstop
  · rw [m.runFrom_of_exit hm _ q hcompletes hexit, m.runFrom_of_least_exit hm p k hk hi, hlength]
    rfl
  · rw [m.runFrom_of_error hm _ i q hcompletes hexit fault (by rwa [hlength]),
      m.runFrom_of_least_error hm p k i fault hk hi hfault, hlength]
    rfl

/-- **How a run ends.** On a machine that has not terminated, let `k` be the first index at which
the program has an `exit` or fails. An `exit` there makes the run succeed and terminates the
machine, and only then can a failing flush become the result. A fault there is the result, whatever
the flush does, and has the number `k`. Without such an index the result is a missing `exit`. The
machine is in each case the one that the instructions before `k` lead to, the instructions behind
`k` do not matter, and the calls to the sink are writes with one flush behind them. -/
theorem execute_ends_at_first_stop (m : Machine σ) (hm : m.terminated = false) (p : Program) :
    (∀ k, IsLeast (m.stops p) k → p[k]? = some .exit →
        (m.runFrom 0 p).2 = .ok () ∧
        (m.execute p).1 = drained { m.after p k with terminated := true, index := k } ∧
        ((Sink.flush (m.after p k).sink).2 = none → (m.execute p).2 = .ok ()) ∧
        ∀ reason, (Sink.flush (m.after p k).sink).2 = some reason →
          (m.execute p).2 = .error (.output k reason)) ∧
      (∀ k i fault, IsLeast (m.stops p) k → p[k]? = some i →
        ((m.after p k).attempt k i).2 = .error fault →
        (m.execute p).2 = .error fault ∧ fault.index? = some k ∧
        (m.execute p).1 = ((m.after p k).attempt k i).1.drained ∧
        (m.execute p).1.terminated = false ∧ (m.execute p).1.stack = (m.after p k).stack) ∧
      (m.stops p = ∅ →
        (m.execute p).2 = .error .missingExit ∧
        (m.execute p).1 = (m.after p p.length).drained ∧ (m.execute p).1.terminated = false) ∧
      (∀ k q, IsLeast (m.stops p) k → m.execute (p.take (k + 1) ++ q) = m.execute p) ∧
      ((m.recorded.execute p).1.mapSink Recorded.sink, (m.recorded.execute p).2) = m.execute p ∧
      ∃ writes : List (List UInt8),
        (m.recorded.execute p).1.sink.calls = writes.map .write ++ [.flush] := by
  have hafter : ∀ k, (m.after p k).terminated = false := by
    intro k
    exact (m.walk_terminated 0 (p.take k)).trans hm
  refine ⟨?_, ?_, ?_, ?_, m.execute_recorded p, m.execute_calls p⟩
  · intro k hk hi
    have hrun := m.runFrom_of_least_exit hm p k hk hi
    have hflush := m.execute_snd_of_ok p (congrArg Prod.snd hrun)
    rw [execute_fst]
    rw [hrun] at hflush ⊢
    exact ⟨rfl, rfl, hflush⟩
  · intro k i fault hk hi hfault
    have hrun := m.runFrom_of_least_error hm p k i fault hk hi hfault
    have hmachine : (m.execute p).1 = ((m.after p k).attempt k i).1.drained := by
      rw [execute_fst, hrun]
    refine ⟨m.execute_snd_of_error p fault (congrArg Prod.snd hrun), ?_, hmachine, ?_, ?_⟩
    · exact index?_of_step_error _ i fault hfault
    · rw [hmachine]
      exact (attempt_terminated _ k i).trans (hafter k)
    · rw [hmachine]
      exact stack_of_step_error _ i fault hfault
  · intro hempty
    have hrun := m.runFrom_of_stops_eq_empty hm p hempty
    have hmachine : (m.execute p).1 = (m.after p p.length).drained := by
      rw [execute_fst, hrun]
    refine ⟨m.execute_snd_of_error p .missingExit (congrArg Prod.snd hrun), hmachine, ?_⟩
    rw [hmachine]
    exact hafter p.length
  · intro k q hk
    rw [execute, execute, m.runFrom_take_append hm p k q hk]

/-- A machine that has been used, with a sink that cannot be flushed. -/
def unflushable : Machine Buffer :=
  { stack := [.int8 72], index := 9, sink := { flushFault := some "closed" } }

/-- The run comes to its `exit` at index 2 and terminates the machine; the flush fails with that
index, and the `pop` behind the `exit` is not carried out. -/
theorem execute_ends_at_first_stop_unflushable :
    unflushable.terminated = false ∧
      IsLeast (unflushable.stops [.print, .push (.int8 1), .exit, .pop]) 2 ∧
      (unflushable.execute [.print, .push (.int8 1), .exit, .pop]).2 =
        .error (.output 2 "closed") ∧
      (unflushable.execute [.print, .push (.int8 1), .exit, .pop]).1.terminated = true ∧
      (unflushable.execute [.print, .push (.int8 1), .exit, .pop]).1.stack =
        [.int8 1, .int8 72] := by
  have hprint : ((unflushable.after [.print, .push (.int8 1), .exit, .pop] 0).attempt 0 .print).2 =
      .ok .next := by decide +kernel
  have hpush : ((unflushable.after [.print, .push (.int8 1), .exit, .pop] 1).attempt 1
      (.push (.int8 1))).2 = .ok .next := by decide +kernel
  have hleast : IsLeast (unflushable.stops [.print, .push (.int8 1), .exit, .pop]) 2 := by
    refine ⟨⟨.exit, rfl, .inl rfl⟩, ?_⟩
    rintro j ⟨i, hi, hstop⟩
    by_contra hlt
    obtain rfl | rfl : j = 0 ∨ j = 1 := by omega
    · cases hi
      simp [hprint] at hstop
    · cases hi
      simp [hpush] at hstop
  obtain ⟨-, hmachine, -, hflush⟩ := (execute_ends_at_first_stop unflushable rfl
    [.print, .push (.int8 1), .exit, .pop]).1 2 hleast rfl
  refine ⟨rfl, hleast, hflush "closed" (by decide +kernel), ?_, ?_⟩
  · rw [hmachine]
    rfl
  · rw [hmachine]
    decide +kernel

end Machine

end NumStack
