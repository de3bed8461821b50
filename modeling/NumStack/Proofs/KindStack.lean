import NumStack.Proofs.RunEnds

/-!
# Stacks of kinds

An abstract machine knows of each value on the stack its kind only. As long as the instructions of a
program succeed, the kinds on the stack are those that the abstract machine computes. The faults
that come from the shape of the stack, which holds nothing, too few values, or no `int8` on top, are
the ones that the abstract machine foretells, so they do not depend on the values that a program
computes.
-/

namespace NumStack

/-! ## The abstract machine -/

/-- What an instruction does to the kinds of the values on a stack, top first. -/
def Instruction.onKinds (i : Instruction) (s : List Kind) : List Kind :=
  match i, s with
  | push v, s => v.kind :: s
  | pop, s => s.tail
  | arith _, right :: left :: s => left.max right :: s
  | _, s => s

/-- The kinds on the stack after the instructions of a program, on a stack that was empty. -/
def Program.kinds (p : Program) : List Kind := p.foldl (fun s i => i.onKinds s) []

namespace Instruction

/-- **Effects respect kinds.** -/
theorem HasEffect.map_kind {i : Instruction} {s : List Operand} {e : Effect} (h : i.HasEffect s e) :
    e.stack.map Operand.kind = i.onKinds (s.map Operand.kind) := by
  cases h with
  | arith op left right result s hresult =>
    rw [List.map_cons, (op.finite_of_apply left right result hresult).1]
    rfl
  | push | pop | dump | assert | print | exit => rfl

/-! ## Faults of the shape of the stack -/

/-- Nothing on the stack is the fault of `pop`, `print`, and of `assert` if its value is valid. -/
theorem hasFault_emptyStack_iff (k : Nat) (i : Instruction) (s : List Operand) (opcode : Opcode)
    (hvalue : ∀ v, i = .assert v → v.checked = .ok v) :
    i.HasFault k s (.emptyStack k opcode) ↔
      opcode = i.opcode ∧ opcode ∈ [Opcode.pop, .assert, .print] ∧ s = [] := by
  constructor
  · intro h
    cases h with
    | pop | assertEmpty | printEmpty => exact ⟨rfl, by decide, rfl⟩
  · rintro ⟨rfl, hopcode, rfl⟩
    cases i with
    | pop => exact .pop
    | assert v => exact .assertEmpty v (v.isFinite_of_checked v (hvalue v rfl))
    | print => exact .printEmpty
    | push | dump | arith | exit => simp [Instruction.opcode] at hopcode

/-- Too few values on the stack are the fault of arithmetic. -/
theorem hasFault_insufficientValues_iff (k : Nat) (i : Instruction) (s : List Operand)
    (opcode : Opcode) (found : Nat) :
    i.HasFault k s (.insufficientValues k opcode found) ↔
      opcode = i.opcode ∧ (∃ op, i = .arith op) ∧ found = s.length ∧ found < 2 := by
  constructor
  · intro h
    cases h with
    | short op s hs => exact ⟨rfl, ⟨op, rfl⟩, rfl, hs⟩
  · rintro ⟨rfl, ⟨op, rfl⟩, rfl, hs⟩
    exact .short op s hs

/-- A top value of another kind than `int8` is the fault of `print`. -/
theorem hasFault_notPrintable_iff (k : Nat) (i : Instruction) (s : List Operand) :
    (∃ found, i.HasFault k s (.notPrintable k found)) ↔
      i = .print ∧ ∃ top rest, s = top :: rest ∧ top.kind ≠ .int8 := by
  constructor
  · rintro ⟨found, h⟩
    cases h with
    | notPrintable top s htop => exact ⟨rfl, top, s, rfl, htop⟩
  · rintro ⟨rfl, top, rest, rfl, htop⟩
    exact ⟨_, .notPrintable top rest htop⟩

end Instruction

namespace Machine

variable {σ : Type} [Sink σ]

/-- The faults of an instruction that are not faults of output do not depend on the sink. -/
theorem attempt_eq_error_iff (m : Machine σ) (k : Nat) (i : Instruction) (fault : RunFault)
    (hfault : ∀ index reason, fault ≠ .output index reason) :
    (m.attempt k i).2 = .error fault ↔ i.HasFault k m.stack fault := by
  constructor
  · intro h
    obtain ⟨_, _, -, -, hstep⟩ | ⟨_, _, reason, -, -, hstep⟩ | ⟨_, hraised, hstep⟩ :=
      step_cases { m with index := k } i <;> rw [attempt, hstep] at h <;> cases h
    · exact absurd rfl (hfault k reason)
    · exact hraised
  · intro h
    rw [attempt, step_of_hasFault { m with index := k } h]

/-! ## Runs respect kinds -/

/-- **Walks respect kinds.** While instructions succeed, the kinds on the stack are those that the
abstract machine computes. -/
theorem walk_map_kind (m : Machine σ) (k : Nat) (is : List Instruction) (h : m.Completes k is) :
    (m.walk k is).stack.map Operand.kind =
      is.foldl (fun s i => i.onKinds s) (m.stack.map Operand.kind) := by
  induction is generalizing m k with
  | nil => rfl
  | cons i rest ih =>
    obtain ⟨⟨flow, hflow⟩, hrest⟩ := h
    obtain ⟨e, he, hstack⟩ := hasEffect_of_step { m with index := k } i flow hflow
    have hkinds : (m.attempt k i).1.stack.map Operand.kind =
        i.onKinds (m.stack.map Operand.kind) := by
      rw [attempt, hstack]
      exact he.map_kind
    rw [walk, ih _ _ hrest, hkinds, List.foldl_cons]

/-- **The abstract machine foretells the shape of the stack.** Let the first `k` instructions of a
program succeed on a fresh machine. Then the kinds on its stack are those that the abstract machine
computes. If a run gets to the instruction number `k`, and this is not an `assert` of an invalid
value, then the run fails there with nothing on the stack, with too few values, or with a value that
cannot be printed exactly if the abstract stack says so. -/
theorem kinds_foretell_stack_faults (sink : σ) (p : Program) (k : Nat)
    (hk : (fresh sink).Completes 0 (p.take k)) :
    ((fresh sink).after p k).stack.map Operand.kind = Program.kinds (p.take k) ∧
      (.exit ∉ p.take k → ∀ i, p[k]? = some i → (∀ v, i = .assert v → v.checked = .ok v) →
        (∀ opcode, ((fresh sink).execute p).2 = .error (.emptyStack k opcode) ↔
          opcode = i.opcode ∧ opcode ∈ [Opcode.pop, .assert, .print] ∧
            Program.kinds (p.take k) = []) ∧
        (∀ opcode found, ((fresh sink).execute p).2 = .error (.insufficientValues k opcode found) ↔
          opcode = i.opcode ∧ (∃ op, i = .arith op) ∧
            found = (Program.kinds (p.take k)).length ∧ found < 2) ∧
        ((∃ found, ((fresh sink).execute p).2 = .error (.notPrintable k found)) ↔
          i = .print ∧ ∃ top rest, Program.kinds (p.take k) = top :: rest ∧ top ≠ .int8)) := by
  have hkinds : ((fresh sink).after p k).stack.map Operand.kind = Program.kinds (p.take k) :=
    walk_map_kind (fresh sink) 0 (p.take k) hk
  refine ⟨hkinds, ?_⟩
  intro hexit i hi hvalue
  obtain ⟨hp, hlength⟩ := cut_at_index p k i hi
  -- a fault with the number `k` that is not one of output is a fault of this instruction
  have hfault : ∀ fault : RunFault, fault.index? = some k →
      (∀ index reason, fault ≠ .output index reason) →
      (((fresh sink).execute p).2 = .error fault ↔
        i.HasFault k ((fresh sink).after p k).stack fault) := by
    intro fault hindex houtput
    have hexecute := (fresh sink).execute_eq_error_iff rfl (p.take k) i (p.drop (k + 1)) hk hexit
      fault (by rw [hlength, hindex]) houtput
    rw [hp, hlength] at hexecute
    exact hexecute.trans (attempt_eq_error_iff _ k i fault houtput)
  rw [← hkinds]
  refine ⟨?_, ?_, ?_⟩
  · intro opcode
    rw [hfault (.emptyStack k opcode) rfl (by simp),
      Instruction.hasFault_emptyStack_iff _ _ _ _ hvalue, List.map_eq_nil_iff]
  · intro opcode found
    rw [hfault (.insufficientValues k opcode found) rfl (by simp),
      Instruction.hasFault_insufficientValues_iff, List.length_map]
  · have hshape : (∃ found, ((fresh sink).execute p).2 = .error (.notPrintable k found)) ↔
        ∃ found, i.HasFault k ((fresh sink).after p k).stack (.notPrintable k found) :=
      exists_congr fun found => hfault (.notPrintable k found) rfl (by simp)
    rw [hshape, Instruction.hasFault_notPrintable_iff]
    constructor
    · rintro ⟨rfl, top, rest, hstack, htop⟩
      exact ⟨rfl, top.kind, rest.map Operand.kind, by rw [hstack, List.map_cons], htop⟩
    · rintro ⟨rfl, top, rest, hstack, htop⟩
      obtain ⟨v, s, hs, rfl, -⟩ := List.map_eq_cons_iff.1 hstack
      exact ⟨rfl, v, s, hs, htop⟩

/-- A sum of an `int8` and an `int16` is an `int16`, so printing it fails whatever the sum is. -/
theorem kinds_foretell_stack_faults_mixed_sum :
    (fresh ({} : Buffer)).Completes 0 [.push (.int8 72), .push (.int16 1), .arith .add] ∧
      ((fresh ({} : Buffer)).after [.push (.int8 72), .push (.int16 1), .arith .add, .print,
        .exit] 3).stack.map Operand.kind = [.int16] ∧
      ∃ found, ((fresh ({} : Buffer)).execute [.push (.int8 72), .push (.int16 1), .arith .add,
        .print, .exit]).2 = .error (.notPrintable 3 found) := by
  have hcompletes : (fresh ({} : Buffer)).Completes 0
      [.push (.int8 72), .push (.int16 1), .arith .add] :=
    ⟨⟨.next, by decide +kernel⟩, ⟨.next, by decide +kernel⟩, ⟨.next, by decide +kernel⟩, trivial⟩
  obtain ⟨hkinds, hfaults⟩ := kinds_foretell_stack_faults ({} : Buffer)
    [.push (.int8 72), .push (.int16 1), .arith .add, .print, .exit] 3 hcompletes
  refine ⟨hcompletes, hkinds, ?_⟩
  exact (hfaults (by simp) .print rfl (by simp)).2.2.2 ⟨rfl, .int16, [], rfl, by decide⟩

end Machine

end NumStack
