import NumStack.Machine
import NumStack.Proofs.FiniteOperands

/-!
# Steps

What an instruction can do to a stack, as two relations with one rule for each way it can go: the
effects it has and the faults it raises. Both agree with the effect that a machine computes, and a
step of the machine either carries out an effect, or raises a fault and changes nothing, or has its
output refused and changes nothing but the sink.
-/

namespace NumStack

/-! ## Arithmetic on finite operands -/

/-- The result of an operation is finite, and its kind is the greater of the two kinds. -/
theorem Operation.finite_of_apply (op : Operation) (left right result : Operand)
    (h : op.apply left right = .ok result) :
    result.kind = left.kind.max right.kind ∧ result.isFinite = true := by
  rw [apply] at h
  split at h
  · cases h
  · exact Operand.finite_of_ofWide _ _ _ h

namespace Instruction

/-! ## Effects and faults of instructions -/

/-- The effects that instructions have on a stack. -/
inductive HasEffect : Instruction → List Operand → Effect → Prop
  | push (v : Operand) (s : List Operand) (hv : v.isFinite = true) :
      HasEffect (push v) s ⟨v :: s, []⟩
  | pop (top : Operand) (s : List Operand) : HasEffect pop (top :: s) ⟨s, []⟩
  | dump (s : List Operand) : HasEffect dump s ⟨s, dumpLines s⟩
  | assert (v top : Operand) (s : List Operand) (hv : v.isFinite = true)
      (hagrees : agrees top v = true) : HasEffect (assert v) (top :: s) ⟨top :: s, []⟩
  | arith (op : Operation) (left right result : Operand) (s : List Operand)
      (hresult : op.apply left right = .ok result) :
      HasEffect (arith op) (right :: left :: s) ⟨result :: s, []⟩
  | print (code : Int8) (s : List Operand) :
      HasEffect print (.int8 code :: s) ⟨.int8 code :: s, [[code.toUInt8]]⟩
  | exit (s : List Operand) : HasEffect exit s ⟨s, []⟩

/-- The faults that the instruction number `k` raises on a stack. -/
inductive HasFault (k : Nat) : Instruction → List Operand → RunFault → Prop
  | push (v : Operand) (s : List Operand) (cause : OperandFault) (hv : v.checked = .error cause) :
      HasFault k (push v) s (.arithmetic k cause)
  | pop : HasFault k pop [] (.emptyStack k .pop)
  | assertValue (v : Operand) (s : List Operand) (cause : OperandFault)
      (hv : v.checked = .error cause) : HasFault k (assert v) s (.arithmetic k cause)
  | assertEmpty (v : Operand) (hv : v.isFinite = true) :
      HasFault k (assert v) [] (.emptyStack k .assert)
  | assertFailed (v top : Operand) (s : List Operand) (hv : v.isFinite = true)
      (hagrees : agrees top v = false) :
      HasFault k (assert v) (top :: s) (.assertFailed k v.typedText top.typedText)
  | short (op : Operation) (s : List Operand) (hs : s.length < 2) :
      HasFault k (arith op) s (.insufficientValues k (.arith op) s.length)
  | arith (op : Operation) (left right : Operand) (s : List Operand) (cause : OperandFault)
      (hresult : op.apply left right = .error cause) :
      HasFault k (arith op) (right :: left :: s) (.arithmetic k cause)
  | printEmpty : HasFault k print [] (.emptyStack k .print)
  | notPrintable (top : Operand) (s : List Operand) (htop : top.kind ≠ .int8) :
      HasFault k print (top :: s) (.notPrintable k top.typedText)

theorem validated_of_isFinite (k : Nat) (v : Operand) (hv : v.isFinite = true) :
    validated k v = .ok v := by
  rw [validated, v.checked_of_isFinite hv]
  rfl

theorem validated_of_checked (k : Nat) (v : Operand) (cause : OperandFault)
    (hv : v.checked = .error cause) : validated k v = .error (.arithmetic k cause) := by
  rw [validated, hv]
  rfl

theorem isFinite_or_checked (v : Operand) :
    v.isFinite = true ∨ ∃ cause, v.checked = .error cause := by
  cases h : v.checked with
  | error cause => exact .inr ⟨cause, rfl⟩
  | ok w => exact .inl ((v.checked_eq_ok_iff w).1 h).1

/-- The computed effect is the effect that the rules give. -/
theorem HasEffect.effect_eq {i : Instruction} {s : List Operand} {e : Effect}
    (h : i.HasEffect s e) (k : Nat) : i.effect k s = .ok e := by
  cases h with
  | push v s hv =>
    rw [effect, validated_of_isFinite k v hv]
    rfl
  | assert v top s hv hagrees =>
    rw [effect, validated_of_isFinite k v hv]
    exact if_pos hagrees
  | arith op left right result s hresult =>
    simp only [effect, hresult]
    rfl
  | pop | dump | print | exit => rfl

/-- The computed fault is the fault that the rules give. -/
theorem HasFault.effect_eq {k : Nat} {i : Instruction} {s : List Operand} {fault : RunFault}
    (h : i.HasFault k s fault) : i.effect k s = .error fault := by
  cases h with
  | push v s cause hv =>
    rw [effect, validated_of_checked k v cause hv]
    rfl
  | assertValue v s cause hv =>
    rw [effect, validated_of_checked k v cause hv]
    rfl
  | assertEmpty v hv =>
    rw [effect, validated_of_isFinite k v hv]
    rfl
  | assertFailed v top s hv hagrees =>
    rw [effect, validated_of_isFinite k v hv]
    exact if_neg (by simp [hagrees])
  | short op s hs =>
    match s, hs with
    | [], _ => rfl
    | [_], _ => rfl
  | arith op left right s cause hresult =>
    simp only [effect, hresult]
    rfl
  | notPrintable top s htop =>
    cases top with
    | int8 code => exact absurd rfl htop
    | int16 | int32 | float | double => rfl
  | pop | printEmpty => rfl

/-- On every stack an instruction has an effect or raises a fault. -/
theorem hasEffect_or_hasFault (k : Nat) (i : Instruction) (s : List Operand) :
    (∃ e, i.HasEffect s e) ∨ ∃ fault, i.HasFault k s fault := by
  cases i with
  | push v =>
    obtain hv | ⟨cause, hv⟩ := isFinite_or_checked v
    · exact .inl ⟨_, .push v s hv⟩
    · exact .inr ⟨_, .push v s cause hv⟩
  | pop =>
    cases s with
    | nil => exact .inr ⟨_, .pop⟩
    | cons top s => exact .inl ⟨_, .pop top s⟩
  | dump => exact .inl ⟨_, .dump s⟩
  | assert v =>
    obtain hv | ⟨cause, hv⟩ := isFinite_or_checked v
    · cases s with
      | nil => exact .inr ⟨_, .assertEmpty v hv⟩
      | cons top s =>
        cases hagrees : agrees top v with
        | true => exact .inl ⟨_, .assert v top s hv hagrees⟩
        | false => exact .inr ⟨_, .assertFailed v top s hv hagrees⟩
    · exact .inr ⟨_, .assertValue v s cause hv⟩
  | arith op =>
    match s with
    | [] => exact .inr ⟨_, .short op [] Nat.zero_lt_two⟩
    | [right] => exact .inr ⟨_, .short op [right] Nat.one_lt_two⟩
    | right :: left :: s =>
      cases hresult : op.apply left right with
      | ok result => exact .inl ⟨_, .arith op left right result s hresult⟩
      | error cause => exact .inr ⟨_, .arith op left right s cause hresult⟩
  | print =>
    cases s with
    | nil => exact .inr ⟨_, .printEmpty⟩
    | cons top s =>
      by_cases htop : top.kind = .int8
      · cases top with
        | int8 code => exact .inl ⟨_, .print code s⟩
        | int16 | int32 | float | double => cases htop
      · exact .inr ⟨_, .notPrintable top s htop⟩
  | exit => exact .inl ⟨_, .exit s⟩

/-- **Effects.** The computed effects are those that the rules give. -/
theorem effect_eq_ok_iff (i : Instruction) (k : Nat) (s : List Operand) (e : Effect) :
    i.effect k s = .ok e ↔ i.HasEffect s e := by
  constructor
  · intro h
    obtain ⟨e', he⟩ | ⟨fault, hfault⟩ := hasEffect_or_hasFault k i s
    · rw [he.effect_eq k] at h
      cases h
      exact he
    · rw [hfault.effect_eq] at h
      cases h
  · intro h
    exact h.effect_eq k

/-- **Faults.** The computed faults are those that the rules give. -/
theorem effect_eq_error_iff (i : Instruction) (k : Nat) (s : List Operand) (fault : RunFault) :
    i.effect k s = .error fault ↔ i.HasFault k s fault := by
  constructor
  · intro h
    obtain ⟨e, he⟩ | ⟨fault', hfault⟩ := hasEffect_or_hasFault k i s
    · rw [he.effect_eq k] at h
      cases h
    · rw [hfault.effect_eq] at h
      cases h
      exact hfault
  · intro h
    exact h.effect_eq

/-- Every fault of an instruction names its number. -/
theorem HasFault.index?_eq {k : Nat} {i : Instruction} {s : List Operand} {fault : RunFault}
    (h : i.HasFault k s fault) : fault.index? = some k := by
  cases h <;> rfl

theorem flow_eq_exit_iff (i : Instruction) : i.flow = .exit ↔ i = .exit := by
  cases i <;> simp [flow, opcode]

end Instruction

namespace Machine

variable {σ : Type} [Sink σ]

/-! ## Steps of a machine -/

/-- A step carries out an effect whose output the sink takes. -/
theorem step_of_taken (m : Machine σ) {i : Instruction} {e : Effect} {sink : σ}
    (he : i.HasEffect m.stack e) (htaken : Sink.writeEach m.sink e.output = (sink, none)) :
    m.step i = ({ m with stack := e.stack, sink }, .ok i.flow) := by
  rw [step, he.effect_eq]
  dsimp only
  rw [htaken]

/-- A step whose output the sink refuses changes the sink only. -/
theorem step_of_refused (m : Machine σ) {i : Instruction} {e : Effect} {sink : σ} {reason : String}
    (he : i.HasEffect m.stack e)
    (hrefused : Sink.writeEach m.sink e.output = (sink, some reason)) :
    m.step i = ({ m with sink }, .error (.output m.index reason)) := by
  rw [step, he.effect_eq]
  dsimp only
  rw [hrefused]

/-- A step whose instruction raises a fault changes nothing. -/
theorem step_of_hasFault (m : Machine σ) {i : Instruction} {fault : RunFault}
    (hfault : i.HasFault m.index m.stack fault) : m.step i = (m, .error fault) := by
  rw [step, hfault.effect_eq]

/-- **What one step can do.** Its instruction has an effect and the sink takes the output, or it has
an effect and the sink refuses the output, or it raises a fault. -/
theorem step_cases (m : Machine σ) (i : Instruction) :
    (∃ e sink, i.HasEffect m.stack e ∧ Sink.writeEach m.sink e.output = (sink, none) ∧
      m.step i = ({ m with stack := e.stack, sink }, .ok i.flow)) ∨
    (∃ e sink reason, i.HasEffect m.stack e ∧
      Sink.writeEach m.sink e.output = (sink, some reason) ∧
      m.step i = ({ m with sink }, .error (.output m.index reason))) ∨
    ∃ fault, i.HasFault m.index m.stack fault ∧ m.step i = (m, .error fault) := by
  cases h : i.effect m.index m.stack with
  | ok e =>
    have he := (i.effect_eq_ok_iff m.index m.stack e).1 h
    rcases hwritten : Sink.writeEach m.sink e.output with ⟨sink, _ | reason⟩
    · exact .inl ⟨e, sink, he, hwritten, m.step_of_taken he hwritten⟩
    · exact .inr (.inl ⟨e, sink, reason, he, hwritten, m.step_of_refused he hwritten⟩)
  | error fault =>
    have hfault := (i.effect_eq_error_iff m.index m.stack fault).1 h
    exact .inr (.inr ⟨fault, hfault, m.step_of_hasFault hfault⟩)

theorem step_terminated (m : Machine σ) (i : Instruction) :
    (m.step i).1.terminated = m.terminated := by
  obtain ⟨_, _, -, -, h⟩ | ⟨_, _, _, -, -, h⟩ | ⟨_, -, h⟩ := m.step_cases i <;> rw [h]

/-- All that a step does to the sink is to write some pieces of output. -/
theorem exists_writeEach_of_step (m : Machine σ) (i : Instruction) :
    ∃ pieces, (m.step i).1.sink = (Sink.writeEach m.sink pieces).1 := by
  obtain ⟨e, _, -, htaken, h⟩ | ⟨e, _, _, -, hrefused, h⟩ | ⟨_, -, h⟩ := m.step_cases i
  · exact ⟨e.output, by rw [h, htaken]⟩
  · exact ⟨e.output, by rw [h, hrefused]⟩
  · exact ⟨[], by rw [h]; rfl⟩

theorem flow_of_step (m : Machine σ) (i : Instruction) (flow : Flow)
    (h : (m.step i).2 = .ok flow) : flow = i.flow := by
  obtain ⟨_, _, -, -, hstep⟩ | ⟨_, _, _, -, -, hstep⟩ | ⟨_, -, hstep⟩ := m.step_cases i <;>
    rw [hstep] at h <;> cases h
  rfl

/-- A step that succeeds leaves the stack of an effect of its instruction. -/
theorem hasEffect_of_step (m : Machine σ) (i : Instruction) (flow : Flow)
    (h : (m.step i).2 = .ok flow) :
    ∃ e, i.HasEffect m.stack e ∧ (m.step i).1.stack = e.stack := by
  obtain ⟨e, _, he, -, hstep⟩ | ⟨_, _, _, -, -, hstep⟩ | ⟨_, -, hstep⟩ := m.step_cases i <;>
    rw [hstep] at h ⊢
  · exact ⟨e, he, rfl⟩
  · cases h
  · cases h

theorem stack_of_step_error (m : Machine σ) (i : Instruction) (fault : RunFault)
    (h : (m.step i).2 = .error fault) : (m.step i).1.stack = m.stack := by
  obtain ⟨_, _, -, -, hstep⟩ | ⟨_, _, _, -, -, hstep⟩ | ⟨_, -, hstep⟩ := m.step_cases i <;>
    rw [hstep] at h ⊢
  cases h

/-- The fault of a step names the number of the instruction. -/
theorem index?_of_step_error (m : Machine σ) (i : Instruction) (fault : RunFault)
    (h : (m.step i).2 = .error fault) : fault.index? = some m.index := by
  obtain ⟨_, _, -, -, hstep⟩ | ⟨_, _, _, -, -, hstep⟩ | ⟨_, hfault, hstep⟩ := m.step_cases i <;>
    rw [hstep] at h <;> cases h
  · rfl
  · exact hfault.index?_eq

theorem step_exit (m : Machine σ) : m.step .exit = (m, .ok .exit) := rfl

end Machine

end NumStack
