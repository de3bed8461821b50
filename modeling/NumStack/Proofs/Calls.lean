import NumStack.Proofs.Runs

/-!
# Calls

A machine is used through calls, which are single steps and runs of programs. Whatever the calls
return and whatever the sink does, the stack only ever changes by effects of instructions. So what
all effects preserve holds of the stack after every sequence of calls. Above all, no value on a
stack is ever infinite or `nan`.
-/

namespace NumStack

/-- A call to a machine. -/
inductive Call where
  | step (i : Instruction)
  | execute (p : Program)

namespace Machine

variable {σ : Type} [Sink σ]

/-- The machine after a call, whatever the call has returned. -/
def call (m : Machine σ) : Call → Machine σ
  | .step i => (m.step i).1
  | .execute p => (m.execute p).1

/-- The machine after a sequence of calls. -/
def perform (m : Machine σ) (calls : List Call) : Machine σ := calls.foldl call m

/-! ## What effects preserve -/

section

variable {P : List Operand → Prop}
  (hP : ∀ (i : Instruction) (s : List Operand) (e : Effect), i.HasEffect s e → P s → P e.stack)

include hP

/-- A step preserves what effects preserve. -/
theorem stack_step (m : Machine σ) (i : Instruction) (hm : P m.stack) : P (m.step i).1.stack := by
  obtain ⟨flow, hflow⟩ | ⟨fault, hfault⟩ : (∃ flow, (m.step i).2 = .ok flow) ∨
      ∃ fault, (m.step i).2 = .error fault := m.attempt_cases m.index i
  · obtain ⟨e, he, hstack⟩ := m.hasEffect_of_step i flow hflow
    rw [hstack]
    exact hP i m.stack e he hm
  · rw [m.stack_of_step_error i fault hfault]
    exact hm

/-- The instructions of a run preserve what effects preserve. -/
theorem stack_runFrom (m : Machine σ) (k : Nat) (is : List Instruction) (hm : P m.stack) :
    P (m.runFrom k is).1.stack := by
  apply runFrom_preserves (P := fun m => P m.stack) _ _ m k is hm
  · intro m k i hm
    exact stack_step hP { m with index := k } i hm
  · intro m flow hm
    exact hm

/-- A call preserves what effects preserve. -/
theorem stack_call (m : Machine σ) (c : Call) (hm : P m.stack) : P (m.call c).stack := by
  cases c with
  | step i => exact stack_step hP m i hm
  | execute p =>
    rw [call, execute_fst]
    exact stack_runFrom hP m 0 p hm

/-- **Calls preserve what effects preserve.** -/
theorem stack_perform (m : Machine σ) (calls : List Call) (hm : P m.stack) :
    P (m.perform calls).stack := by
  induction calls generalizing m with
  | nil => exact hm
  | cons c calls ih => exact ih (m.call c) (stack_call hP m c hm)

end

/-! ## The values on a stack -/

/-- Effects leave only finite values on a stack of finite values. -/
theorem finite_of_hasEffect (i : Instruction) (s : List Operand) (e : Effect) (he : i.HasEffect s e)
    (hs : ∀ v ∈ s, v.isFinite = true) : ∀ v ∈ e.stack, v.isFinite = true := by
  cases he with
  | push v s hv => exact List.forall_mem_cons.2 ⟨hv, hs⟩
  | pop top s => exact (List.forall_mem_cons.1 hs).2
  | arith op left right result s hresult =>
    have hrest := (List.forall_mem_cons.1 (List.forall_mem_cons.1 hs).2).2
    exact List.forall_mem_cons.2 ⟨(op.finite_of_apply left right result hresult).2, hrest⟩
  | dump | assert | print | exit => exact hs

/-- Pushing succeeds exactly for finite values, and puts the value itself on the stack. -/
theorem step_push_iff (m m' : Machine σ) (v : Operand) (flow : Flow) :
    m.step (.push v) = (m', .ok flow) ↔
      v.checked = .ok v ∧ m' = { m with stack := v :: m.stack } ∧ flow = .next := by
  obtain hv | ⟨cause, hv⟩ := Instruction.isFinite_or_checked v
  · have hstep : m.step (.push v) = ({ m with stack := v :: m.stack }, .ok .next) :=
      m.step_of_taken (.push v m.stack hv) rfl
    rw [hstep, v.checked_of_isFinite hv]
    constructor
    · rintro ⟨⟩
      exact ⟨rfl, rfl, rfl⟩
    · rintro ⟨-, rfl, rfl⟩
      rfl
  · rw [m.step_of_hasFault (.push v m.stack cause hv), hv]
    constructor
    · rintro ⟨⟩
    · rintro ⟨⟨⟩, -⟩

/-- **Values stay in range.** After every sequence of calls to a fresh machine, each value on the
stack passes the check of its kind and comes out of it unchanged, so that no floating-point number
there is infinite or `nan`; and on every machine a push that succeeds puts exactly its value on
top. -/
theorem perform_stack_in_range (sink : σ) (calls : List Call) :
    (∀ v ∈ ((fresh sink).perform calls).stack, v.checked = .ok v) ∧
      (∀ x : Single, .float x ∈ ((fresh sink).perform calls).stack → x.isFinite = true) ∧
      (∀ x : Double, .double x ∈ ((fresh sink).perform calls).stack → x.isFinite = true) ∧
      ∀ (m m' : Machine σ) (v : Operand) (flow : Flow),
        m.step (.push v) = (m', .ok flow) ↔
          v.checked = .ok v ∧ m' = { m with stack := v :: m.stack } ∧ flow = .next := by
  have hfinite : ∀ v ∈ ((fresh sink).perform calls).stack, v.isFinite = true :=
    stack_perform (P := fun s => ∀ v ∈ s, v.isFinite = true) finite_of_hasEffect (fresh sink) calls
      (List.forall_mem_nil _)
  refine ⟨?_, ?_, ?_, step_push_iff⟩
  · intro v hv
    exact v.checked_of_isFinite (hfinite v hv)
  · intro x hx
    exact hfinite (.float x) hx
  · intro x hx
    exact hfinite (.double x) hx

end Machine

end NumStack
