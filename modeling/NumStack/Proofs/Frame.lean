import NumStack.Proofs.BoundedOutput
import NumStack.Proofs.ExitContract

/-!
# Values below a run

An instruction other than `dump` looks only at the top of the stack. So a program that gets along
with the values it has pushed itself does the same on a stack that holds other values already: it
ends in the same way and writes the same output, and the other values stay where they are, below its
own. This is so also if the run fails, unless it fails because its own values do not suffice.
-/

namespace NumStack

/-! ## Sinks that never fail -/

namespace Sink

variable {σ τ : Type} [Sink σ] [Sink τ]

/-- Makes a call to a sink. -/
def call (s : σ) : SinkCall → σ × Option String
  | .write bytes => write s bytes
  | .flush => flush s

/-- The sink after a sequence of calls, whatever they have returned. -/
def afterCalls (s : σ) (calls : List SinkCall) : σ := calls.foldl (fun s c => (call s c).1) s

/-- A sink never fails if no call fails, whatever calls have been made before. -/
def NeverFails (s : σ) : Prop := ∀ calls c, (call (afterCalls s calls) c).2 = none

theorem NeverFails.call {s : σ} (h : NeverFails s) (c : SinkCall) :
    (call s c).2 = none ∧ NeverFails (call s c).1 :=
  ⟨h [] c, fun calls c' => h (c :: calls) c'⟩

/-- Sinks that are related take every call, and are related afterwards. -/
def TakesAlike (R : σ → τ → Prop) : Prop :=
  ∀ s t c, R s t → (call s c).2 = none ∧ (call t c).2 = none ∧ R (call s c).1 (call t c).1

/-- Recorded sinks that never fail take every call, and keep having the same record. -/
theorem takesAlike_recorded :
    TakesAlike fun (r : Recorded σ) (r' : Recorded τ) =>
      NeverFails r.sink ∧ NeverFails r'.sink ∧ r.calls = r'.calls := by
  rintro r r' c ⟨h, h', hcalls⟩
  obtain ⟨hnone, hafter⟩ := h.call c
  obtain ⟨hnone', hafter'⟩ := h'.call c
  cases c with
  | write bytes =>
    exact ⟨hnone, hnone', hafter, hafter', congrArg (· ++ [SinkCall.write bytes]) hcalls⟩
  | flush => exact ⟨hnone, hnone', hafter, hafter', congrArg (· ++ [SinkCall.flush]) hcalls⟩

/-- Related sinks take any output. -/
theorem TakesAlike.writeEach {R : σ → τ → Prop} (hR : TakesAlike R) {s : σ} {t : τ} (h : R s t)
    (pieces : List (List UInt8)) :
    ∃ s' t', Sink.writeEach s pieces = (s', none) ∧ Sink.writeEach t pieces = (t', none) ∧
      R s' t' := by
  induction pieces generalizing s t with
  | nil => exact ⟨s, t, rfl, rfl, h⟩
  | cons piece pieces ih =>
    obtain ⟨hs, ht, hafter⟩ := hR s t (.write piece) h
    obtain ⟨s', t', hs', ht', hend⟩ := ih hafter
    refine ⟨s', t', ?_, ?_, hend⟩
    · exact (writeEach_of_taken (Prod.ext rfl hs) pieces).trans hs'
    · exact (writeEach_of_taken (Prod.ext rfl ht) pieces).trans ht'

end Sink

/-- A buffer without a limit whose flushes succeed never fails. -/
theorem Buffer.neverFails (b : Buffer) (hlimit : b.limit = none) (hflush : b.flushFault = none) :
    Sink.NeverFails b := by
  intro calls
  induction calls generalizing b with
  | nil =>
    intro c
    cases c with
    | write bytes => exact congrArg Prod.snd (b.write_of_limit_none hlimit bytes)
    | flush => exact hflush
  | cons c calls ih =>
    cases c with
    | write bytes => exact ih (b.write bytes).1 hlimit hflush
    | flush => exact ih b hlimit hflush

/-! ## Instructions above other values -/

/-- Whether a fault is one of values missing on the stack. -/
def RunFault.isShortage : RunFault → Bool
  | emptyStack _ _ | insufficientValues _ _ _ => true
  | arithmetic _ _ | assertFailed _ _ _ | notPrintable _ _ | missingExit | output _ _ => false

namespace Instruction

variable {i : Instruction} {s : List Operand}

/-- **Effects are local.** An instruction other than `dump` has the same effect above other
values. -/
theorem HasEffect.append {e : Effect} (h : i.HasEffect s e) (hi : i ≠ .dump)
    (below : List Operand) : i.HasEffect (s ++ below) ⟨e.stack ++ below, e.output⟩ := by
  cases h with
  | push v s hv => exact .push v (s ++ below) hv
  | pop top s => exact .pop top (s ++ below)
  | dump s => exact absurd rfl hi
  | assert v top s hv hagrees => exact .assert v top (s ++ below) hv hagrees
  | arith op left right result s hresult => exact .arith op left right result (s ++ below) hresult
  | print code s => exact .print code (s ++ below)
  | exit s => exact .exit (s ++ below)

/-- **Faults are local.** An instruction that does not miss a value raises the same fault above
other values. -/
theorem HasFault.append {k : Nat} {fault : RunFault} (h : i.HasFault k s fault)
    (hfault : fault.isShortage = false) (below : List Operand) :
    i.HasFault k (s ++ below) fault := by
  cases h with
  | push v s cause hv => exact .push v (s ++ below) cause hv
  | assertValue v s cause hv => exact .assertValue v (s ++ below) cause hv
  | assertFailed v top s hv hagrees => exact .assertFailed v top (s ++ below) hv hagrees
  | arith op left right s cause hresult => exact .arith op left right (s ++ below) cause hresult
  | notPrintable top s htop => exact .notPrintable top (s ++ below) htop
  | pop | assertEmpty | short | printEmpty => cases hfault

end Instruction

namespace Machine

variable {σ τ : Type} [Sink σ] [Sink τ]

/-! ## Two runs, one of them above other values -/

/-- A machine as another with other values below those on its stack, and with a related sink. -/
structure Framed (R : σ → τ → Prop) (below : List Operand) (m : Machine σ) (m' : Machine τ) :
    Prop where
  stack : m'.stack = m.stack ++ below
  terminated : m'.terminated = m.terminated
  sink : R m.sink m'.sink

variable {R : σ → τ → Prop} {below : List Operand} {m : Machine σ} {m' : Machine τ}

/-- **One instruction above other values.** If it succeeds and is not `dump`, or fails without
missing a value, it does the same with other values below. -/
theorem Framed.attempt (h : Framed R below m m') (hR : Sink.TakesAlike R) (k : Nat)
    (i : Instruction) (hdump : ∀ flow, (m.attempt k i).2 = .ok flow → i ≠ .dump)
    (hfault : ∀ fault, (m.attempt k i).2 = .error fault → fault.isShortage = false) :
    (m'.attempt k i).2 = (m.attempt k i).2 ∧
      Framed R below (m.attempt k i).1 (m'.attempt k i).1 := by
  obtain ⟨e, he⟩ | ⟨fault, hraised⟩ := i.hasEffect_or_hasFault k m.stack
  · obtain ⟨sink, sink', htaken, htaken', hafter⟩ := hR.writeEach h.sink e.output
    have hstep : m.attempt k i = ({ m with index := k, stack := e.stack, sink }, .ok i.flow) :=
      step_of_taken { m with index := k } he htaken
    have he' : i.HasEffect m'.stack ⟨e.stack ++ below, e.output⟩ := by
      rw [h.stack]
      exact he.append (hdump i.flow (by rw [hstep])) below
    have hstep' : m'.attempt k i =
        ({ m' with index := k, stack := e.stack ++ below, sink := sink' }, .ok i.flow) :=
      step_of_taken { m' with index := k } he' htaken'
    rw [hstep, hstep']
    exact ⟨rfl, rfl, h.terminated, hafter⟩
  · have hstep : m.attempt k i = ({ m with index := k }, .error fault) :=
      step_of_hasFault { m with index := k } hraised
    have hraised' : i.HasFault k m'.stack fault := by
      rw [h.stack]
      exact hraised.append (hfault fault (by rw [hstep])) below
    have hstep' : m'.attempt k i = ({ m' with index := k }, .error fault) :=
      step_of_hasFault { m' with index := k } hraised'
    rw [hstep, hstep']
    exact ⟨rfl, h.stack, h.terminated, h.sink⟩

/-- **A run above other values.** If it carries out no `dump` and does not end because a value is
missing, it does the same with other values below. -/
theorem Framed.runFrom (h : Framed R below m m') (hR : Sink.TakesAlike R) (k : Nat)
    (is : List Instruction) (hdump : .dump ∉ (m.history k is).map Executed.instruction)
    (hfault : ∀ fault, (m.runFrom k is).2 = .error fault → fault.isShortage = false) :
    (m'.runFrom k is).2 = (m.runFrom k is).2 ∧
      Framed R below (m.runFrom k is).1 (m'.runFrom k is).1 := by
  induction is generalizing m m' k with
  | nil => exact ⟨rfl, h⟩
  | cons i rest ih =>
    obtain ⟨flow, hflow⟩ | ⟨fault, hraised⟩ := m.attempt_cases k i
    · rw [history_cons_of_ok m k i rest flow hflow] at hdump
      rw [runFrom_cons_of_ok m k i rest flow hflow] at hfault ⊢
      obtain ⟨hi, hdump⟩ := List.ne_and_not_mem_of_not_mem_cons hdump
      obtain ⟨hsame, hafter⟩ := h.attempt hR k i (fun _ _ => Ne.symm hi) (by simp [hflow])
      have hsettled : Framed R below ((m.attempt k i).1.settle flow)
          ((m'.attempt k i).1.settle flow) :=
        ⟨hafter.stack, congrArg (· || flow == .exit) hafter.terminated, hafter.sink⟩
      rw [runFrom_cons_of_ok m' k i rest flow (hsame.trans hflow), hsettled.terminated]
      split
      · exact ⟨rfl, hsettled⟩
      · rename_i hgoes
        rw [if_neg hgoes] at hdump hfault
        exact ih hsettled (k + 1) hdump hfault
    · rw [runFrom_cons_of_error m k i rest fault hraised] at hfault ⊢
      have hreason : ∀ fault', (m.attempt k i).2 = .error fault' → fault'.isShortage = false := by
        rw [hraised]
        rintro _ ⟨⟩
        exact hfault fault rfl
      obtain ⟨hsame, hafter⟩ := h.attempt hR k i (by simp [hraised]) hreason
      rw [runFrom_cons_of_error m' k i rest fault (hsame.trans hraised)]
      exact ⟨rfl, hafter⟩

/-- Where flushing succeeds, running a program has the result of its instructions. -/
theorem execute_snd_of_flush_none (m : Machine σ) (p : Program)
    (h : (Sink.flush (m.runFrom 0 p).1.sink).2 = none) : (m.execute p).2 = (m.runFrom 0 p).2 := by
  cases hrun : (m.runFrom 0 p).2 with
  | ok => exact (m.execute_snd_of_ok p hrun).1 h
  | error fault => exact m.execute_snd_of_error p fault hrun

/-- A program that is run above other values does the same as without them. -/
theorem Framed.execute (h : Framed R below m m') (hR : Sink.TakesAlike R) (p : Program)
    (hdump : .dump ∉ (m.history 0 p).map Executed.instruction)
    (hfault : ∀ fault, (m.execute p).2 = .error fault → fault.isShortage = false) :
    (m'.execute p).2 = (m.execute p).2 ∧ Framed R below (m.execute p).1 (m'.execute p).1 := by
  obtain ⟨hsame, hafter⟩ := h.runFrom hR 0 p hdump
    fun fault hrun => hfault fault (m.execute_snd_of_error p fault hrun)
  obtain ⟨hflush, hflush', hflushed⟩ := hR _ _ .flush hafter.sink
  rw [execute_snd_of_flush_none m p hflush, execute_snd_of_flush_none m' p hflush', execute_fst,
    execute_fst]
  exact ⟨hsame, hafter.stack, hafter.terminated, hflushed⟩

/-! ## The frame of a program -/

/-- On sinks that answer alike, the same instructions are carried out. -/
theorem history_mapSink {f : σ → τ} (hf : Sink.IsAlike f) (m : Machine σ) (k : Nat)
    (is : List Instruction) : (m.mapSink f).history k is = m.history k is := by
  induction is generalizing m k with
  | nil => rfl
  | cons i rest ih =>
    have hstep : step { m.mapSink f with index := k } i = _ :=
      step_mapSink hf { m with index := k } i
    rw [history, history, hstep]
    rcases step { m with index := k } i with ⟨after, fault | flow⟩
    · rfl
    · have hrest := ih (after.settle flow) (k + 1)
      dsimp only
      rw [← hrest]
      rfl

/-- **The frame rule.** Let a program be run on a fresh machine, and let the run succeed, or fail
for another reason than that values are missing on the stack, without a `dump`. Then on every
machine that has not terminated, whatever is on its stack, the program ends in the same way and
makes the same calls to the sink, with the same bytes. It leaves its own values on top of those that
were there before, and these are neither read nor changed. Both sinks never fail. -/
theorem execute_frame (sink : σ) (hsink : Sink.NeverFails sink) (p : Program)
    (hfault : ∀ fault, ((fresh sink).execute p).2 = .error fault → fault.isShortage = false)
    (hdump : .dump ∉ ((fresh sink).history 0 p).map Executed.instruction) (m : Machine τ)
    (hm : m.terminated = false) (hsink' : Sink.NeverFails m.sink) :
    (m.execute p).2 = ((fresh sink).execute p).2 ∧
      (m.recorded.execute p).1.sink.calls = ((fresh sink).recorded.execute p).1.sink.calls ∧
      (m.execute p).1.stack = ((fresh sink).execute p).1.stack ++ m.stack := by
  have hstart : Framed (fun (r : Recorded σ) (r' : Recorded τ) => Sink.NeverFails r.sink ∧
      Sink.NeverFails r'.sink ∧ r.calls = r'.calls) m.stack (fresh sink).recorded m.recorded :=
    ⟨rfl, hm, hsink, hsink', rfl⟩
  have hhistory : (fresh sink).recorded.history 0 p = (fresh sink).history 0 p :=
    (history_mapSink Recorded.sink_isAlike (fresh sink).recorded 0 p).symm
  -- the recorded machines behave as the machines themselves
  rw [← (fresh sink).execute_recorded p] at hfault ⊢
  rw [← m.execute_recorded p]
  obtain ⟨hsame, hafter⟩ := hstart.execute Sink.takesAlike_recorded p (by rwa [hhistory]) hfault
  exact ⟨hsame, hafter.sink.2.2.symm, hafter.stack⟩

/-- A program that prints and then divides by zero fails in the same way above two other values. -/
theorem execute_frame_division :
    let p : Program := [.push (.int8 72), .print, .push (.int16 300), .pop, .push (.int8 0),
      .arith .div, .exit]
    let m : Machine Buffer :=
      { stack := [.int32 7, .int8 (-3)], index := 9, sink := { written := #[1] } }
    ((fresh ({} : Buffer)).execute p).2 = .error (.arithmetic 5 .divisionByZero) ∧
      (m.execute p).2 = .error (.arithmetic 5 .divisionByZero) ∧
      (m.recorded.execute p).1.sink.calls = [.write [72], .flush] ∧
      (m.execute p).1.stack = [.int8 0, .int8 72, .int32 7, .int8 (-3)] := by
  intro p m
  have hresult : ((fresh ({} : Buffer)).execute p).2 = .error (.arithmetic 5 .divisionByZero) := by
    decide +kernel
  have hcalls : ((fresh ({} : Buffer)).recorded.execute p).1.sink.calls =
      [.write [72], .flush] := by
    decide +kernel
  have hstack : ((fresh ({} : Buffer)).execute p).1.stack = [.int8 0, .int8 72] := by
    decide +kernel
  have hfault : ∀ fault, ((fresh ({} : Buffer)).execute p).2 = .error fault →
      fault.isShortage = false := by
    rw [hresult]
    rintro _ ⟨⟩
    rfl
  have hframe := execute_frame ({} : Buffer) (Buffer.neverFails _ rfl rfl) p hfault
    (by decide +kernel) m rfl (Buffer.neverFails _ rfl rfl)
  rw [hresult, hcalls, hstack] at hframe
  exact ⟨hresult, hframe⟩

end Machine

end NumStack
