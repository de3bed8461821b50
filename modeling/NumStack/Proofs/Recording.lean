import NumStack.Proofs.Runs

/-!
# Recorded sinks

A machine sees of its sink only what the sink answers, so a map between sinks that keeps the answers
keeps everything that a run does. A sink can therefore be recorded with the calls made to it while
the machine behaves as before. The record of a run holds writes, and one flush behind them.
-/

namespace NumStack

/-! ## Maps that keep the answers of sinks -/

/-- A map between sinks that answer alike: a call leads to the image of where it leads before, with
the same answer. -/
structure Sink.IsAlike {σ τ : Type} [Sink σ] [Sink τ] (f : σ → τ) : Prop where
  write : ∀ s bytes, Sink.write (f s) bytes = (f (Sink.write s bytes).1, (Sink.write s bytes).2)
  flush : ∀ s, Sink.flush (f s) = (f (Sink.flush s).1, (Sink.flush s).2)

/-- Sinks that answer alike take the same pieces of output. -/
theorem Sink.IsAlike.writeEach {σ τ : Type} [Sink σ] [Sink τ] {f : σ → τ} (hf : Sink.IsAlike f)
    (s : σ) (pieces : List (List UInt8)) :
    Sink.writeEach (f s) pieces = (f (Sink.writeEach s pieces).1, (Sink.writeEach s pieces).2) := by
  induction pieces generalizing s with
  | nil => rfl
  | cons piece pieces ih =>
    have hwrite' := hf.write s piece
    rcases hwrite : Sink.write s piece with ⟨s', _ | reason⟩
    · rw [hwrite] at hwrite'
      rw [Sink.writeEach_of_taken hwrite, Sink.writeEach_of_taken hwrite', ih]
    · rw [hwrite] at hwrite'
      rw [Sink.writeEach_of_refused hwrite, Sink.writeEach_of_refused hwrite']

namespace Machine

variable {σ τ : Type}

/-- The machine with the image of its sink in the sink's place. -/
def mapSink (f : σ → τ) (m : Machine σ) : Machine τ :=
  { stack := m.stack, terminated := m.terminated, index := m.index, sink := f m.sink }

variable [Sink σ] [Sink τ] {f : σ → τ}

/-- A step does the same on sinks that answer alike. -/
theorem step_mapSink (hf : Sink.IsAlike f) (m : Machine σ) (i : Instruction) :
    (m.mapSink f).step i = ((m.step i).1.mapSink f, (m.step i).2) := by
  obtain ⟨e, sink, he, htaken, hstep⟩ | ⟨e, sink, reason, he, hrefused, hstep⟩ |
    ⟨fault, hfault, hstep⟩ := m.step_cases i
  · have htaken' : Sink.writeEach (m.mapSink f).sink e.output = (f sink, none) := by
      rw [mapSink, hf.writeEach, htaken]
    rw [(m.mapSink f).step_of_taken he htaken', hstep]
    rfl
  · have hrefused' : Sink.writeEach (m.mapSink f).sink e.output = (f sink, some reason) := by
      rw [mapSink, hf.writeEach, hrefused]
    rw [(m.mapSink f).step_of_refused he hrefused', hstep]
    rfl
  · rw [(m.mapSink f).step_of_hasFault hfault, hstep]

/-- A run does the same on sinks that answer alike. -/
theorem runFrom_mapSink (hf : Sink.IsAlike f) (m : Machine σ) (k : Nat) (is : List Instruction) :
    (m.mapSink f).runFrom k is = ((m.runFrom k is).1.mapSink f, (m.runFrom k is).2) := by
  induction is generalizing m k with
  | nil => rfl
  | cons i rest ih =>
    have hattempt : (m.mapSink f).attempt k i = ((m.attempt k i).1.mapSink f, (m.attempt k i).2) :=
      step_mapSink hf { m with index := k } i
    obtain ⟨flow, hflow⟩ | ⟨fault, hfault⟩ := m.attempt_cases k i
    · rw [runFrom_cons_of_ok m k i rest flow hflow, runFrom_cons_of_ok (m.mapSink f) k i rest flow
        (by rw [hattempt, hflow]), hattempt]
      show (if ((m.attempt k i).1.settle flow).terminated then _
        else (((m.attempt k i).1.settle flow).mapSink f).runFrom (k + 1) rest) = _
      split
      · rfl
      · exact ih _ _
    · rw [runFrom_cons_of_error m k i rest fault hfault, runFrom_cons_of_error (m.mapSink f) k i
        rest fault (by rw [hattempt, hfault]), hattempt]

/-- **A program does the same on sinks that answer alike.** -/
theorem execute_mapSink (hf : Sink.IsAlike f) (m : Machine σ) (p : Program) :
    (m.mapSink f).execute p = ((m.execute p).1.mapSink f, (m.execute p).2) := by
  show (((m.mapSink f).runFrom 0 p).1.flushed ((m.mapSink f).runFrom 0 p).2) = _
  rw [runFrom_mapSink hf]
  show _ = (((m.runFrom 0 p).1.flushed (m.runFrom 0 p).2).1.mapSink f,
    ((m.runFrom 0 p).1.flushed (m.runFrom 0 p).2).2)
  have hflush : Sink.flush ((m.runFrom 0 p).1.mapSink f).sink = _ := hf.flush (m.runFrom 0 p).1.sink
  rw [flushed, flushed, hflush]
  rcases Sink.flush (m.runFrom 0 p).1.sink with ⟨sink, _ | reason⟩ <;> rfl

end Machine

/-! ## Records -/

/-- A call made to a sink. -/
inductive SinkCall where
  | write (bytes : List UInt8)
  | flush
  deriving DecidableEq

/-- A sink with a record of the calls made to it, the earliest first. -/
structure Recorded (σ : Type) where
  sink : σ
  calls : List SinkCall := []

/-- A recorded sink answers as the sink does. -/
instance {σ : Type} [Sink σ] : Sink (Recorded σ) where
  write r bytes :=
    (⟨(Sink.write r.sink bytes).1, r.calls ++ [.write bytes]⟩, (Sink.write r.sink bytes).2)
  flush r := (⟨(Sink.flush r.sink).1, r.calls ++ [.flush]⟩, (Sink.flush r.sink).2)

/-- Without its record, a recorded sink is the sink. -/
theorem Recorded.sink_isAlike {σ : Type} [Sink σ] :
    Sink.IsAlike (Recorded.sink : Recorded σ → σ) where
  write _ _ := rfl
  flush _ := rfl

/-- Pieces of output are recorded as writes. -/
theorem Recorded.calls_writeEach {σ : Type} [Sink σ] (r : Recorded σ)
    (pieces : List (List UInt8)) :
    ∃ writes : List (List UInt8),
      (Sink.writeEach r pieces).1.calls = r.calls ++ writes.map .write := by
  induction pieces generalizing r with
  | nil => exact ⟨[], (List.append_nil _).symm⟩
  | cons piece pieces ih =>
    rcases hwrite : Sink.write r piece with ⟨r', answer⟩
    have hcalls : r'.calls = r.calls ++ [.write piece] :=
      congrArg (fun w => w.1.calls) hwrite.symm
    cases answer with
    | none =>
      obtain ⟨writes, hmore⟩ := ih r'
      refine ⟨piece :: writes, ?_⟩
      rw [Sink.writeEach_of_taken hwrite, hmore, hcalls, List.append_assoc]
      rfl
    | some reason =>
      rw [Sink.writeEach_of_refused hwrite]
      exact ⟨[piece], hcalls⟩

namespace Machine

variable {σ : Type} [Sink σ]

/-- The machine with an empty record of the calls to its sink. -/
def recorded (m : Machine σ) : Machine (Recorded σ) := m.mapSink fun sink => { sink }

/-- A recorded machine runs a program as the machine itself does. -/
theorem execute_recorded (m : Machine σ) (p : Program) :
    ((m.recorded.execute p).1.mapSink Recorded.sink, (m.recorded.execute p).2) = m.execute p :=
  (execute_mapSink Recorded.sink_isAlike m.recorded p).symm

/-- The calls recorded behind the first ones are writes. -/
def OnlyWrites (first : List SinkCall) (m : Machine (Recorded σ)) : Prop :=
  ∃ writes : List (List UInt8), m.sink.calls = first ++ writes.map .write

/-- All calls that an instruction makes to the sink are writes. -/
theorem attempt_onlyWrites (first : List SinkCall) (m : Machine (Recorded σ)) (k : Nat)
    (i : Instruction) (hm : OnlyWrites first m) : OnlyWrites first (m.attempt k i).1 := by
  obtain ⟨writes, hwrites⟩ := hm
  obtain ⟨pieces, hsink⟩ := exists_writeEach_of_step { m with index := k } i
  obtain ⟨more, hcalls⟩ := m.sink.calls_writeEach pieces
  refine ⟨writes ++ more, ?_⟩
  rw [attempt, hsink, hcalls, hwrites, List.map_append, List.append_assoc]

/-- **One flush.** The calls that running a program makes to the sink are writes and, behind them,
one flush. -/
theorem execute_calls (m : Machine σ) (p : Program) :
    ∃ writes : List (List UInt8),
      (m.recorded.execute p).1.sink.calls = writes.map .write ++ [.flush] := by
  obtain ⟨writes, hwrites⟩ : OnlyWrites [] (m.recorded.runFrom 0 p).1 :=
    runFrom_preserves (attempt_onlyWrites []) (fun _ _ h => h) m.recorded 0 p ⟨[], rfl⟩
  refine ⟨writes, ?_⟩
  rw [execute_fst]
  show (m.recorded.runFrom 0 p).1.sink.calls ++ [SinkCall.flush] = _
  rw [hwrites]
  rfl

end Machine

end NumStack
