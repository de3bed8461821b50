import Mathlib.Data.List.Infix
import Mathlib.Order.Bounds.Basic
import NumStack.Proofs.Recording

/-!
# Output within a limit

A buffer with a limit stores the first bytes of what is written and refuses the rest. As long as a
run writes no more than the limit, it goes as it does without one. Otherwise it ends at the
instruction whose output passes the limit, with the stack from before this instruction, and the
buffer holds the output of the run without a limit up to the limit itself. It does not matter
whether an instruction writes its output at once or in pieces.
-/

namespace NumStack

namespace Buffer

/-! ## Buffers with a limit -/

/-- The buffer with a limit, and the reason with which it refuses what lies beyond. -/
def limitedTo (n : Nat) (reason : String) (b : Buffer) : Buffer :=
  { b with limit := some n, refusal := reason }

/-- The buffer with more bytes behind those it holds. -/
def extended (b : Buffer) (bytes : List UInt8) : Buffer := { b with written := b.written ++ bytes }

theorem toList_extended (b : Buffer) (bytes : List UInt8) :
    (b.extended bytes).written.toList = b.written.toList ++ bytes := by
  simp [extended]

theorem size_extended (b : Buffer) (bytes : List UInt8) :
    (b.extended bytes).written.size = b.written.size + bytes.length := by
  rw [← Array.length_toList, toList_extended, List.length_append, Array.length_toList]

theorem extended_append (b : Buffer) (bytes more : List UInt8) :
    b.extended (bytes ++ more) = (b.extended bytes).extended more := by
  have hwritten : b.written ++ (bytes ++ more) = b.written ++ bytes ++ more :=
    Array.toList_inj.1 (by simp)
  rw [extended, hwritten]
  rfl

theorem write_eq (b : Buffer) (bytes : List UInt8) :
    b.write bytes = (b.extended (bytes.take (b.room bytes.length)),
      if b.room bytes.length < bytes.length then some b.refusal else none) := rfl

theorem write_of_limit_none (b : Buffer) (h : b.limit = none) (bytes : List UInt8) :
    b.write bytes = (b.extended bytes, none) := by
  rw [write_eq, room_of_limit_none b _ h, List.take_length, if_neg (Nat.lt_irrefl _)]

/-- A buffer with a limit takes bytes that stay within it. -/
theorem write_limitedTo_of_le (n : Nat) (reason : String) (b : Buffer) (bytes : List UInt8)
    (h : (b.written.toList ++ bytes).length ≤ n) :
    (b.limitedTo n reason).write bytes = ((b.extended bytes).limitedTo n reason, none) := by
  have hroom : (b.limitedTo n reason).room bytes.length = bytes.length := by
    rw [List.length_append, Array.length_toList] at h
    show min bytes.length (n - b.written.size) = bytes.length
    omega
  rw [write_eq, hroom, List.take_length, if_neg (Nat.lt_irrefl _)]
  rfl

/-- Of bytes that pass its limit, a buffer takes those up to the limit and refuses the others. -/
theorem write_limitedTo_of_lt (n : Nat) (reason : String) (b : Buffer) (bytes : List UInt8)
    (hb : b.written.size ≤ n) (h : n < (b.written.toList ++ bytes).length) :
    (b.limitedTo n reason).write bytes =
      ((b.extended (bytes.take (n - b.written.size))).limitedTo n reason, some reason) := by
  rw [List.length_append, Array.length_toList] at h
  have hroom : (b.limitedTo n reason).room bytes.length = n - b.written.size := by
    show min bytes.length (n - b.written.size) = n - b.written.size
    omega
  rw [write_eq, hroom, if_pos (by omega)]
  rfl

theorem write_nil (b : Buffer) : b.write [] = (b, none) := by
  simp [write]

/-! ## Writing in pieces -/

/-- Behind bytes that are all taken there is room for what remains of the limit. -/
theorem room_extended (b : Buffer) (bytes : List UInt8) (k : Nat)
    (h : b.room bytes.length = bytes.length) :
    b.room (bytes.length + k) = bytes.length + (b.extended bytes).room k := by
  unfold room at h ⊢
  rw [show (b.extended bytes).limit = b.limit from rfl, size_extended]
  cases hlimit : b.limit with
  | none => rfl
  | some n =>
    simp only [hlimit] at h ⊢
    omega

/-- Where bytes are refused, there is no more room for more bytes. -/
theorem room_of_lt (b : Buffer) (k l : Nat) (h : b.room k < k) :
    b.room (k + l) = b.room k := by
  unfold room at h ⊢
  cases hlimit : b.limit with
  | none => simp [hlimit] at h
  | some n =>
    simp only [hlimit] at h ⊢
    omega

/-- **A buffer takes two pieces as it takes both at once**: the second is written if the first was
taken. -/
theorem write_append (b : Buffer) (bytes more : List UInt8) :
    b.write (bytes ++ more) =
      match b.write bytes with
      | (b, none) => b.write more
      | (b, some reason) => (b, some reason) := by
  rw [write_eq b bytes]
  by_cases h : b.room bytes.length < bytes.length
  · have hroom := b.room_of_lt bytes.length more.length h
    rw [if_pos h, write_eq, List.length_append, hroom, if_pos (by omega),
      List.take_append_of_le_length h.le]
  · have htaken : b.room bytes.length = bytes.length :=
      Nat.le_antisymm (b.room_le _) (Nat.not_lt.1 h)
    have hroom := b.room_extended bytes more.length htaken
    rw [if_neg h, htaken, List.take_length, write_eq, List.length_append, hroom,
      List.take_length_add_append, extended_append]
    simp only [Nat.add_lt_add_iff_left]
    rfl

/-- **A buffer does not tell pieces apart**: pieces that are written one after another are taken as
if they came at once. -/
theorem writeEach_eq_write (b : Buffer) (pieces : List (List UInt8)) :
    Sink.writeEach b pieces = b.write pieces.flatten := by
  induction pieces generalizing b with
  | nil => exact (b.write_nil).symm
  | cons piece pieces ih =>
    rw [List.flatten_cons, write_append]
    rcases hwrite : b.write piece with ⟨b', _ | reason⟩
    · rw [Sink.writeEach_of_taken hwrite, ih]
    · rw [Sink.writeEach_of_refused hwrite]

end Buffer

namespace Machine

/-! ## Machines with a limit -/

/-- The bytes that a machine has written to its buffer. -/
def output (m : Machine Buffer) : List UInt8 := m.sink.written.toList

/-- The machine with a limit on its buffer. -/
def limited (n : Nat) (reason : String) (m : Machine Buffer) : Machine Buffer :=
  m.mapSink (Buffer.limitedTo n reason)

/-- What an instruction does on a machine without a limit: it has an effect, and all its output is
written, or it raises a fault. -/
theorem attempt_of_limit_none (m : Machine Buffer) (hm : m.sink.limit = none) (k : Nat)
    (i : Instruction) :
    (∃ e, i.HasEffect m.stack e ∧ m.attempt k i =
      ({ m with stack := e.stack, index := k, sink := m.sink.extended e.output.flatten },
        .ok i.flow)) ∨
    ∃ fault, i.HasFault k m.stack fault ∧
      m.attempt k i = ({ m with index := k }, .error fault) := by
  have hwritten : ∀ pieces, Sink.writeEach m.sink pieces =
      (m.sink.extended pieces.flatten, none) := by
    intro pieces
    rw [m.sink.writeEach_eq_write, m.sink.write_of_limit_none hm]
  obtain ⟨e, sink, he, htaken, hstep⟩ | ⟨e, sink, reason, -, hrefused, -⟩ |
    ⟨fault, hfault, hstep⟩ := step_cases { m with index := k } i
  · cases (hwritten e.output).symm.trans htaken
    exact .inl ⟨e, he, hstep⟩
  · cases (hwritten e.output).symm.trans hrefused
  · exact .inr ⟨fault, hfault, hstep⟩

/-- Without a limit, an instruction only adds to the output. -/
theorem output_prefix_attempt (m : Machine Buffer) (hm : m.sink.limit = none) (k : Nat)
    (i : Instruction) :
    (m.attempt k i).1.sink.limit = none ∧ m.output <+: (m.attempt k i).1.output := by
  obtain ⟨e, -, h⟩ | ⟨fault, -, h⟩ := m.attempt_of_limit_none hm k i
  · rw [h]
    exact ⟨hm, ⟨e.output.flatten, (m.sink.toList_extended e.output.flatten).symm⟩⟩
  · rw [h]
    exact ⟨hm, List.prefix_rfl⟩

/-- **One instruction within the limit** does what it does without one. -/
theorem attempt_limited_of_le (n : Nat) (reason : String) (m : Machine Buffer)
    (hm : m.sink.limit = none) (k : Nat) (i : Instruction)
    (h : (m.attempt k i).1.output.length ≤ n) :
    (m.limited n reason).attempt k i = ((m.attempt k i).1.limited n reason, (m.attempt k i).2) := by
  obtain ⟨e, he, hattempt⟩ | ⟨fault, hfault, hattempt⟩ := m.attempt_of_limit_none hm k i
  · have hlength : (m.sink.written.toList ++ e.output.flatten).length ≤ n := by
      rwa [hattempt, output, m.sink.toList_extended] at h
    have htaken : Sink.writeEach (m.limited n reason).sink e.output =
        ((m.sink.extended e.output.flatten).limitedTo n reason, none) := by
      rw [Buffer.writeEach_eq_write]
      exact m.sink.write_limitedTo_of_le n reason e.output.flatten hlength
    rw [hattempt]
    exact step_of_taken { m.limited n reason with index := k } he htaken
  · rw [hattempt]
    exact step_of_hasFault { m.limited n reason with index := k } hfault

/-- **The instruction that passes the limit** fails. The buffer is full afterwards, and nothing else
has changed. -/
theorem attempt_limited_of_lt (n : Nat) (reason : String) (m : Machine Buffer)
    (hm : m.sink.limit = none) (hn : m.output.length ≤ n) (k : Nat) (i : Instruction)
    (h : n < (m.attempt k i).1.output.length) :
    ∃ m', (m.limited n reason).attempt k i = (m', .error (.output k reason)) ∧
      m'.output = (m.attempt k i).1.output.take n ∧ m'.stack = m.stack ∧
      m'.terminated = m.terminated := by
  obtain ⟨e, he, hattempt⟩ | ⟨fault, hfault, hattempt⟩ := m.attempt_of_limit_none hm k i
  · have houtput : (m.attempt k i).1.output = m.sink.written.toList ++ e.output.flatten := by
      rw [hattempt]
      exact m.sink.toList_extended e.output.flatten
    rw [houtput] at h ⊢
    have hrefused : Sink.writeEach (m.limited n reason).sink e.output =
        ((m.sink.extended (e.output.flatten.take (n - m.sink.written.size))).limitedTo n reason,
          some reason) := by
      rw [Buffer.writeEach_eq_write]
      exact m.sink.write_limitedTo_of_lt n reason e.output.flatten hn h
    refine ⟨_, step_of_refused { m.limited n reason with index := k } he hrefused, ?_, rfl, rfl⟩
    show (m.sink.extended _).written.toList = _
    have htake : m.sink.written.toList.take n = m.sink.written.toList := List.take_of_length_le hn
    rw [m.sink.toList_extended, List.take_append, htake, Array.length_toList]
  · -- a fault writes nothing
    rw [hattempt] at h
    exact absurd h (Nat.not_lt.2 hn)

/-! ## Runs with a limit -/

/-- Without a limit, a run only adds to the output. -/
theorem output_prefix_runFrom (m : Machine Buffer) (hm : m.sink.limit = none) (k : Nat)
    (is : List Instruction) : m.output <+: (m.runFrom k is).1.output := by
  have hrun := runFrom_preserves
    (P := fun m' : Machine Buffer => m'.sink.limit = none ∧ m.output <+: m'.output)
    ?_ ?_ m k is ⟨hm, List.prefix_rfl⟩
  · exact hrun.2
  · rintro m' k i ⟨hlimit, hprefix⟩
    obtain ⟨hlimit', hprefix'⟩ := m'.output_prefix_attempt hlimit k i
    exact ⟨hlimit', hprefix.trans hprefix'⟩
  · intro m' flow h
    exact h

/-- A run writes what its first instruction writes, and perhaps more. -/
theorem output_prefix_cons (m : Machine Buffer) (hm : m.sink.limit = none) (k : Nat)
    (i : Instruction) (rest : List Instruction) :
    (m.attempt k i).1.output <+: (m.runFrom k (i :: rest)).1.output := by
  obtain ⟨flow, hflow⟩ | ⟨fault, hfault⟩ := m.attempt_cases k i
  · rw [runFrom_cons_of_ok m k i rest flow hflow]
    split
    · exact List.prefix_rfl
    · exact output_prefix_runFrom ((m.attempt k i).1.settle flow)
        (m.output_prefix_attempt hm k i).1 (k + 1) rest
  · rw [runFrom_cons_of_error m k i rest fault hfault]

/-- The more instructions a run has, the more it writes. -/
theorem output_grows (m : Machine Buffer) (hm : m.sink.limit = none) (k : Nat)
    {is js : List Instruction} (h : is <+: js) :
    (m.runFrom k is).1.output <+: (m.runFrom k js).1.output := by
  obtain ⟨more, rfl⟩ := h
  induction is generalizing m k with
  | nil => exact m.output_prefix_runFrom hm k more
  | cons i rest ih =>
    rw [List.cons_append]
    obtain ⟨flow, hflow⟩ | ⟨fault, hfault⟩ := m.attempt_cases k i
    · rw [runFrom_cons_of_ok m k i rest flow hflow, runFrom_cons_of_ok m k i _ flow hflow]
      split
      · exact List.prefix_rfl
      · exact ih ((m.attempt k i).1.settle flow) (m.output_prefix_attempt hm k i).1 (k + 1)
    · rw [runFrom_cons_of_error m k i rest fault hfault, runFrom_cons_of_error m k i _ fault hfault]

/-- **A run with a limit.** It goes as without a limit if the output stays within it. Otherwise it
fails at the instruction whose output passes the limit, with the stack from before the instruction
and a full buffer. -/
theorem runFrom_limited (n : Nat) (reason : String) (m : Machine Buffer) (hm : m.sink.limit = none)
    (hterminated : m.terminated = false) (hn : m.output.length ≤ n) (k : Nat)
    (is : List Instruction) :
    ((m.runFrom k is).1.output.length ≤ n ∧ (m.limited n reason).runFrom k is =
      ((m.runFrom k is).1.limited n reason, (m.runFrom k is).2)) ∨
    ∃ j m', (m.runFrom k (is.take j)).1.output.length ≤ n ∧
      n < (m.runFrom k (is.take (j + 1))).1.output.length ∧
      (m.limited n reason).runFrom k is = (m', .error (.output (k + j) reason)) ∧
      m'.output = (m.runFrom k is).1.output.take n ∧
      m'.stack = (m.runFrom k (is.take j)).1.stack ∧ m'.terminated = false := by
  induction is generalizing m k with
  | nil => exact .inl ⟨hn, rfl⟩
  | cons i rest ih =>
    by_cases hle : (m.attempt k i).1.output.length ≤ n
    · have hlimited := m.attempt_limited_of_le n reason hm k i hle
      obtain ⟨flow, hflow⟩ | ⟨fault, hfault⟩ := m.attempt_cases k i
      · have hrun := fun rest => runFrom_cons_of_ok m k i rest flow hflow
        have hrun' := runFrom_cons_of_ok (m.limited n reason) k i rest flow
          (by rw [hlimited, hflow])
        rw [hlimited] at hrun'
        cases hsettle : ((m.attempt k i).1.settle flow).terminated with
        | true =>
          simp only [hsettle, if_true] at hrun
          rw [hrun, hrun']
          exact .inl ⟨hle, if_pos hsettle⟩
        | false =>
          simp only [hsettle, Bool.false_eq_true, if_false] at hrun
          rw [hrun, hrun'.trans (if_neg (Bool.eq_false_iff.1 hsettle))]
          obtain ⟨hwithin, hsame⟩ | ⟨j, m', hbefore, hafter, hresult, houtput, hstack, hend⟩ :=
            ih ((m.attempt k i).1.settle flow) (m.output_prefix_attempt hm k i).1 hsettle hle
              (k + 1)
          · exact .inl ⟨hwithin, hsame⟩
          · refine .inr ⟨j + 1, m', ?_, ?_, ?_, houtput, ?_, hend⟩
            · rwa [List.take_succ_cons, hrun]
            · rwa [List.take_succ_cons, hrun]
            · rw [← Nat.add_assoc, Nat.add_right_comm]
              exact hresult
            · rwa [List.take_succ_cons, hrun]
      · rw [runFrom_cons_of_error m k i rest fault hfault,
          runFrom_cons_of_error (m.limited n reason) k i rest fault (by rw [hlimited, hfault]),
          hlimited]
        exact .inl ⟨hle, rfl⟩
    · obtain ⟨m', hattempt, houtput, hstack, hend⟩ :=
        m.attempt_limited_of_lt n reason hm hn k i (Nat.not_le.1 hle)
      obtain ⟨more, hmore⟩ := m.output_prefix_cons hm k i rest
      refine .inr ⟨0, m', hn, ?_, ?_, ?_, hstack, hend.trans hterminated⟩
      · exact (Nat.not_le.1 hle).trans_le (m.output_prefix_cons hm k i []).length_le
      · rw [runFrom_cons_of_error (m.limited n reason) k i rest _ (congrArg Prod.snd hattempt),
          hattempt]
        rfl
      · rw [houtput, ← hmore, List.take_append_of_le_length (Nat.not_le.1 hle).le]

/-- Where flushing always succeeds, running a program is running its instructions. -/
theorem execute_of_flushFault_none (m : Machine Buffer) (hm : m.sink.flushFault = none)
    (p : Program) : m.execute p = m.runFrom 0 p := by
  have hflush : (m.runFrom 0 p).1.sink.flushFault = none := by
    refine runFrom_preserves (P := fun m' : Machine Buffer => m'.sink.flushFault = none)
      ?_ (fun _ _ h => h) m 0 p hm
    intro m' k i hm'
    obtain ⟨pieces, hpieces⟩ := exists_writeEach_of_step { m' with index := k } i
    rw [attempt, hpieces, Buffer.writeEach_eq_write]
    exact hm'
  show (m.runFrom 0 p).1.flushed (m.runFrom 0 p).2 = _
  rw [flushed, show Sink.flush (m.runFrom 0 p).1.sink = ((m.runFrom 0 p).1.sink, none) from
    congrArg _ hflush]

/-- **Output within a limit is a prefix.** A program is run twice on a fresh machine, once with a
buffer that takes everything and once with one that takes `n` bytes and then refuses, for whatever
reason. If the first run writes no more than `n` bytes, the second ends in the same way, with the
same stack and the same output. Otherwise let `k` be the first instruction at which the output of
the first run passes `n` bytes: the second run fails with the index `k`, its buffer holds the first
`n` bytes of the output, its stack is that of the first run before the instruction `k`, and it has
not terminated. The bytes of an instruction may come to the buffer in any pieces. -/
theorem execute_limited_output (p : Program) (n : Nat) (reason : String) :
    let free := fun q : Program => (fresh ({} : Buffer)).execute q
    let bounded := (fresh { limit := some n, refusal := reason : Buffer }).execute p
    (((free p).1.output.length ≤ n ∧ bounded.2 = (free p).2 ∧
        bounded.1.stack = (free p).1.stack ∧ bounded.1.terminated = (free p).1.terminated ∧
        bounded.1.output = (free p).1.output) ∨
      (n < (free p).1.output.length ∧
        ∃ k, IsLeast {k | n < (free (p.take (k + 1))).1.output.length} k ∧
          bounded.2 = .error (.output k reason) ∧
          bounded.1.output = (free p).1.output.take n ∧
          bounded.1.stack = (free (p.take k)).1.stack ∧ bounded.1.terminated = false)) ∧
    ∀ (b : Buffer) (pieces : List (List UInt8)),
      Sink.writeEach b pieces = Sink.write b pieces.flatten := by
  intro free bounded
  have hfree : ∀ q, free q = (fresh {}).runFrom 0 q := fun q => execute_of_flushFault_none _ rfl q
  have hbounded : bounded = ((fresh {}).limited n reason).runFrom 0 p :=
    execute_of_flushFault_none _ rfl p
  refine ⟨?_, Buffer.writeEach_eq_write⟩
  · rw [hbounded, hfree]
    simp only [hfree]
    obtain ⟨hwithin, hsame⟩ | ⟨k, m', hbefore, hafter, hresult, houtput, hstack, hend⟩ :=
      runFrom_limited n reason (fresh {}) rfl rfl (Nat.zero_le n) 0 p
    · rw [hsame]
      exact .inl ⟨hwithin, rfl, rfl, rfl, rfl⟩
    · have hfirst : p.take (k + 1) <+: p := List.take_prefix (k + 1) p
      have hwhole := ((fresh {}).output_grows rfl 0 hfirst).length_le
      rw [hresult]
      refine .inr ⟨by omega, k, ⟨hafter, ?_⟩, by rw [Nat.zero_add], houtput, hstack, hend⟩
      -- before `k` the output is within the limit, so no earlier instruction passes it
      intro j hj
      by_contra hlt
      have hjk : p.take (j + 1) <+: p.take k := List.take_prefix_take_left (by omega)
      have hle := ((fresh {}).output_grows rfl 0 hjk).length_le
      exact absurd (show n < _ from hj) (by omega)

/-- A dump is cut in the middle of its second line. -/
example :
    ((fresh { limit := some 4 : Buffer }).execute
      [.push (.int8 12), .push (.int8 (-3)), .dump, .exit]).1.output =
        Utf8.encode ['-', '3', '\n', '1'] := by
  decide +kernel

end Machine

end NumStack
