import Mathlib.Data.List.Infix
import NumStack.Proofs.BoundedOutput

/-!
# Steps that fail

A step that fails leaves the machine as it was. Only the sink may have changed, and only if it was
the sink that failed: it has then taken some of the first bytes of the output, but not all of them,
in whatever pieces they came. This is so for every sink that keeps what it takes. Among these are
the buffers, and all devices that are offered the output again and again until they have taken
everything or refuse. A step that succeeds takes from the stack no more values than there are.
-/

namespace NumStack

/-! ## Sinks that keep what they take -/

/-- A type of sinks that keep what they take. A write adds some of the first bytes behind those that
are held, and it succeeds exactly if these are all bytes. -/
class Store (σ : Type) extends Sink σ where
  contents : σ → List UInt8
  contents_write : ∀ (s : σ) (bytes : List UInt8), ∃ taken, taken <+: bytes ∧
    contents (write s bytes).1 = contents s ++ taken ∧ ((write s bytes).2 = none ↔ taken = bytes)

/-- Buffers keep what they take. -/
instance : Store Buffer where
  contents b := b.written.toList
  contents_write b bytes := by
    refine ⟨bytes.take (b.room bytes.length), List.take_prefix _ _, b.toList_write bytes, ?_⟩
    rw [List.take_eq_self_iff]
    show (if b.room bytes.length < bytes.length then some b.refusal else none) = none ↔ _
    split
    · rename_i hlt
      exact ⟨fun h => (Option.some_ne_none _ h).elim, fun h => absurd hlt (Nat.not_lt.2 h)⟩
    · rename_i hge
      exact ⟨fun _ => Nat.not_lt.1 hge, fun _ => rfl⟩

/-- **What has been taken of the pieces of an output** is some of the first bytes of the whole, and
all of them exactly if no piece was refused. So it does not matter how an output is cut into
pieces. -/
theorem Store.contents_writeEach {σ : Type} [Store σ] (s : σ) (pieces : List (List UInt8)) :
    ∃ taken, taken <+: pieces.flatten ∧
      contents (Sink.writeEach s pieces).1 = contents s ++ taken ∧
      ((Sink.writeEach s pieces).2 = none ↔ taken = pieces.flatten) := by
  induction pieces generalizing s with
  | nil => exact ⟨[], List.nil_prefix, (List.append_nil _).symm, iff_of_true rfl rfl⟩
  | cons piece pieces ih =>
    obtain ⟨taken, hfirst, hcontents, hnone⟩ := contents_write s piece
    rw [List.flatten_cons]
    rcases hwrite : Sink.write s piece with ⟨s', _ | reason⟩
    · -- the piece was taken, and the later ones are added behind it
      rw [hwrite] at hcontents hnone
      rw [Sink.writeEach_of_taken hwrite]
      obtain rfl := hnone.1 rfl
      obtain ⟨more, hmore, hafter, hend⟩ := ih s'
      refine ⟨taken ++ more, (List.prefix_append_right_inj _).2 hmore, ?_, ?_⟩
      · rw [hafter, hcontents, List.append_assoc]
      · rw [hend, List.append_right_inj]
    · rw [hwrite] at hcontents hnone
      rw [Sink.writeEach_of_refused hwrite]
      refine ⟨taken, hfirst.trans (List.prefix_append _ _), hcontents, ?_⟩
      refine iff_of_false (Option.some_ne_none _) fun heq => ?_
      -- all bytes are more than the first ones of the refused piece
      have hpiece : taken = piece := hfirst.eq_of_length_le (by simp [heq])
      cases hnone.2 hpiece

/-! ## Devices -/

/-- A type of devices. A device that is offered bytes takes some of the first ones and says how
many, or it takes none and gives a reason. -/
class Device (δ : Type) where
  offer : δ → List UInt8 → δ × Except String Nat
  flush : δ → δ × Option String

/-- A device with the bytes that it has taken. -/
structure Tape (δ : Type) where
  device : δ
  taken : List UInt8 := []

namespace Tape

variable {δ : Type} [Device δ]

/-- Offers bytes to the device until it has taken all of them. It is a failure if the device gives a
reason or takes nothing. -/
def writeAll (t : Tape δ) : List UInt8 → Tape δ × Option String
  | [] => (t, none)
  | b :: rest =>
    match Device.offer t.device (b :: rest) with
    | (device, .error reason) => ({ t with device }, some reason)
    | (device, .ok 0) => ({ t with device }, some "failed to write whole buffer")
    | (device, .ok (n + 1)) => writeAll ⟨device, t.taken ++ b :: rest.take n⟩ (rest.drop n)
termination_by bytes => bytes.length
decreasing_by
  rw [List.length_drop, List.length_cons]
  omega

/-- **What has been taken when the offers end** is some of the first bytes, and all of them exactly
if nothing failed. -/
theorem taken_writeAll (t : Tape δ) (bytes : List UInt8) :
    ∃ taken, taken <+: bytes ∧ (t.writeAll bytes).1.taken = t.taken ++ taken ∧
      ((t.writeAll bytes).2 = none ↔ taken = bytes) := by
  fun_induction writeAll t bytes with
  | case1 t => exact ⟨[], List.nil_prefix, (List.append_nil _).symm, by simp⟩
  | case2 t b rest device reason hoffer =>
    exact ⟨[], List.nil_prefix, (List.append_nil _).symm, by simp⟩
  | case3 t b rest device hoffer =>
    exact ⟨[], List.nil_prefix, (List.append_nil _).symm, by simp⟩
  | case4 t b rest device n hoffer ih =>
    -- the bytes of this offer stand in front of those of the later ones
    obtain ⟨taken, hprefix, htaken, hnone⟩ := ih
    have hsplit : b :: rest = (b :: rest.take n) ++ rest.drop n := by
      rw [List.cons_append, List.take_append_drop]
    refine ⟨(b :: rest.take n) ++ taken, ?_, by rw [htaken, List.append_assoc], ?_⟩
    · rw [hsplit]
      exact (List.prefix_append_right_inj _).2 hprefix
    · rw [hnone, hsplit, List.append_right_inj]

/-- Every device keeps what it takes. -/
instance : Store (Tape δ) where
  write := writeAll
  flush t := ({ t with device := (Device.flush t.device).1 }, (Device.flush t.device).2)
  contents := taken
  contents_write := taken_writeAll

end Tape

/-! ## Values taken from the stack -/

namespace Instruction

/-- How many values an instruction takes from the stack. -/
def consumes : Instruction → Nat
  | pop => 1
  | arith _ => 2
  | push _ | dump | assert _ | print | exit => 0

/-- How many values an instruction puts on the stack. -/
def produces : Instruction → Nat
  | push _ | arith _ => 1
  | pop | dump | assert _ | print | exit => 0

theorem HasEffect.output_arith {op : Operation} {s : List Operand} {e : Effect}
    (h : (Instruction.arith op).HasEffect s e) : e.output = [] := by
  cases h
  rfl

/-- An effect takes values that are there, and puts others in their place. -/
theorem HasEffect.exists_produced {i : Instruction} {s : List Operand} {e : Effect}
    (h : i.HasEffect s e) :
    i.consumes ≤ s.length ∧
      ∃ produced, e.stack = produced ++ s.drop i.consumes ∧ produced.length = i.produces := by
  cases h with
  | push v s hv => exact ⟨Nat.zero_le _, [v], rfl, rfl⟩
  | pop top s => exact ⟨Nat.le_add_left _ _, [], rfl, rfl⟩
  | arith op left right result s hresult => exact ⟨Nat.le_add_left _ _, [result], rfl, rfl⟩
  | dump | assert | print | exit => exact ⟨Nat.zero_le _, [], rfl, rfl⟩

theorem HasFault.ne_output {k : Nat} {i : Instruction} {s : List Operand} {fault : RunFault}
    (h : i.HasFault k s fault) (k' : Nat) (reason : String) : fault ≠ .output k' reason := by
  rintro rfl
  cases h

/-- The fault of an arithmetic instruction: there are fewer than two values, or the operation on the
two topmost ones fails. -/
theorem HasFault.arith_cases {k : Nat} {op : Operation} {s : List Operand} {fault : RunFault}
    (h : (Instruction.arith op).HasFault k s fault) :
    (s.length < 2 ∧ fault = .insufficientValues k (.arith op) s.length) ∨
      ∃ left right rest cause, s = right :: left :: rest ∧ op.apply left right = .error cause ∧
        fault = .arithmetic k cause := by
  cases h with
  | short op s hs => exact .inl ⟨hs, rfl⟩
  | arith op left right rest cause hresult =>
    exact .inr ⟨left, right, rest, cause, rfl, hresult, rfl⟩

end Instruction

namespace Machine

/-! ## Output that is refused -/

/-- The machine with an empty buffer that takes everything in the place of its sink. -/
def unlimited {σ : Type} (m : Machine σ) : Machine Buffer := m.mapSink fun _ => {}

/-- Where everything is taken, an instruction that has an effect succeeds and writes its output. -/
theorem step_unlimited {σ : Type} (m : Machine σ) {i : Instruction} {e : Effect}
    (he : i.HasEffect m.stack e) :
    (m.unlimited.step i).2 = .ok i.flow ∧ (m.unlimited.step i).1.output = e.output.flatten := by
  have htaken : Sink.writeEach m.unlimited.sink e.output =
      (Buffer.extended {} e.output.flatten, none) := by
    rw [Buffer.writeEach_eq_write]
    exact Buffer.write_of_limit_none {} rfl e.output.flatten
  rw [m.unlimited.step_of_taken he htaken]
  exact ⟨rfl, Buffer.toList_extended {} e.output.flatten⟩

variable {σ : Type} [Store σ]

/-- **A step that fails changes nothing.** The stack, the mark of termination and the index are as
before, and so is the sink, unless the fault is one of output. In that case the instruction would
have succeeded on a sink that takes everything, and the sink has grown by some of the first bytes of
what would have been written there, but not by all of them. An arithmetic instruction that fails
leaves its two operands on top of the stack, if there are two values at all. And a step that
succeeds has taken from the stack only values that were there. -/
theorem step_error_changes_nothing (m : Machine σ) (i : Instruction) :
    (∀ fault, (m.step i).2 = .error fault →
      (m.step i).1.stack = m.stack ∧ (m.step i).1.terminated = m.terminated ∧
      (m.step i).1.index = m.index ∧
      ((∀ k reason, fault ≠ .output k reason) → (m.step i).1.sink = m.sink) ∧
      (∀ k reason, fault = .output k reason →
        (m.unlimited.step i).2 = .ok i.flow ∧
        ∃ taken, Store.contents (m.step i).1.sink = Store.contents m.sink ++ taken ∧
          taken <+: (m.unlimited.step i).1.output ∧ taken ≠ (m.unlimited.step i).1.output) ∧
      (∀ op, i = .arith op →
        (m.stack.length < 2 ∧ fault = .insufficientValues m.index (.arith op) m.stack.length) ∨
        ∃ left right rest cause, (m.step i).1.stack = right :: left :: rest ∧
          op.apply left right = .error cause ∧ fault = .arithmetic m.index cause)) ∧
    (∀ flow, (m.step i).2 = .ok flow →
      i.consumes ≤ m.stack.length ∧
      ∃ produced, (m.step i).1.stack = produced ++ m.stack.drop i.consumes ∧
        produced.length = i.produces) := by
  constructor
  · intro fault h
    obtain ⟨e, sink, -, -, hstep⟩ | ⟨e, sink, reason, he, hrefused, hstep⟩ |
      ⟨fault', hfault, hstep⟩ := m.step_cases i
    · rw [hstep] at h
      cases h
    · rw [hstep] at h ⊢
      cases h
      refine ⟨rfl, rfl, rfl, fun hnot => absurd rfl (hnot _ _), ?_, ?_⟩
      · intro k reason' _
        obtain ⟨hok, houtput⟩ := m.step_unlimited he
        obtain ⟨taken, hfirst, hcontents, hnone⟩ := Store.contents_writeEach m.sink e.output
        rw [hrefused] at hcontents hnone
        rw [houtput]
        refine ⟨hok, taken, hcontents, hfirst, fun heq => ?_⟩
        cases hnone.2 heq
      · -- arithmetic writes nothing, so there is nothing to refuse
        rintro op rfl
        rw [he.output_arith] at hrefused
        cases hrefused
    · rw [hstep] at h ⊢
      cases h
      refine ⟨rfl, rfl, rfl, fun _ => rfl, ?_, ?_⟩
      · intro k reason houtput
        exact absurd houtput (hfault.ne_output k reason)
      · rintro op rfl
        exact hfault.arith_cases
  · intro flow h
    obtain ⟨e, he, hstack⟩ := m.hasEffect_of_step i flow h
    rw [hstack]
    exact he.exists_produced

end Machine

/-! ## A device that takes single bytes -/

/-- A device that takes one byte at a time until it is full. -/
structure Drip where
  room : Nat

instance : Device Drip where
  offer d _ :=
    match d.room with
    | 0 => (d, .error "closed")
    | n + 1 => (⟨n⟩, .ok 1)
  flush d := (d, none)

/-- A dump is refused in the middle of its second line, by a device that takes single bytes and by a
buffer that takes what fits. Both hold the same part of the output, and the stacks are as before. -/
theorem Machine.step_error_changes_nothing_dump :
    let onDevice : Machine (Tape Drip) :=
      { stack := [.int8 (-3), .int8 12], index := 7, sink := { device := ⟨4⟩ } }
    let onBuffer : Machine Buffer :=
      { stack := [.int8 (-3), .int8 12], sink := { limit := some 4, refusal := "closed" } }
    (onDevice.step .dump).2 = .error (.output 7 "closed") ∧
      (onDevice.step .dump).1.stack = [.int8 (-3), .int8 12] ∧
      (onDevice.step .dump).1.sink.taken = Utf8.encode ['-', '3', '\n', '1'] ∧
      (∃ taken, (onDevice.step .dump).1.sink.taken = [] ++ taken ∧
        taken ≠ (onDevice.unlimited.step .dump).1.output) ∧
      (onBuffer.step .dump).2 = .error (.output 0 "closed") ∧
      (onBuffer.step .dump).1.stack = [.int8 (-3), .int8 12] ∧
      (onBuffer.step .dump).1.output = Utf8.encode ['-', '3', '\n', '1'] := by
  intro onDevice onBuffer
  have hdevice : (onDevice.step .dump).2 = .error (.output 7 "closed") := by decide +kernel
  have hbuffer : (onBuffer.step .dump).2 = .error (.output 0 "closed") := by decide +kernel
  obtain ⟨hstack, -, -, -, houtput, -⟩ := (onDevice.step_error_changes_nothing .dump).1 _ hdevice
  obtain ⟨-, taken, hcontents, -, hproper⟩ := houtput 7 "closed" rfl
  refine ⟨hdevice, hstack, by decide +kernel, ⟨taken, hcontents, hproper⟩, hbuffer, ?_,
    by decide +kernel⟩
  exact ((onBuffer.step_error_changes_nothing .dump).1 _ hbuffer).1

end NumStack
