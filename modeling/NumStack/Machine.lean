import NumStack.Program
import NumStack.Text

/-!
# The stack machine

What an instruction does to a stack, and what it writes, do not depend on the sink: this is its
*effect*. A step of the machine carries out an effect. If the effect is a fault, or the sink refuses
a part of the output, the stack stays as it was.

A run carries out the instructions of a program in order until one is `exit` or fails. A machine
that has once met an `exit` stays terminated, and a later run of it ends after one instruction. The
sink is flushed when the run is over.
-/

namespace NumStack

/-! ## Run faults -/

/-- A fault of a run. -/
inductive RunFault where
  | emptyStack (index : Nat) (opcode : Opcode)
  | insufficientValues (index : Nat) (opcode : Opcode) (found : Nat)
  | arithmetic (index : Nat) (cause : OperandFault)
  | assertFailed (index : Nat) (expected found : String)
  | notPrintable (index : Nat) (found : String)
  | missingExit
  | output (index : Nat) (reason : String)
  deriving DecidableEq, Repr

namespace RunFault

/-- The category of a run fault. -/
def category : RunFault → Category
  | emptyStack _ _ => .emptyStack
  | insufficientValues _ _ _ => .insufficientValues
  | arithmetic _ cause => cause.category
  | assertFailed _ _ _ | notPrintable _ _ => .assertionFailed
  | missingExit => .missingExit
  | output _ _ => .output

/-- The index of the instruction at fault. -/
def index? : RunFault → Option Nat
  | emptyStack k _ | insufficientValues k _ _ | arithmetic k _ | assertFailed k _ _
  | notPrintable k _ | output k _ => some k
  | missingExit => none

/-- The message of a run fault. -/
def message : RunFault → String
  | emptyStack k o => s!"{o.mnemonic} on empty stack at instruction {k}"
  | insufficientValues k o found =>
    s!"{o.mnemonic} needs 2 values, found {found} at instruction {k}"
  | arithmetic k cause => s!"{cause.message} at instruction {k}"
  | assertFailed k expected found =>
    s!"assertion failed at instruction {k}: expected {expected}, found {found}"
  | notPrintable k found => s!"print expects int8 on top, found {found} at instruction {k}"
  | missingExit => "program ended without executing 'exit'"
  | output k reason => s!"output failed at instruction {k}: {reason}"

end RunFault

/-! ## Sinks -/

/-- A type of sinks. Each operation gives the sink afterwards and the reason of its failure, if it
failed. -/
class Sink (σ : Type) where
  write : σ → List UInt8 → σ × Option String
  flush : σ → σ × Option String

namespace Sink

variable {σ : Type} [Sink σ]

/-- Writes pieces of output one after another, up to the first that the sink refuses. -/
def writeEach (sink : σ) : List (List UInt8) → σ × Option String
  | [] => (sink, none)
  | piece :: pieces =>
    match write sink piece with
    | (sink, none) => writeEach sink pieces
    | (sink, some reason) => (sink, some reason)

theorem writeEach_of_taken {s s' : σ} {piece : List UInt8} (h : write s piece = (s', none))
    (pieces : List (List UInt8)) : writeEach s (piece :: pieces) = writeEach s' pieces := by
  rw [writeEach, h]

theorem writeEach_of_refused {s s' : σ} {piece : List UInt8} {reason : String}
    (h : write s piece = (s', some reason)) (pieces : List (List UInt8)) :
    writeEach s (piece :: pieces) = (s', some reason) := by
  rw [writeEach, h]

end Sink

/-- A sink in memory. It stores bytes up to its limit, if it has one, and refuses the bytes beyond
it with a fixed reason; its flushes all succeed or all fail. -/
structure Buffer where
  written : Array UInt8 := #[]
  limit : Option Nat := none
  refusal : String := ""
  flushFault : Option String := none
  deriving DecidableEq, Repr

namespace Buffer

/-- The number of bytes out of `n` for which there is room. -/
def room (b : Buffer) (n : Nat) : Nat :=
  match b.limit with
  | none => n
  | some limit => min n (limit - b.written.size)

/-- Stores what there is room for, and fails if that is not everything. -/
def write (b : Buffer) (bytes : List UInt8) : Buffer × Option String :=
  ({ b with written := b.written ++ bytes.take (b.room bytes.length) },
    if b.room bytes.length < bytes.length then some b.refusal else none)

instance : Sink Buffer where
  write := Buffer.write
  flush b := (b, b.flushFault)

theorem toList_write (b : Buffer) (bytes : List UInt8) :
    (b.write bytes).1.written.toList =
      b.written.toList ++ bytes.take (b.room bytes.length) := by
  simp [write]

theorem room_le (b : Buffer) (n : Nat) : b.room n ≤ n := by
  unfold room
  split <;> omega

theorem room_of_limit_none (b : Buffer) (n : Nat) (h : b.limit = none) : b.room n = n := by
  simp [room, h]

end Buffer

/-! ## Effects -/

/-- The stack after an instruction, top first, and the pieces of output that the instruction writes,
in order. -/
structure Effect where
  stack : List Operand
  output : List (List UInt8) := []
  deriving DecidableEq

namespace Instruction

/-- A value that an instruction carries, if it is within the bounds of its kind. -/
def validated (index : Nat) (v : Operand) : Except RunFault Operand :=
  v.checked.mapError (.arithmetic index)

/-- The lines of a stack, one for each value, the top first. -/
def dumpLines (stack : List Operand) : List (List UInt8) :=
  stack.map fun v => Utf8.encode (v.chars ++ ['\n'])

/-- Two operands are the same for `assert` if they have one kind and one text. -/
def agrees (v w : Operand) : Bool := v.kind = w.kind && v.text = w.text

/-- The effect of the instruction number `index` on a stack. -/
def effect (index : Nat) (stack : List Operand) : Instruction → Except RunFault Effect
  | push v => do return ⟨(← validated index v) :: stack, []⟩
  | pop =>
    match stack with
    | [] => .error (.emptyStack index .pop)
    | _ :: rest => .ok ⟨rest, []⟩
  | dump => .ok ⟨stack, dumpLines stack⟩
  | assert v => do
    let expected ← validated index v
    match stack with
    | [] => .error (.emptyStack index .assert)
    | top :: _ =>
      if agrees top expected then .ok ⟨stack, []⟩
      else .error (.assertFailed index expected.typedText top.typedText)
  | arith op =>
    match stack with
    | right :: left :: rest => do
      let result ← (op.apply left right).mapError (.arithmetic index)
      return ⟨result :: rest, []⟩
    | short => .error (.insufficientValues index (.arith op) short.length)
  | print =>
    match stack with
    | [] => .error (.emptyStack index .print)
    | .int8 code :: _ => .ok ⟨stack, [[code.toUInt8]]⟩
    | top :: _ => .error (.notPrintable index top.typedText)
  | exit => .ok ⟨stack, []⟩

end Instruction

/-! ## Steps -/

/-- What a run does after an instruction. -/
inductive Flow where
  | next
  | exit
  deriving DecidableEq, Repr

/-- How a run goes on after an instruction. -/
def Instruction.flow (i : Instruction) : Flow := if i.opcode = .exit then .exit else .next

/-- A stack machine that writes to a sink. `index` is the number of the instruction last tried by a
run. -/
structure Machine (σ : Type) where
  stack : List Operand := []
  terminated : Bool := false
  index : Nat := 0
  sink : σ

namespace Machine

variable {σ : Type} [Sink σ]

/-- A machine that has not run yet. -/
def fresh (sink : σ) : Machine σ := { sink }

/-- Carries out one instruction. -/
def step (m : Machine σ) (i : Instruction) : Machine σ × Except RunFault Flow :=
  match i.effect m.index m.stack with
  | .error fault => (m, .error fault)
  | .ok effect =>
    match Sink.writeEach m.sink effect.output with
    | (sink, none) => ({ m with stack := effect.stack, sink }, .ok i.flow)
    | (sink, some reason) => ({ m with sink }, .error (.output m.index reason))

/-! ## Runs -/

/-- Marks the machine as terminated after an `exit`. -/
def settle (m : Machine σ) (flow : Flow) : Machine σ :=
  { m with terminated := m.terminated || flow == .exit }

/-- Runs instructions, the first of which has the number `k`. -/
def runFrom (m : Machine σ) (k : Nat) : List Instruction → Machine σ × Except RunFault Unit
  | [] => (m, .error .missingExit)
  | i :: rest =>
    match step { m with index := k } i with
    | (m, .error fault) => (m, .error fault)
    | (m, .ok flow) =>
      let m := m.settle flow
      if m.terminated then (m, .ok ()) else m.runFrom (k + 1) rest

/-- Flushes the sink after a run. A failing flush fails the run if nothing else has. -/
def flushed (m : Machine σ) (result : Except RunFault Unit) : Machine σ × Except RunFault Unit :=
  match Sink.flush m.sink with
  | (sink, none) => ({ m with sink }, result)
  | (sink, some reason) => ({ m with sink }, do result; .error (.output m.index reason))

/-- Runs a program from its first instruction. -/
def execute (m : Machine σ) (p : Program) : Machine σ × Except RunFault Unit :=
  let (m, result) := m.runFrom 0 p
  m.flushed result

/-! ## History of a run -/

/-- An instruction that was carried out: its number, itself, and the number of values on the stack
afterwards. -/
structure Executed where
  index : Nat
  instruction : Instruction
  depth : Nat

/-- The instructions that a run carries out. -/
def history (m : Machine σ) (k : Nat) : List Instruction → List Executed
  | [] => []
  | i :: rest =>
    match step { m with index := k } i with
    | (_, .error _) => []
    | (m, .ok flow) =>
      let m := m.settle flow
      ⟨k, i, m.stack.length⟩ :: if m.terminated then [] else m.history (k + 1) rest

end Machine

end NumStack
