import NumStack.Operand

/-!
# Programs

The instructions of the stack machine and their mnemonics. Two of them carry a value. A program is a
list of instructions, and its canonical listing has one instruction on each line.
-/

namespace NumStack

/-! ## Opcodes -/

/-- What an instruction does, without its value. -/
inductive Opcode where
  | push
  | pop
  | dump
  | assert
  | arith (op : Operation)
  | print
  | exit
  deriving DecidableEq, Repr

namespace Opcode

/-- All opcodes. -/
def all : List Opcode :=
  [push, pop, dump, assert, arith .add, arith .sub, arith .mul, arith .div, arith .mod, print, exit]

/-- The name of an opcode in source text. -/
def mnemonic : Opcode → String
  | push => "push"
  | pop => "pop"
  | dump => "dump"
  | assert => "assert"
  | arith op => op.name
  | print => "print"
  | exit => "exit"

/-- The opcode of a given name. -/
def ofMnemonic? (name : String) : Option Opcode := all.find? fun o => o.mnemonic == name

/-- Whether the instruction carries a value. -/
def takesValue : Opcode → Bool
  | push | assert => true
  | _ => false

/-- An opcode is found again by its name. -/
theorem ofMnemonic?_mnemonic (o : Opcode) : ofMnemonic? o.mnemonic = some o := by
  cases o with
  | arith op => cases op <;> decide
  | _ => decide

end Opcode

/-! ## Instructions -/

/-- An instruction of the stack machine. -/
inductive Instruction where
  | push (value : Operand)
  | pop
  | dump
  | assert (value : Operand)
  | arith (op : Operation)
  | print
  | exit
  deriving DecidableEq

namespace Instruction

/-- The opcode of an instruction. -/
def opcode : Instruction → Opcode
  | push _ => .push
  | pop => .pop
  | dump => .dump
  | assert _ => .assert
  | arith op => .arith op
  | print => .print
  | exit => .exit

/-- The value that an instruction carries. -/
def value? : Instruction → Option Operand
  | push v | assert v => some v
  | _ => none

/-- The instruction of an opcode that carries no value. -/
def simple? : Opcode → Option Instruction
  | .push | .assert => none
  | .pop => some pop
  | .dump => some dump
  | .arith op => some (arith op)
  | .print => some print
  | .exit => some exit

/-- The instruction of an opcode that carries a value. -/
def withValue? (o : Opcode) (v : Operand) : Option Instruction :=
  match o with
  | .push => some (push v)
  | .assert => some (assert v)
  | _ => none

/-- The canonical text of an instruction. -/
def text (i : Instruction) : String :=
  match i.value? with
  | some v => i.opcode.mnemonic ++ " " ++ v.typedText
  | none => i.opcode.mnemonic

end Instruction

/-! ## Programs -/

/-- A program: the instructions in the order in which they run. -/
abbrev Program := List Instruction

namespace Program

/-- Whether some instruction of the program is `exit`. -/
def hasExit (p : Program) : Bool := p.any fun i => i.opcode == .exit

/-- The operands that the program's instructions carry, in order. -/
def operands (p : Program) : List Operand := p.filterMap Instruction.value?

/-- The canonical listing: each instruction on a line of its own. -/
def listing (p : Program) : String := String.ofList (p.flatMap fun i => i.text.toList ++ ['\n'])

end Program

end NumStack
