import NumStack.Decimal

/-!
# Operands

An operand is a number of one of five kinds. Every operand widens to a double; a double narrows to a
kind if it is within the bounds of the kind. Arithmetic widens both operands, is carried out on
doubles, and narrows the result to the greater of the two kinds. A number cannot be built if its
literal is malformed, its value does not fit the kind, or it is a quotient by zero.
-/

namespace NumStack

/-! ## Kinds of numbers -/

/-- A kind of number. -/
inductive Kind where
  | int8
  | int16
  | int32
  | float
  | double
  deriving DecidableEq, Repr

namespace Kind

/-- All kinds, in ascending order of rank. -/
def all : List Kind := [int8, int16, int32, float, double]

/-- The name of a kind in source text. -/
def name : Kind → String
  | int8 => "int8"
  | int16 => "int16"
  | int32 => "int32"
  | float => "float"
  | double => "double"

/-- The kind of a given name. -/
def ofName? (name : String) : Option Kind := all.find? fun k => k.name == name

/-- The place of a kind in the order of kinds. -/
def rank : Kind → Nat
  | int8 => 0
  | int16 => 1
  | int32 => 2
  | float => 3
  | double => 4

/-- Whether numbers of the kind are integers. -/
def isInteger : Kind → Bool
  | int8 | int16 | int32 => true
  | float | double => false

/-- The greater of two kinds. -/
def max (a b : Kind) : Kind := if a.rank < b.rank then b else a

/-- The least value of a kind, as a double. -/
def least : Kind → Double
  | int8 => Binary.ofInt (-128)
  | int16 => Binary.ofInt (-32768)
  | int32 => Binary.ofInt (-2147483648)
  | float => (Binary.largest true : Single).convert
  | double => Binary.largest true

/-- The greatest value of a kind, as a double. -/
def greatest : Kind → Double
  | int8 => Binary.ofInt 127
  | int16 => Binary.ofInt 32767
  | int32 => Binary.ofInt 2147483647
  | float => (Binary.largest false : Single).convert
  | double => Binary.largest false

/-- A kind is found again by its name. -/
theorem ofName?_name (k : Kind) : ofName? k.name = some k := by
  cases k <;> decide

end Kind

/-! ## Fault categories -/

/-- The category of a fault. -/
inductive Category where
  | lexical
  | grammar
  | missingExit
  | missingTerminator
  | emptyStack
  | insufficientValues
  | divisionByZero
  | overflow
  | underflow
  | assertionFailed
  | output
  deriving DecidableEq, Repr

/-- The name of a category. -/
def Category.text : Category → String
  | lexical => "lexical error"
  | grammar => "syntax error"
  | missingExit => "missing exit"
  | missingTerminator => "missing terminator"
  | emptyStack => "empty stack"
  | insufficientValues => "insufficient values"
  | divisionByZero => "division by zero"
  | overflow => "overflow"
  | underflow => "underflow"
  | assertionFailed => "assertion failed"
  | output => "output error"

/-! ## Operand faults -/

/-- A fault in building an operand. A value out of range is kept as the text that shows it. -/
inductive OperandFault where
  | invalidLiteral (kind : Kind) (text : String)
  | overflow (kind : Kind) (value : String)
  | underflow (kind : Kind) (value : String)
  | divisionByZero
  deriving DecidableEq, Repr

namespace OperandFault

/-- The category of an operand fault. -/
def category : OperandFault → Category
  | invalidLiteral _ _ => .lexical
  | overflow _ _ => .overflow
  | underflow _ _ => .underflow
  | divisionByZero => .divisionByZero

/-- The message of an operand fault. -/
def message : OperandFault → String
  | invalidLiteral kind text => s!"invalid {kind.name} literal '{text}'"
  | overflow kind value => s!"overflow: {value} does not fit in {kind.name}"
  | underflow kind value => s!"underflow: {value} does not fit in {kind.name}"
  | divisionByZero => "division by zero"

end OperandFault

/-! ## Numbers -/

/-- A number of one of the five kinds. -/
inductive Operand where
  | int8 (value : Int8)
  | int16 (value : Int16)
  | int32 (value : Int32)
  | float (value : Single)
  | double (value : Double)
  deriving DecidableEq

namespace Operand

/-- The kind of an operand. -/
def kind : Operand → Kind
  | int8 _ => .int8
  | int16 _ => .int16
  | int32 _ => .int32
  | float _ => .float
  | double _ => .double

/-! ## Text -/

/-- The decimal text of an integer. -/
def integerText (n : Int) : List Char :=
  (if n < 0 then ['-'] else []) ++ Nat.toDigits 10 n.natAbs

/-- The canonical characters of the value of an operand. -/
def chars : Operand → List Char
  | int8 n => integerText n.toInt
  | int16 n => integerText n.toInt
  | int32 n => integerText n.toInt
  | float x => x.chars
  | double x => x.chars

/-- The canonical text of the value of an operand. -/
def text (v : Operand) : String := String.ofList v.chars

/-- An operand with its kind, as it is written in source text: `int8(5)`. -/
def typedText (v : Operand) : String := v.kind.name ++ "(" ++ v.text ++ ")"

/-! ## Widening and narrowing -/

/-- The value of an operand as a double, which is exact for every kind. -/
def wide : Operand → Double
  | int8 n => Binary.ofInt n.toInt
  | int16 n => Binary.ofInt n.toInt
  | int32 n => Binary.ofInt n.toInt
  | float x => x.convert
  | double x => x

/-- Whether an operand is a zero of either sign. -/
def isZero (v : Operand) : Bool := v.wide.isZero

/-- The fault of a double outside the bounds of a kind, up to the text that shows the value. For
single precision it is the rounded value that has to be within the bounds, so a value that rounds to
the largest finite number still fits. -/
def boundsFault? (kind : Kind) (x : Double) : Option (String → OperandFault) :=
  let y := if kind = .float then (x.convert : Single).convert else x
  if y.isNan || kind.greatest.less y then some (.overflow kind)
  else if y.less kind.least then some (.underflow kind)
  else none

/-- The operand of a kind nearest to a double within its bounds; an integer is truncated toward
zero. -/
def narrow (kind : Kind) (x : Double) : Operand :=
  match kind with
  | .int8 => int8 (Int8.ofInt x.truncate)
  | .int16 => int16 (Int16.ofInt x.truncate)
  | .int32 => int32 (Int32.ofInt x.truncate)
  | .float => float x.convert
  | .double => double x

/-- The operand of a kind for a double, or the fault of a double outside the kind's bounds. -/
def ofWide (kind : Kind) (x : Double) : Except OperandFault Operand :=
  match boundsFault? kind x with
  | some fault => .error (fault x.text)
  | none => .ok (narrow kind x)

/-- The operand again, if its value is within the bounds of its kind. Only an infinity or `nan` is
not. -/
def checked (v : Operand) : Except OperandFault Operand := ofWide v.kind v.wide

/-! ## Literals -/

/-- The operand of a kind nearest to a signed decimal. A single-precision number is rounded from the
decimal itself, all others from its double. -/
def ofDecimal (kind : Kind) (negative : Bool) (d : Decimal) : Operand :=
  match kind with
  | .float => float (Binary.ofDecimal negative d)
  | kind => narrow kind (Binary.ofDecimal negative d)

/-- The operand of a kind that a literal denotes. Integer kinds take no point, and the literal
rounded to a double has to be within the bounds of the kind. -/
def ofLiteral (kind : Kind) (text : String) : Except OperandFault Operand :=
  match Decimal.ofLiteral? text.toList with
  | none => .error (.invalidLiteral kind text)
  | some (negative, d) =>
    if kind.isInteger && text.toList.contains '.' then .error (.invalidLiteral kind text)
    else
      match boundsFault? kind (Binary.ofDecimal negative d) with
      | some fault => .error (fault text)
      | none => .ok (ofDecimal kind negative d)

end Operand

/-! ## Arithmetic -/

/-- An arithmetic operation. -/
inductive Operation where
  | add
  | sub
  | mul
  | div
  | mod
  deriving DecidableEq, Repr

namespace Operation

/-- The name of an operation. -/
def name : Operation → String
  | add => "add"
  | sub => "sub"
  | mul => "mul"
  | div => "div"
  | mod => "mod"

/-- Whether the operation divides by its right operand. -/
def divides : Operation → Bool
  | div | mod => true
  | add | sub | mul => false

/-- The operation on doubles. -/
def onDoubles : Operation → Double → Double → Double
  | add => Binary.add
  | sub => Binary.sub
  | mul => Binary.mul
  | div => Binary.div
  | mod => Binary.rem

/-- The operation on operands. Division by a zero of either sign is refused before anything else. -/
def apply (op : Operation) (left right : Operand) : Except OperandFault Operand :=
  if op.divides && right.isZero then .error .divisionByZero
  else Operand.ofWide (left.kind.max right.kind) (op.onDoubles left.wide right.wide)

end Operation

end NumStack
