import NumStack.Operand

/-!
# Source faults

What can be wrong with a source text, and where. Lines and columns count from one; a column counts
characters. Faults are either refused at once or collected, as the policy of the report says.
-/

namespace NumStack

/-! ## Positions -/

/-- A place in source text. -/
structure Position where
  line : Nat
  column : Nat
  deriving DecidableEq, Repr

namespace Position

/-- The position of the first character. -/
def start : Position := ⟨1, 1⟩

/-- The position after one character: a newline starts the next line. -/
def next (p : Position) (c : Char) : Position :=
  if c = '\n' then ⟨p.line + 1, 1⟩ else ⟨p.line, p.column + 1⟩

/-- The position after some text. -/
def after (p : Position) (cs : List Char) : Position := cs.foldl next p

theorem after_nil (p : Position) : p.after [] = p := rfl

theorem after_cons (p : Position) (c : Char) (cs : List Char) :
    p.after (c :: cs) = (p.next c).after cs := rfl

theorem after_append (p : Position) (cs ds : List Char) :
    p.after (cs ++ ds) = (p.after cs).after ds :=
  List.foldl_append

end Position

/-! ## Faults -/

/-- A fault in source text. -/
inductive SourceFault where
  | unexpectedCharacter (position : Position) (found : Char)
  | unknownInstruction (position : Position) (word : String)
  | expectedKind (position : Position) (found : String)
  | expectedNumber (position : Position) (found : String)
  | unexpectedToken (position : Position) (expected found : String)
  | invalidOperand (position : Position) (cause : OperandFault)
  | missingExit
  | missingTerminator (line : Nat)
  deriving DecidableEq, Repr

namespace SourceFault

/-- The category of a source fault. -/
def category : SourceFault → Category
  | unexpectedCharacter _ _ => .lexical
  | unknownInstruction _ _ | expectedKind _ _ | expectedNumber _ _ | unexpectedToken _ _ _ =>
    .grammar
  | invalidOperand _ cause => cause.category
  | missingExit => .missingExit
  | missingTerminator _ => .missingTerminator

/-- The position of a source fault, where it has a column. -/
def position? : SourceFault → Option Position
  | unexpectedCharacter p _ | unknownInstruction p _ | expectedKind p _ | expectedNumber p _
  | unexpectedToken p _ _ | invalidOperand p _ => some p
  | missingExit | missingTerminator _ => none

/-- The line of a source fault; only a missing `exit` has none. -/
def line? : SourceFault → Option Nat
  | missingTerminator line => some line
  | fault => fault.position?.map Position.line

/-- What is wrong, without the place. -/
def complaint : SourceFault → String
  | unexpectedCharacter _ found => s!"unexpected character '{found}'"
  | unknownInstruction _ word => s!"unknown instruction '{word}'"
  | expectedKind _ found =>
    s!"expected operand type (int8, int16, int32, float, double), found '{found}'"
  | expectedNumber _ found => s!"expected numeric value, found '{found}'"
  | unexpectedToken _ expected found => s!"expected {expected}, found '{found}'"
  | invalidOperand _ cause => cause.message
  | missingExit => "program has no 'exit' instruction"
  | missingTerminator _ => "input ended without ';;'"

/-- The message of a source fault: its place, as far as it has one, and what is wrong. -/
def message (fault : SourceFault) : String :=
  match fault.position?, fault.line? with
  | some p, _ => s!"line {p.line}, column {p.column}: {fault.complaint}"
  | none, some line => s!"line {line}: {fault.complaint}"
  | none, none => fault.complaint

end SourceFault

/-! ## Reports -/

/-- What happens to a fault: it ends the work, or it is recorded and the work goes on. -/
inductive Policy where
  | failFast
  | collect
  deriving DecidableEq, Repr

/-- A policy together with the faults recorded under it, in order. -/
structure Report where
  policy : Policy
  faults : List SourceFault := []
  deriving DecidableEq, Repr

namespace Report

/-- Adds a fault to a collecting report; a fail-fast report returns it as the failure. -/
def add (r : Report) (fault : SourceFault) : Except SourceFault Report :=
  match r.policy with
  | .failFast => .error fault
  | .collect => .ok { r with faults := r.faults ++ [fault] }

/-- The value, or the recorded faults if there are any. -/
def finish {α : Type} (r : Report) (value : α) : Except (List SourceFault) α :=
  if r.faults.isEmpty then .ok value else .error r.faults

end Report

end NumStack
