import NumStack.Source.Token

/-!
# Assembly

A source text is cut into tokens, and the lines of tokens up to the first end marker are read one by
one. A line holds at most one instruction:

    instruction := ("push" | "assert") value | opcode
    value       := type ( "(" number ")" | number )

Reading a line gives its instruction or the one fault to report for it. An invalid token was
reported when it was cut off the text, so it ends a line without a second fault. A program must hold
an `exit`. Collected faults are listed by line.
-/

namespace NumStack

/-! ## Lines -/

/-- The tokens left on a line, and the newline or end marker that stops it. -/
structure Line where
  tokens : List Token
  stop : Token
  deriving DecidableEq, Repr

/-- Why a line gives no instruction. -/
inductive LineFault where
  | reported
  | fault (fault : SourceFault)
  deriving DecidableEq, Repr

namespace LineFault

/-- A fault found at a token, unless the token is invalid and so already reported. -/
def atToken (t : Token) (fault : SourceFault) : LineFault :=
  if t.kind = .invalid then reported else .fault fault

end LineFault

namespace Line

/-- The first line of a token list. -/
def first (tokens : List Token) : Line where
  tokens := tokens.takeWhile Token.inLine
  stop := (tokens.dropWhile Token.inLine).headD Token.missingEnd

/-- The token at the front of a line, which is what stops the line when nothing else is left. -/
def current (l : Line) : Token := l.tokens.headD l.stop

/-- The line behind its first token. -/
def next (l : Line) : Line := { l with tokens := l.tokens.tail }

/-- The fault of finding the current token where something else is expected. -/
def unexpected (l : Line) (expected : String) : LineFault :=
  .atToken l.current (.unexpectedToken l.current.position expected l.current.describe)

/-- Reads a number. -/
def number (l : Line) : Except LineFault (Token × Line) :=
  if l.current.isNumber then .ok (l.current, l.next)
  else .error (.atToken l.current (.expectedNumber l.current.position l.current.describe))

/-- Reads a number, in parentheses or not. -/
def argument (l : Line) : Except LineFault (Token × Line) :=
  if l.current.kind = .leftParen then do
    let (token, rest) ← l.next.number
    if rest.current.kind = .rightParen then return (token, rest.next)
    else throw (rest.unexpected "')'")
  else l.number

/-- Reads the value of an instruction. -/
def value (l : Line) : Except LineFault (Operand × Line) :=
  match l.current.kind with
  | .type kind => do
    let (token, rest) ← l.next.argument
    match Operand.ofLiteral kind token.text with
    | .ok v => return (v, rest)
    | .error cause => throw (.fault (.invalidOperand token.position cause))
  | _ => .error (.atToken l.current (.expectedKind l.current.position l.current.describe))

/-- Reads what follows an opcode. -/
def arguments (o : Opcode) (l : Line) : Except LineFault (Instruction × Line) :=
  match o with
  | .push => do let (v, rest) ← l.value; return (.push v, rest)
  | .assert => do let (v, rest) ← l.value; return (.assert v, rest)
  | .pop => .ok (.pop, l)
  | .dump => .ok (.dump, l)
  | .arith op => .ok (.arith op, l)
  | .print => .ok (.print, l)
  | .exit => .ok (.exit, l)

/-- Reads an instruction and leaves what stands behind it. -/
def instruction (l : Line) : Except LineFault (Instruction × Line) :=
  match l.current.kind with
  | .opcode o => l.next.arguments o
  | .type _ | .unknown => .error (.fault (.unknownInstruction l.current.position l.current.text))
  | _ => .error (l.unexpected "instruction")

/-- Whether nothing but text that was already reported stands on the line. -/
def isFinished (l : Line) : Bool := !l.current.inLine || l.current.kind = .invalid

/-- Reads a whole line. -/
def read (l : Line) : Except LineFault Instruction := do
  let (i, rest) ← l.instruction
  if rest.isFinished then return i else throw (rest.unexpected "end of line")

end Line

/-! ## Options -/

/-- How a source text is assembled. -/
structure Options where
  policy : Policy := .failFast
  interactive : Bool := false
  deriving DecidableEq, Repr

namespace Program

/-! ## Reading tokens -/

/-- The instructions of the lines of a token list, up to the first end marker. -/
def readLines (tokens : List Token) (report : Report) : Except SourceFault (Program × Report) :=
  match _h : tokens.dropWhile Token.isNewline with
  | [] => .ok ([], report)
  | t :: tail =>
    if t.isEnd then .ok ([], report)
    else
      let rest := tail.dropWhile Token.inLine
      match (Line.first (t :: tail)).read with
      | .ok i => do
        let (p, report) ← readLines rest report
        return (i :: p, report)
      | .error .reported => readLines rest report
      | .error (.fault fault) => do
        let report ← report.add fault
        readLines rest report
termination_by tokens.length
decreasing_by
  all_goals
    have hdrop := (List.dropWhile_suffix Token.isNewline (l := tokens)).length_le
    have hrest := (List.dropWhile_suffix Token.inLine (l := tail)).length_le
    rw [_h, List.length_cons] at hdrop
    omega

/-- The program of a token list; one without `exit` is faulty. -/
def ofTokens (tokens : List Token) (report : Report) : Except SourceFault (Program × Report) := do
  let (p, report) ← readLines tokens report
  if p.hasExit then return (p, report)
  else return (p, ← report.add .missingExit)

/-! ## Assembling text -/

/-- Reads a source text, with what has been reported on the way. -/
def read (options : Options) (text : String) : Except SourceFault (Program × Report) := do
  let (tokens, report) ← Token.tokenize options.interactive text { policy := options.policy }
  ofTokens tokens report

/-- Orders faults by line; a fault without a line comes last. -/
def faultLe (a b : SourceFault) : Bool :=
  match a.line?, b.line? with
  | some x, some y => x ≤ y
  | none, some _ => false
  | _, none => true

/-- Assembles a source text. The faults of a failure are listed by line, those of one line in the
order of their finding. -/
def assembleWith (options : Options) (text : String) : Except (List SourceFault) Program :=
  match read options text with
  | .error fault => .error [fault]
  | .ok (p, report) => (report.finish p).mapError fun faults => faults.mergeSort faultLe

/-- Assembles the text of a file up to its first fault. -/
def assemble (text : String) : Except SourceFault Program := (read {} text).map Prod.fst

end Program

end NumStack
