import NumStack.Machine
import NumStack.Source.Assembly

/-!
# From source text to result

A source text is assembled and, if that succeeds, run on a fresh machine. The log tells of the
stages: the tokens cut, the lines read, the program assembled, each instruction carried out and the
end of the run. A stage that fails tells nothing of itself.
-/

namespace NumStack

/-! ## Assembling and running -/

/-- A fault of the source text or of its run. -/
inductive Fault where
  | source (fault : SourceFault)
  | run (fault : RunFault)
  deriving DecidableEq, Repr

namespace Fault

/-- Whether the fault lies in the source text. -/
def isSource : Fault → Bool
  | source _ => true
  | run _ => false

/-- The category of a fault. -/
def category : Fault → Category
  | source fault => fault.category
  | run fault => fault.category

/-- The message of a fault. -/
def message : Fault → String
  | source fault => fault.message
  | run fault => fault.message

end Fault

section Stages

variable {σ : Type} [Sink σ]

/-- Runs a program on a fresh machine: the sink afterwards, and the final stack, top first, or the
fault. -/
def Program.run (p : Program) (sink : σ) : σ × Except RunFault (List Operand) :=
  let (m, result) := (Machine.fresh sink).execute p
  (m.sink, result.map fun _ => m.stack)

/-- Assembles and runs a source text: the sink afterwards, and the final stack, top first, or the
faults. -/
def interpret (options : Options) (text : String) (sink : σ) :
    σ × Except (List Fault) (List Operand) :=
  match Program.assembleWith options text with
  | .error faults => (sink, .error (faults.map .source))
  | .ok p =>
    let (sink, result) := p.run sink
    (sink, result.mapError fun fault => [.run fault])

end Stages

/-! ## Verbosity -/

/-- How much is told. -/
inductive Verbosity where
  | off
  | error
  | warn
  | info
  | debug
  | trace
  deriving DecidableEq, Repr

namespace Verbosity

/-- All verbosities, in ascending order. -/
def all : List Verbosity := [off, error, warn, info, debug, trace]

/-- The place of a verbosity in the order. -/
def rank : Verbosity → Nat
  | off => 0
  | error => 1
  | warn => 2
  | info => 3
  | debug => 4
  | trace => 5

/-- The name of a verbosity. -/
def name : Verbosity → String
  | off => "off"
  | error => "error"
  | warn => "warn"
  | info => "info"
  | debug => "debug"
  | trace => "trace"

/-- The verbosity of a given name. -/
def ofName? (name : String) : Option Verbosity := all.find? fun v => v.name == name

/-- A verbosity as it heads a log line, in five columns. -/
def label (v : Verbosity) : String := String.ofList (v.name.toUpper.toList.leftpad 5 ' ')

end Verbosity

/-! ## Events -/

/-- Something worth telling. -/
inductive Event where
  | tokenized (count : Nat) (interactive : Bool)
  | parsed (policy : Policy) (instructions faults : Nat)
  | assembled (instructions : Nat)
  | executed (index : Nat) (instruction : Instruction) (depth : Nat)
  | exited (depth : Nat)
  | failed (index : Nat) (fault : RunFault)

/-- The name of a policy in the log. -/
def Policy.name : Policy → String
  | failFast => "FailFast"
  | collect => "Collect"

namespace Event

/-- The least verbosity at which an event is told. -/
def level : Event → Verbosity
  | assembled _ => .info
  | executed _ _ _ => .trace
  | _ => .debug

/-- The text of an event. -/
def text : Event → String
  | tokenized count interactive => s!"tokenized source count={count} interactive={interactive}"
  | parsed policy instructions faults =>
    s!"parsed program mode={policy.name} instructions={instructions} errors={faults}"
  | assembled instructions => s!"assembled instructions={instructions}"
  | executed index instruction depth =>
    s!"executed at={index} instruction={instruction.text} depth={depth}"
  | exited depth => s!"program exited depth={depth}"
  | failed index fault => s!"program failed at={index} err={fault.message}"

/-- The lines of the events that are told at a verbosity. -/
def lines (v : Verbosity) (events : List Event) : List String :=
  (events.filter fun e => e.level.rank ≤ v.rank).map fun e => e.level.label ++ " " ++ e.text

/-! ## Events of the stages -/

/-- The events of assembling a source text. -/
def ofAssembly (options : Options) (text : String) : List Event :=
  match Token.tokenize options.interactive text { policy := options.policy } with
  | .error _ => []
  | .ok (tokens, report) =>
    tokenized tokens.length options.interactive ::
      match Program.ofTokens tokens report with
      | .error _ => []
      | .ok (p, report) => [parsed options.policy p.length report.faults.length]

/-- The events of running a program on a machine. -/
def ofRun {σ : Type} [Sink σ] (m : Machine σ) (p : Program) : List Event :=
  let last := match m.runFrom 0 p with
    | (m, .ok _) => exited m.stack.length
    | (m, .error fault) => failed m.index fault
  (m.history 0 p).map (fun e => executed e.index e.instruction e.depth) ++ [last]

/-- The events of assembling and running a source text. -/
def ofInterpret {σ : Type} [Sink σ] (options : Options) (text : String) (sink : σ) :
    List Event :=
  ofAssembly options text ++
    match Program.assembleWith options text with
    | .error _ => []
    | .ok p => assembled p.length :: ofRun (Machine.fresh sink) p

end Event

end NumStack
