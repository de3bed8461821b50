import NumStack.Pipeline
import NumStack.Session

/-!
# Command line

The arguments make up a request: to run a source text, to check it, to print its canonical listing,
or to explain the usage. Carrying out a request gives an exit status and what is written to the
standard output and error. The status is 0 for success, 1 for a fault of the arguments or the input,
2 for faults of the source text, and 3 for a fault of the run.
-/

namespace NumStack

/-! ## Requests -/

/-- Where a source text comes from. -/
inductive Input where
  | file (path : String)
  | standard
  deriving DecidableEq, Repr

/-- Arguments that make up no request. -/
inductive UsageFault where
  | unknownFlag (flag : String)
  | severalFiles
  | notOneFile (command : String)
  deriving DecidableEq, Repr

/-- What the command line asks for. -/
inductive Request where
  | help
  | run (policy : Policy) (verbose : Bool) (input : Input)
  | check (path : String)
  | format (path : String)
  | refused (fault : UsageFault)
  deriving DecidableEq, Repr

namespace Request

/-- The request to run with the given arguments, read in order; `path?` is the file named so far. -/
def ofRunArgs (policy : Policy) (verbose : Bool) (path? : Option String) : List String → Request
  | [] => run policy verbose (match path? with
    | some path => .file path
    | none => .standard)
  | arg :: rest =>
    if arg = "--collect" then ofRunArgs .collect verbose path? rest
    else if arg = "--verbose" then ofRunArgs policy true path? rest
    else if arg.toList.head? = some '-' then refused (.unknownFlag arg)
    else if path?.isSome then refused .severalFiles
    else ofRunArgs policy verbose (some arg) rest

/-- The request of a command that takes one file. -/
def ofSingle (command : String) (request : String → Request) : List String → Request
  | [path] => request path
  | _ => refused (.notOneFile command)

/-- The request of the arguments. Without a command word they are arguments of `run`. -/
def ofArgs : List String → Request
  | [] => ofRunArgs .failFast false none []
  | command :: rest =>
    if command = "run" then ofRunArgs .failFast false none rest
    else if command = "check" then ofSingle "check" check rest
    else if command = "fmt" then ofSingle "fmt" format rest
    else if command = "--help" ∨ command = "-h" ∨ command = "help" then help
    else ofRunArgs .failFast false none (command :: rest)

/-- The input that a request needs. -/
def input? : Request → Option Input
  | run _ _ input => some input
  | check path | format path => some (.file path)
  | help | refused _ => none

end Request

/-! ## Texts -/

/-- The lines that explain the usage. -/
def usage : List String :=
  ["Usage: avm [command] [args]",
    "",
    "Commands:",
    "  run [--collect] [--verbose] [FILE]   Run FILE, or stdin until ';;' (default)",
    "  check <FILE>                         Report every assembly error in FILE",
    "  fmt <FILE>                           Print the canonical listing of FILE",
    "",
    "Set RUST_LOG to control log output on stderr."]

/-- The lines that a usage fault writes. -/
def UsageFault.lines : UsageFault → List String
  | unknownFlag flag =>
    [s!"error: unknown flag '{flag}'", "Usage: avm run [--collect] [--verbose] [FILE]"]
  | severalFiles => ["error: run takes at most one input file"]
  | notOneFile command =>
    [s!"error: {command} requires exactly one input file", s!"Usage: avm {command} <FILE>"]

/-- Why an input cannot be read. -/
inductive ReadFault where
  | notFound
  | isDirectory
  | invalidText
  | other (reason : String)
  deriving DecidableEq, Repr

/-- The reason of a read fault. -/
def ReadFault.reason : ReadFault → String
  | notFound => "No such file or directory (os error 2)"
  | isDirectory => "Is a directory (os error 21)"
  | invalidText => "stream did not contain valid UTF-8"
  | other reason => reason

/-- The line for an input that cannot be read. -/
def Input.faultLine (input : Input) (fault : ReadFault) : String :=
  match input with
  | .file path => s!"error: cannot read '{path}': {fault.reason}"
  | .standard => s!"error: cannot read stdin: {fault.reason}"

/-- The lines written before an input is read. -/
def Request.greeting : Request → List String
  | .run _ _ .standard => ["reading from stdin, end with ';;'"]
  | _ => []

/-! ## Outcomes -/

/-- What carrying out a request leaves behind: the exit status, the bytes on standard output and the
lines on standard error. -/
structure Outcome where
  status : Nat := 0
  stdout : List UInt8 := []
  stderr : List String := []
  deriving DecidableEq, Repr

/-- The source text of an input: a file is taken as a whole, the standard input up to the terminator
line. -/
def Input.decode (input : Input) (contents : Except ReadFault (List UInt8)) :
    Except ReadFault String := do
  let bytes ← contents
  let text? := match input with
    | .file _ => Utf8.decode? bytes
    | .standard => (Session.read? bytes).map Prod.fst
  match text? with
  | some cs => return String.ofList cs
  | none => throw .invalidText

/-- The exit status for the faults of a source text or its run, which the first one decides. -/
def Fault.status (faults : List Fault) : Nat := if faults.head?.all Fault.isSource then 2 else 3

/-- A fault as a line on standard error. -/
def faultLine (message : String) : String := s!"error: {message}"

namespace Outcome

/-- Runs a source text. -/
def ofRun (options : Options) (verbosity : Verbosity) (text : String) : Outcome :=
  let sink : Buffer := {}
  let log := Event.lines verbosity (Event.ofInterpret options text sink)
  match interpret options text sink with
  | (sink, .ok _) => ⟨0, sink.written.toList, log⟩
  | (sink, .error faults) =>
    ⟨Fault.status faults, sink.written.toList, log ++ faults.map fun e => faultLine e.message⟩

/-- Checks a source text and lists all its faults. -/
def ofCheck (path : String) (verbosity : Verbosity) (text : String) : Outcome :=
  let options : Options := { policy := .collect }
  let log := Event.lines verbosity (Event.ofAssembly options text)
  match Program.assembleWith options text with
  | .ok p => ⟨0, Utf8.encode (s!"OK: {path} ({p.length} instructions)\n").toList, log⟩
  | .error faults =>
    let lines := faults.map fun e => faultLine e.message
    ⟨2, [], log ++ lines ++ [s!"{faults.length} error(s) in {path}"]⟩

/-- Prints the canonical listing of a source text. -/
def ofFormat (verbosity : Verbosity) (text : String) : Outcome :=
  let log := Event.lines verbosity (Event.ofAssembly {} text)
  match Program.assemble text with
  | .ok p => ⟨0, Utf8.encode p.listing.toList, log⟩
  | .error fault => ⟨2, [], log ++ [faultLine fault.message]⟩

/-- Works on the text of an input, if it can be read. -/
def withText (input : Input) (contents : Except ReadFault (List UInt8)) (work : String → Outcome) :
    Outcome :=
  match input.decode contents with
  | .ok text => work text
  | .error fault => ⟨1, [], [input.faultLine fault]⟩

end Outcome

/-- Carries out a request, given the contents of the input that it needs. -/
def Request.perform (request : Request) (contents : Except ReadFault (List UInt8))
    (verbosity : Verbosity) : Outcome :=
  match request with
  | .help => ⟨0, [], usage⟩
  | .refused fault => ⟨1, [], fault.lines⟩
  | .run policy verbose input =>
    .withText input contents
      (.ofRun ⟨policy, input = .standard⟩ (if verbose then .trace else verbosity))
  | .check path => .withText (.file path) contents (.ofCheck path verbosity)
  | .format path => .withText (.file path) contents (.ofFormat verbosity)

/-! ## The whole command line -/

/-- What the command line works in: the files by name, the standard input, and how much is told in
the log. -/
structure Environment where
  file : String → Except ReadFault (List UInt8)
  stdin : List UInt8
  verbosity : Verbosity := .warn

/-- The contents of an input. -/
def Environment.contents (env : Environment) : Option Input → Except ReadFault (List UInt8)
  | some (.file path) => env.file path
  | some .standard | none => .ok env.stdin

/-- Carries out the arguments in an environment. -/
def Environment.execute (env : Environment) (args : List String) : Outcome :=
  let request := Request.ofArgs args
  let outcome := request.perform (env.contents request.input?) env.verbosity
  { outcome with stderr := request.greeting ++ outcome.stderr }

end NumStack
