import NumStack.Command

/-!
# The program

Reads the input that the arguments ask for, and writes what carrying them out gives.
-/

namespace NumStack

/-- Reads one line of a stream, with its line feed if it has one. -/
partial def readLineBytes (stream : IO.FS.Stream) (line : List UInt8) : IO (List UInt8) := do
  let chunk ← stream.read 1
  match chunk.toList with
  | [] => return line.reverse
  | b :: _ =>
    if b = Session.lineFeed then return (b :: line).reverse
    else readLineBytes stream (b :: line)

/-- Reads a stream up to the terminator line of a session. -/
partial def readSessionBytes (stream : IO.FS.Stream) (lines : List (List UInt8)) :
    IO (List UInt8) := do
  let line ← readLineBytes stream []
  let lines := line :: lines
  let ends := match Session.decodeLine? line with
    | some cs => Session.endsInput cs
    | none => true
  if line.isEmpty || ends then return lines.reverse.flatten else readSessionBytes stream lines

/-- Reads an input. -/
def readInput (input : Option Input) : IO (Except ReadFault (List UInt8)) := do
  match input with
  | none => return .ok []
  | some .standard => return .ok (← readSessionBytes (← IO.getStdin) [])
  | some (.file path) =>
    try
      return .ok (← IO.FS.readBinFile path).toList
    catch e =>
      match e with
      | .noFileOrDirectory .. => return .error .notFound
      | .inappropriateType .. => return .error .isDirectory
      | e => return .error (.other (toString e))

/-- Writes lines to standard error. -/
def writeLines (lines : List String) : IO Unit := do
  let stderr ← IO.getStderr
  for line in lines do
    stderr.putStrLn line

end NumStack

open NumStack in
/-- Carries out the arguments. -/
def main (args : List String) : IO UInt32 := do
  let request := Request.ofArgs args
  writeLines request.greeting
  let contents ← readInput request.input?
  let verbosity := ((← IO.getEnv "RUST_LOG").bind Verbosity.ofName?).getD .warn
  let outcome := request.perform contents verbosity
  let stdout ← IO.getStdout
  stdout.write (ByteArray.mk outcome.stdout.toArray)
  stdout.flush
  writeLines outcome.stderr
  return outcome.status.toUInt32
