import Scriptlet.CommandLine.Run

/-!
# The executable

The outer layer: it reads files and lines, writes texts, and leaves all else to
`Scriptlet.CommandLine`. The interactive loop is driven line by line here, so that each answer is
shown before the next line is read.
-/

namespace Scriptlet.CommandLine

def readFile (path : String) : IO (Except ReadError String) := do
  try
    match String.fromUTF8? (← IO.FS.readBinFile path) with
    | some text => return .ok text
    | none => return .error .notText
  catch
    | .noFileOrDirectory .. => return .error .notFound
    | .inappropriateType _ 21 _ => return .error .isDirectory
    | .inappropriateType .. => return .error .notADirectory
    | e => return .error (.system (toString e))

/-- Reads a line with its end; at the end of the input it is empty. -/
partial def readLine (input : IO.FS.Stream) : IO (List UInt8) := do
  let rec go (line : List UInt8) : IO (List UInt8) := do
    match (← input.read 1).toList with
    | [] => return line.reverse
    | b :: _ => if b = 10 then return (b :: line).reverse else go (b :: line)
  go []

def write (output : IO.FS.Stream) (text : String) : IO Unit := do
  output.putStr text
  output.flush

partial def interact (input output errors : IO.FS.Stream) (s : Session) : IO Repl.Ending := do
  write output Event.prompt.shown
  let line ← readLine input
  if line.isEmpty then return .finished
  let result := Repl.runLine .none defaultDepth s line
  write output (Event.textOf Event.shown result.events)
  write errors (Event.textOf Event.errors result.events)
  match result.ending with
  | some ending => return ending
  | none => interact input output errors result.session

/-- Gives up a run that does not end. The code is that of an aborted process. -/
def giveUp (errors : IO.FS.Stream) : IO UInt32 := do
  write errors (RunError.tooDeep.message ++ "\n")
  return 134

def runProcess (args : List String) : IO UInt32 := do
  let input ← IO.getStdin
  let output ← IO.getStdout
  let errors ← IO.getStderr
  match request? args with
  | some .interactive =>
    match ← interact input output errors Session.initial with
    | .finished => return 0
    | .invalidLine =>
      write errors (Repl.invalidText ++ "\n")
      return 1
    | .endless => giveUp errors
  | request =>
    let content ← match request with
      | some (.file path _) => readFile path
      | _ => pure (.error .notFound)
    let exit := run defaultDepth (fun _ ↦ content) args []
    write output exit.stdout
    write errors exit.stderr
    match exit.code with
    | some code => return UInt32.ofNat code
    | none => giveUp errors

end Scriptlet.CommandLine

def main (args : List String) : IO UInt32 := Scriptlet.CommandLine.runProcess args
