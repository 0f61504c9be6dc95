import Scriptlet.Session

/-!
# The interactive loop

The loop shows a prompt, reads a line and runs it, until the input ends. The input is a list of
bytes, cut after each line end; a line that is not valid UTF-8 stops the loop. Lines that fail do
not, but the loop comes no further than a line whose run does not end.

What happens is recorded as a list of events. The loop writes prompts and values to its output and
messages to its errors, while printed text goes elsewhere, so the three channels are views of one
list and their order can be told.
-/

namespace Scriptlet

/-- What a user sees of the loop. -/
inductive Event where
  | prompt
  /-- A line wrote this text by `print`. -/
  | printed (text : String)
  /-- A line returned a value with this text. -/
  | value (text : String)
  /-- A line failed with this message. -/
  | failure (message : String)
deriving DecidableEq, Repr

namespace Event

def promptText : String := ">> "

def output : Event → String
  | prompt => promptText
  | value text => text ++ "\n"
  | printed _ | failure _ => ""

def errors : Event → String
  | failure message => message ++ "\n"
  | prompt | printed _ | value _ => ""

def print : Event → String
  | printed text => text
  | prompt | value _ | failure _ => ""

/-- What a terminal shows of output and printed text. -/
def shown (e : Event) : String := e.output ++ e.print

/-- A view of a list of events: the texts one after another. -/
def textOf (view : Event → String) (events : List Event) : String :=
  String.join (events.map view)

/-- The events of one line. A run that has not ended has printed some text and given nothing
else. -/
def ofReport (r : Report (Option Value)) : List Event :=
  [printed r.printed] ++ match r.result with
    | .ok (some v) => [value v.display]
    | .ok none | .error .tooDeep => []
    | .error e => [failure e.message]

end Event

namespace Repl

/-- Cuts a text after each line end. -/
def splitLines : List UInt8 → List (List UInt8)
  | [] => []
  | b :: rest =>
    if b = 10 then [b] :: splitLines rest
    else match splitLines rest with
      | [] => [[b]]
      | line :: lines => (b :: line) :: lines

/-- The text of a line, if it is valid UTF-8. -/
def decode? (line : List UInt8) : Option String := String.fromUTF8? ⟨line.toArray⟩

inductive Ending where
  /-- The input is over. -/
  | finished
  /-- A line is not valid UTF-8. -/
  | invalidLine
  /-- The run of a line does not end, and neither does the loop. -/
  | endless
deriving DecidableEq, Repr

/-- What a run of the loop leaves behind. -/
structure Transcript where
  events : List Event
  session : Session
  ending : Ending

/-- What is left behind by a line, and how the loop ends, unless it goes on. -/
structure LineResult where
  events : List Event := []
  session : Session
  ending : Option Ending

def runLine (host : Host) (depth : Nat) (s : Session) (line : List UInt8) : LineResult :=
  match decode? line with
  | none => { session := s, ending := some .invalidLine }
  | some text =>
    let (next, report) := s.run host depth text
    ⟨Event.ofReport report, next, if report.ends then none else some .endless⟩

def runLines (host : Host) (depth : Nat) (s : Session) : List (List UInt8) → Transcript
  | [] => ⟨[.prompt], s, .finished⟩
  | line :: rest =>
    let result := runLine host depth s line
    match result.ending with
    | some ending => ⟨.prompt :: result.events, result.session, ending⟩
    | none =>
      let later := runLines host depth result.session rest
      { later with events := .prompt :: result.events ++ later.events }

def run (host : Host) (depth : Nat) (s : Session) (input : List UInt8) : Transcript :=
  runLines host depth s (splitLines input)

def invalidText : String := "stream did not contain valid UTF-8"

end Repl

end Scriptlet
