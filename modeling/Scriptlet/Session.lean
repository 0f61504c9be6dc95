import Scriptlet.Eval.Basic
import Scriptlet.Parse.Program
import Scriptlet.Token.Scan

/-!
# Sessions

A session runs one source text after another in one scope. It also hands out the tags that tell
functions apart, so that no two programs, builtins or runs share one.
-/

namespace Scriptlet

/-- Why running a source text gives no result. -/
inductive RunError where
  | scan (e : ScanError)
  | parse (e : ParseError)
  | runtime (e : RuntimeError)
  /-- More calls are nested than allowed. The text is not at fault, and its run has not ended. -/
  | tooDeep
deriving DecidableEq, Repr

/-- The message for a failed run, or for one that is given up. -/
def RunError.message : RunError → String
  | scan e => e.message
  | parse e => e.message
  | runtime e => e.message
  | tooDeep => "Calls are nested too deeply."

/-- The scope that source texts run in, and the first tag that is still free. -/
structure Session where
  scope : Scope := default
  nextTag : Nat := 0

instance : Inhabited Session := ⟨{}⟩

/-- What an evaluation gives: the text it printed, and its result. -/
structure Report (α : Type) where
  printed : String
  result : Except RunError α

/-- Whether the evaluation came to an end, with a result or with an error of the script. One that
lacks calls did not, and what it printed is the text so far. -/
def Report.ends {α : Type} (r : Report α) : Bool :=
  match r.result with
  | .error .tooDeep => false
  | .error _ | .ok _ => true

namespace Session

def evaluate {α : Type} (s : Session) (act : EvalM α) : Session × Report α :=
  match act.run { scope := s.scope } with
  | .ok a w => ({ s with scope := w.scope }, ⟨w.printed, .ok a⟩)
  | .error (.error e) w => ({ s with scope := w.scope }, ⟨w.printed, .error (.runtime e)⟩)
  | .error .tooDeep w => ({ s with scope := w.scope }, ⟨w.printed, .error .tooDeep⟩)

/-- Gives the functions of a tree tags of their own. -/
def load (s : Session) (p : Program) : Session × List (Statement Nat) :=
  let (numbered, next) := Statement.numberAllFrom s.nextTag p
  ({ s with nextTag := next }, numbered)

def runProgram (host : Host) (depth : Nat) (s : Session) (p : Program) :
    Session × Report (Option Value) :=
  let (s, numbered) := s.load p
  s.evaluate (Eval.program host depth numbered)

def compile (source : String) : Except RunError Program :=
  match tokenize source with
  | .error e => .error (.scan e)
  | .ok tokens =>
    match parse tokens with
    | .error e => .error (.parse e)
    | .ok p => .ok p

/-- Runs a source text. Nothing is evaluated unless all of it can be read. -/
def run (host : Host) (depth : Nat) (s : Session) (source : String) :
    Session × Report (Option Value) :=
  match compile source with
  | .error e => (s, ⟨"", .error e⟩)
  | .ok p => s.runProgram host depth p

/-- Binds a new builtin under its name in the innermost frame. -/
def defineBuiltin (s : Session) (name : String) (arity : Nat) (native : Native) : Session where
  scope := s.scope.define name (.builtin ⟨s.nextTag, name, arity, native⟩)
  nextTag := s.nextTag + 1

def definePrint (s : Session) : Session := s.defineBuiltin "print" 1 .print

/-- The session in which `print` is the only name. -/
def initial : Session := definePrint {}

end Session

end Scriptlet
