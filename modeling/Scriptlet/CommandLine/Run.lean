import Scriptlet.CommandLine.Arguments
import Scriptlet.Repl

/-!
# The program

What the program writes and the code it exits with, given its arguments, its input and a way to read
files. A script or file that returns a value shows it unless the program is quiet; one that fails
shows its message and exits with one. Arguments that make no sense exit with two. A run that does
not end exits with no code at all.
-/

namespace Scriptlet.CommandLine

/-- Why a file cannot be read. -/
inductive ReadError where
  | notFound
  | isDirectory
  | notADirectory
  | notText
  /-- Any other reason, in the words of the system. -/
  | system (reason : String)
deriving DecidableEq, Repr

def ReadError.reason : ReadError → String
  | notFound => "No such file or directory (os error 2)"
  | isDirectory => "Is a directory (os error 21)"
  | notADirectory => "Not a directory (os error 20)"
  | notText => Repl.invalidText
  | system reason => reason

/-- What a run of the program leaves behind. There is no code if a run does not end; the texts are
then those written so far. -/
structure Exit where
  code : Option Nat
  stdout : String := ""
  stderr : String := ""
deriving DecidableEq, Repr

def versionLine : String := "sprout 0.1.0\n"

def usageLine : String := "Usage: sprout [-q] [-f <FILE> | <SCRIPT>]\n"

/-- How deep calls may nest when nobody says otherwise. -/
def defaultDepth : Nat := 20000

def runSource (depth : Nat) (quiet : Bool) (source : String) : Exit :=
  let report := (Session.initial.run .none depth source).2
  match report.result with
  | .error .tooDeep => ⟨none, report.printed, ""⟩
  | .error e => ⟨some 1, report.printed, e.message ++ "\n"⟩
  | .ok none => ⟨some 0, report.printed, ""⟩
  | .ok (some v) => ⟨some 0, report.printed ++ if quiet then "" else v.display ++ "\n", ""⟩

def runInteractive (depth : Nat) (input : List UInt8) : Exit :=
  let t := Repl.run .none depth Session.initial input
  let shown := Event.textOf Event.shown t.events
  let errors := Event.textOf Event.errors t.events
  match t.ending with
  | .finished => ⟨some 0, shown, errors⟩
  | .invalidLine => ⟨some 1, shown, errors ++ Repl.invalidText ++ "\n"⟩
  | .endless => ⟨none, shown, errors⟩

/-- Runs the program with at most `depth` calls nested. -/
def run (depth : Nat) (readFile : String → Except ReadError String) (args : List String)
    (input : List UInt8) : Exit :=
  match request? args with
  | none => ⟨some 2, "", usageLine⟩
  | some .version => ⟨some 0, versionLine, ""⟩
  | some .interactive => runInteractive depth input
  | some (.script source quiet) => runSource depth quiet source
  | some (.file path quiet) =>
    match readFile path with
    | .ok source => runSource depth quiet source
    | .error e =>
      ⟨some 1, "", "Failed to read the input file '" ++ path ++ "': " ++ e.reason ++ "\n"⟩

/-! ## Directories in memory

A directory given by the paths of its files and their contents, for running the program without a
file system. Paths are taken relative to it; doubled slashes and single dots do not matter, and a
path that leads out of it finds directories only. -/

/-- A directory: the path of each file below it, with its content. -/
structure Directory where
  files : List (String × String) := []

namespace Directory

/-- The names along a path, single dots dropped. -/
def segments (path : String) : List String :=
  (path.splitOn "/").filter fun name ↦ name ≠ "" && name ≠ "."

/-- Whether a path insists on being a directory. -/
def wantsDirectory (path : String) : Bool :=
  match (path.splitOn "/").getLast? with
  | some last => last = "" || last = "."
  | none => true

/-- Whether some file lies below a directory of the given name. -/
def hasFolder (d : Directory) (path : List String) : Bool :=
  d.files.any fun f ↦ path <+: segments f.1 && path ≠ segments f.1

def file? (d : Directory) (path : List String) : Option String :=
  (d.files.find? fun f ↦ segments f.1 = path).map (·.2)

def read (d : Directory) (path : String) : Except ReadError String :=
  let names := segments path
  let passesFile := (List.range names.length).any fun n ↦ (d.file? (names.take n)).isSome
  if names.all (· = "..") then .error .isDirectory
  else if path.toList.head? = some '/' then .error .notFound
  else match d.file? names with
    | some content => if wantsDirectory path then .error .notADirectory else .ok content
    | none =>
      if d.hasFolder names then .error .isDirectory
      else if passesFile then .error .notADirectory
      else .error .notFound

end Directory

end Scriptlet.CommandLine
