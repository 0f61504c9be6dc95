/-!
# Command-line arguments

The arguments are read from left to right, and the first thing that is wrong or that asks for the
version ends the reading. Only the clash of a file with a script is found at the end.

Options are `-q`, `--quiet`, `-f PATH`, `--file PATH`, `-V` and `--version`. Short ones can be
joined, a path can be attached with or without `=`, and `--` makes the rest positional. A lone dash
is positional, and so is anything that does not start with one.
-/

namespace Scriptlet.CommandLine

/-- What the arguments ask for. -/
inductive Request where
  /-- The interactive loop. -/
  | interactive
  | script (source : String) (quiet : Bool)
  | file (path : String) (quiet : Bool)
  | version
deriving DecidableEq, Repr

/-- What has been read so far. -/
structure Options where
  quiet : Bool := false
  file : Option String := none
  script : Option String := none
deriving DecidableEq, Repr

/-- Why the reading ends early. -/
inductive Stop where
  /-- The version is asked for. -/
  | version
  /-- The arguments make no sense. -/
  | usage
deriving DecidableEq, Repr

namespace Options

/-- Takes the quiet option, at most once. -/
def setQuiet (o : Options) : Except Stop Options :=
  if o.quiet then .error .usage else .ok { o with quiet := true }

/-- Takes a path, which is not empty, at most once. -/
def setFile (o : Options) (path : String) : Except Stop Options :=
  if path = "" || o.file.isSome then .error .usage else .ok { o with file := some path }

/-- Takes a positional argument, of which there is at most one. -/
def setScript (o : Options) (source : String) : Except Stop Options :=
  if o.script.isSome then .error .usage else .ok { o with script := some source }

/-- Reads joined short options; the second part says whether a path has to follow. -/
def short (o : Options) : List Char → Except Stop (Options × Bool)
  | [] => .ok (o, false)
  | 'q' :: rest => do short (← o.setQuiet) rest
  | 'V' :: _ => .error .version
  | 'f' :: [] => .ok (o, true)
  | 'f' :: '=' :: path => do return (← o.setFile (String.ofList path), false)
  | 'f' :: path => do return (← o.setFile (String.ofList path), false)
  | _ :: _ => .error .usage

/-- Reads a long option, given as its name and what follows `=`; the second part says whether a path
has to follow. -/
def long (o : Options) (name : String) (attached : Option String) :
    Except Stop (Options × Bool) :=
  match name, attached with
  | "quiet", none => do return (← o.setQuiet, false)
  | "version", none => .error .version
  | "file", none => .ok (o, true)
  | "file", some path => do return (← o.setFile path, false)
  | _, _ => .error .usage

def positional (o : Options) : List String → Except Stop Options
  | [] => .ok o
  | arg :: rest => do positional (← o.setScript arg) rest

/-- Splits a text at the first `=`. -/
def splitAttached (text : List Char) : String × Option String :=
  (String.ofList (text.takeWhile (· ≠ '=')),
    match text.dropWhile (· ≠ '=') with
    | [] => none
    | _ :: rest => some (String.ofList rest))

/-- Whether an argument is one or more options, or the mark that ends them. -/
def isOption (arg : String) : Bool :=
  match arg.toList with
  | '-' :: _ :: _ => true
  | _ => false

/-- Reads the options in one argument; `none` if it is positional. -/
def one? (o : Options) (arg : String) : Option (Except Stop (Options × Bool)) :=
  match arg.toList with
  | '-' :: '-' :: name =>
    let (name, attached) := splitAttached name
    some (o.long name attached)
  | '-' :: c :: rest => some (o.short (c :: rest))
  | _ => none

def read (o : Options) : List String → Except Stop Options
  | [] => .ok o
  | "--" :: rest => o.positional rest
  | arg :: rest =>
    match o.one? arg with
    | none => do read (← o.setScript arg) rest
    | some (.error e) => .error e
    | some (.ok (o, false)) => read o rest
    | some (.ok (o, true)) =>
      match rest with
      | [] => .error .usage
      | path :: rest => if isOption path then .error .usage else do read (← o.setFile path) rest

end Options

/-- What the arguments ask for; `none` if they make no sense. -/
def request? (args : List String) : Option Request :=
  match ({} : Options).read args with
  | .error .version => some .version
  | .error .usage => none
  | .ok o =>
    match o.file, o.script with
    | some _, some _ => none
    | some path, none => some (.file path o.quiet)
    | none, some source => some (.script source o.quiet)
    | none, none => some .interactive

end Scriptlet.CommandLine
