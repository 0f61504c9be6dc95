import Scriptlet.Eval.Operation
import Scriptlet.Scope

/-!
# Evaluation

Evaluation reads and changes a world: the scope and the text printed so far. What it has done to the
world stays when it fails.

Expressions and statements are evaluated by recursion on the tree. Calls of script functions leave
the tree, so they go through a parameter, and `callWithin` ties the knot: its first argument is the
number of calls that may still be nested. Running out of it is not an error of the script, and a
larger number never changes an evaluation that does not run out (`Eval.Extends`).

A conditional chain is a run of neighbouring branch statements. The evaluation of a statement list
carries along whether a branch of the current chain has been taken.
-/

namespace Scriptlet

/-- What evaluation works on. -/
structure World where
  scope : Scope
  /-- All text printed so far. -/
  printed : String := ""

/-- Why an evaluation stops early. -/
inductive Halt where
  | error (e : RuntimeError)
  /-- More calls are nested than allowed. -/
  | tooDeep
deriving DecidableEq, Repr

/-- Evaluations; the world is kept when one stops early. -/
abbrev EvalM := EStateM Halt World

/-- How a statement ends. -/
inductive Completion where
  | normal
  | returned (v : Value)

/-- The value of a function body that ends this way. -/
def Completion.value : Completion → Value
  | normal => .undefined
  | returned v => v

namespace Eval

/-! ## Effects -/

def fail {α : Type} (e : RuntimeError) : EvalM α := throw (.error e)

def ofExcept {α : Type} : Except RuntimeError α → EvalM α
  | .ok a => pure a
  | .error e => fail e

def lookup (name : String) : EvalM Value := do
  match (← get).scope.resolve name with
  | some v => return v
  | none => fail (.undefinedName name)

def define (name : String) (v : Value) : EvalM Unit :=
  modify fun w ↦ { w with scope := w.scope.define name v }

def isDefined (name : String) : EvalM Bool := do return (← get).scope.isDefined name

def assign (name : String) (v : Value) : EvalM Unit := do
  match (← get).scope.assign? name v with
  | some scope => modify fun w ↦ { w with scope }
  | none => fail (.undefinedName name)

/-- Takes over what a native function printed, and its result. -/
def ofNative (r : NativeResult) : EvalM Value := do
  modify fun w ↦ { w with printed := w.printed ++ r.1 }
  ofExcept r.2

/-- Evaluates inside a new innermost frame, which is dropped at the end, also after a failure. -/
def within {α : Type} (frame : Frame) (body : EvalM α) : EvalM α := fun w ↦
  match body.run { w with scope := w.scope.push frame } with
  | .ok a w => .ok a { w with scope := w.scope.pop }
  | .error e w => .error e { w with scope := w.scope.pop }

/-! ## Expressions -/

section Calls

variable (host : Host) (call : UserFunction → List Value → EvalM Value)

mutual

/-- Evaluates an expression. Both operands of an operator are always evaluated, the left one first.
A unary operator applies to number literals only. The arguments of a script function are evaluated
only if their number is right, those of a builtin in any case. -/
def expr : Expr → EvalM Value
  | .number lexeme => ofExcept (literalValue lexeme)
  | .string content => return .string content
  | .boolean b => return .boolean b
  | .name name => lookup name
  | .unary op operand =>
    match operand with
    | .number lexeme => do ofExcept (op.apply (← ofExcept (literalValue lexeme)))
    | _ => fail (.typeMismatch (.operandNotLiteral op))
  | .binary op left right => do
    let a ← expr left
    let b ← expr right
    ofExcept (op.apply a b)
  | .call callee arguments => do
    match ← lookup callee with
    | .builtin f =>
      let args ← exprs arguments
      ofNative (f.invoke host args)
    | .function f =>
      if arguments.length = f.params.length then
        let args ← exprs arguments
        call f args
      else fail (.arityMismatch f.name f.params.length arguments.length)
    | v => fail (.notCallable callee v.type)

/-- Evaluates expressions from left to right. -/
def exprs : List Expr → EvalM (List Value)
  | [] => return []
  | e :: rest => do
    let v ← expr e
    let vs ← exprs rest
    return v :: vs

end

/-! ## Statements -/

mutual

/-- Evaluates a statement. `taken` says whether a branch of the chain before it has been taken; the
second part of the result says so of the chain that includes it. Branches are told apart from all
other statements here, so that a further case for them among the others, which would hand them back,
is unreachable and left out. -/
def statement (taken : Bool) : Statement Nat → EvalM (Completion × Bool)
  | .declare name value => do
    let v ← expr host call value
    if ← isDefined name then fail (.redefinition name)
    else
      define name v
      return (.normal, false)
  | .assign name value => do
    let v ← expr host call value
    assign name v
    return (.normal, false)
  | .ifBranch condition body => do
    let holds := (← expr host call condition).isTruthy
    if holds then return (← statements false body, true) else return (.normal, false)
  | .elifBranch condition body => do
    if taken then return (.normal, true)
    else
      let holds := (← expr host call condition).isTruthy
      if holds then return (← statements false body, true) else return (.normal, false)
  | .elseBranch body => do
    if taken then return (.normal, false) else return (← statements false body, false)
  | .returns value => do
    let v ← expr host call value
    if v.isCallable then fail (.illegalReturn v.type) else return (.returned v, false)
  | .function tag name params body => do
    if ← isDefined name then return (.normal, false)
    else
      define name (.function { tag, name, params, body })
      return (.normal, false)
  | .block body => do return (← statements false body, false)
  | .expression value => do
    let _ ← expr host call value
    return (.normal, false)

/-- Evaluates statements in order up to the first that returns. -/
def statements (taken : Bool) : List (Statement Nat) → EvalM Completion
  | [] => return .normal
  | s :: rest => do
    match ← statement taken s with
    | (.returned v, _) => return .returned v
    | (.normal, taken) => statements taken rest

end

end Calls

/-! ## Calls -/

/-- Calls a script function with at most `depth` calls nested, this one included. The body sees the
parameters and, around them, whatever is visible at the call. -/
def callWithin (host : Host) : Nat → UserFunction → List Value → EvalM Value
  | 0, _, _ => throw .tooDeep
  | depth + 1, f, args =>
    within (.ofPairs (f.params.zip args)) do
      return (← statements host (callWithin host depth) false f.body).value

variable (host : Host) (depth : Nat)

/-- Evaluates an expression with at most `depth` calls nested. -/
def expression (e : Expr) : EvalM Value := expr host (callWithin host depth) e

/-- Evaluates statements as a block of their own. -/
def block (body : List (Statement Nat)) : EvalM Completion :=
  statements host (callWithin host depth) false body

/-- Evaluates a statement that follows no other. -/
def single (s : Statement Nat) : EvalM Completion := do
  return (← statement host (callWithin host depth) false s).1

/-- Evaluates a program: its value is that of the first `return` that is reached at top level. -/
def program (p : List (Statement Nat)) : EvalM (Option Value) := do
  match ← block host depth p with
  | .normal => return none
  | .returned v => return some v

end Eval

end Scriptlet
