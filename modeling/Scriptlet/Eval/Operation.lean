import Scriptlet.Eval.Error
import Scriptlet.Value.Basic

/-!
# Operations on values

The operators, with both operands evaluated. A logical operator yields one of its operands and looks
at both, so neither side is skipped.

What builtins do is here too. A native function is a function of its arguments: it prints a text and
yields a value or an error. The embedding program gives one for each key it uses; `print` is always
there.
-/

namespace Scriptlet

/-! ## Operators -/

/-- The number a value is; `verb` says what it is needed for. -/
def Value.asNumber (v : Value) (verb : String) : Except RuntimeError Float :=
  match v with
  | .number x => .ok x
  | _ => .error (.typeMismatch (.notANumber verb v.type))

def literalValue (lexeme : String) : Except RuntimeError Value :=
  match Number.ofLiteral? lexeme with
  | some x => .ok (.number x)
  | none => .error (.typeMismatch (.notALiteral lexeme))

def UnaryOp.apply (op : UnaryOp) (v : Value) : Except RuntimeError Value :=
  match v with
  | .number x =>
    match op with
    | plus => .ok (.number x)
    | negate => .ok (.number (-x))
    | not => .ok (.boolean !v.isTruthy)
  | _ => .error (.typeMismatch (.operandNotNumber op v.type))

namespace BinaryOp

/-- Adds numbers, and joins the texts of anything else that is defined. -/
def applyAdd (a b : Value) : Except RuntimeError Value :=
  match a, b with
  | .undefined, _ | _, .undefined => .error (.typeMismatch .undefinedSum)
  | .number x, .number y => .ok (.number (x + y))
  | _, _ => .ok (.string (a.display ++ b.display))

def onNumbers (verb : String) (f : Float → Float → Value) (a b : Value) :
    Except RuntimeError Value := do
  let x ← a.asNumber verb
  let y ← b.asNumber verb
  return f x y

/-- The operands a logical operator takes. -/
def checkLogical (op : BinaryOp) (v : Value) : Except RuntimeError Unit :=
  match v with
  | .string _ | .number _ | .boolean _ => .ok ()
  | _ => .error (.typeMismatch (.illogical op v.type))

/-- Yields the left operand if `keepLeft` holds of it and the right one otherwise. -/
def applyLogical (op : BinaryOp) (keepLeft : Value → Bool) (a b : Value) :
    Except RuntimeError Value := do
  checkLogical op a
  checkLogical op b
  return if keepLeft a then a else b

/-- Applies a binary operator. Unequal is the negation of strict equality, not of the loose one. -/
def apply (op : BinaryOp) (a b : Value) : Except RuntimeError Value :=
  match op with
  | add => applyAdd a b
  | sub => onNumbers "subtract" (fun x y ↦ .number (x - y)) a b
  | mul => onNumbers "multiply" (fun x y ↦ .number (x * y)) a b
  | div => onNumbers "divide" (fun x y ↦ .number (x / y)) a b
  | less => onNumbers "compare" (fun x y ↦ .boolean (x < y)) a b
  | greater => onNumbers "compare" (fun x y ↦ .boolean (y < x)) a b
  | lessEqual => onNumbers "compare" (fun x y ↦ .boolean (x ≤ y)) a b
  | greaterEqual => onNumbers "compare" (fun x y ↦ .boolean (y ≤ x)) a b
  | equal => .ok (.boolean (a.looseEq b))
  | notEqual => .ok (.boolean !a.strictEq b)
  | or => applyLogical op (fun v ↦ v.isTruthy) a b
  | and => applyLogical op (fun v ↦ !v.isTruthy) a b

end BinaryOp

/-! ## Native functions -/

/-- The text that is printed, and the result. -/
abbrev NativeResult := String × Except RuntimeError Value

/-- The native functions of the embedding program, by key. They depend on their arguments only and
reach no scope. -/
abbrev Host := String → List Value → NativeResult

/-- Prints the text of its only argument and a line end. -/
def printLine : List Value → NativeResult
  | [v] => (v.display ++ "\n", .ok .undefined)
  | args => ("", .error (.arityMismatch "print" 1 args.length))

def Native.run (host : Host) : Native → List Value → NativeResult
  | print => printLine
  | .host key => host key

/-- Calls a builtin, if the number of arguments is right. -/
def Builtin.invoke (host : Host) (f : Builtin) (args : List Value) : NativeResult :=
  if args.length = f.arity then f.native.run host args
  else ("", .error (.arityMismatch f.name f.arity args.length))

namespace Host

/-- The host that offers nothing: every key fails. -/
def none : Host := fun key _ ↦ ("", .error (.undefinedName key))

/-- A few natives for embedding programs: `undefined` ignores its arguments, `first` yields the
first one, `join` the texts of all with a bar between them, `double` twice a number, and `fail`
reports how many there are. -/
def stock : Host := fun key args ↦
  match key with
  | "undefined" => ("", .ok .undefined)
  | "first" => ("", .ok (args.head?.getD .undefined))
  | "join" => ("", .ok (.string ("|".intercalate (args.map Value.display))))
  | "double" =>
    ("", ((args.head?.getD .undefined).asNumber "double").map fun x ↦ .number (x * 2.0))
  | "fail" =>
    ("", .error (.typeMismatch
      (.reported ("host failure after " ++ toString args.length ++ " arguments"))))
  | _ => none key args

end Host

end Scriptlet
