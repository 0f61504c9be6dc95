import Scriptlet.Value.Basic

/-!
# Runtime errors

Why an evaluation fails. The wording is in `RuntimeError.message` and `TypeError.details`.
-/

namespace Scriptlet

/-- Why an operation does not apply to its operands. -/
inductive TypeError where
  /-- The text of a number expression is no number literal. -/
  | notALiteral (lexeme : String)
  /-- A number is needed to `verb` it. -/
  | notANumber (verb : String) (found : ValueType)
  /-- A sum has an undefined operand. -/
  | undefinedSum
  /-- A logical operator takes no such operand. -/
  | illogical (op : BinaryOp) (found : ValueType)
  /-- The operand of a unary operator is not written as a number. -/
  | operandNotLiteral (op : UnaryOp)
  /-- The operand of a unary operator is not a number. -/
  | operandNotNumber (op : UnaryOp) (found : ValueType)
  /-- A failure that the embedding program reports. -/
  | reported (details : String)
deriving DecidableEq, Repr

def TypeError.details : TypeError → String
  | notALiteral lexeme => "'" ++ lexeme ++ "' is not a number literal"
  | notANumber verb found => "cannot " ++ verb ++ " a " ++ found.name
  | undefinedSum => "cannot add undefined"
  | illogical op found => "'" ++ op.symbol ++ "' cannot take a " ++ found.name
  | operandNotLiteral op => "prefix '" ++ op.symbol ++ "' only applies to a number literal"
  | operandNotNumber op found =>
    "prefix '" ++ op.symbol ++ "' expects a number, found a " ++ found.name
  | reported details => details

/-- Why an evaluation fails. -/
inductive RuntimeError where
  /-- No scope of the chain binds the name. -/
  | undefinedName (name : String)
  /-- The name of a declaration is already visible. -/
  | redefinition (name : String)
  /-- A function is given the wrong number of arguments. -/
  | arityMismatch (name : String) (expected found : Nat)
  | typeMismatch (cause : TypeError)
  /-- A function is not a result. -/
  | illegalReturn (found : ValueType)
  /-- The value of the name is no function. -/
  | notCallable (name : String) (found : ValueType)
deriving DecidableEq, Repr

def RuntimeError.message : RuntimeError → String
  | undefinedName name => "Undefined identifier '" ++ name ++ "'."
  | redefinition name => "Cannot redefine '" ++ name ++ "'."
  | arityMismatch name expected found =>
    "'" ++ name ++ "' requires " ++ toString expected ++ " arguments, but got "
      ++ toString found ++ "."
  | typeMismatch cause => "Type error: " ++ cause.details ++ "."
  | illegalReturn found => "Cannot return " ++ found.name ++ " values."
  | notCallable name found => "'" ++ name ++ "' is a " ++ found.name ++ " and cannot be called."

end Scriptlet
