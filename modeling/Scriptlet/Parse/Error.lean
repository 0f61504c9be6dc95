import Scriptlet.Token.Basic

/-!
# Parse errors

Each error keeps what the parser wanted and the token it met; the wording is in `message` alone.
A message gives the line of the token it is about, and at the end of the tokens the line of the last
one.
-/

namespace Scriptlet

/-- What a parser wanted to see. -/
inductive Expected where
  | token (kind : TokenKind)
  /-- A comma, or the token that closes the list. -/
  | commaOr (closing : TokenKind)
  | expression
  | statement
  | boolean
  | unaryOperator
  | binaryOperator
deriving DecidableEq, Repr

def Expected.describe : Expected → String
  | token kind => kind.describe
  | commaOr closing => "',' or " ++ closing.describe
  | expression => "expression"
  | statement => "statement"
  | boolean => "boolean"
  | unaryOperator => "prefix operator"
  | binaryOperator => "infix operator"

/-- Why a token list is not the wanted phrase. -/
inductive ParseError where
  /-- `found` stands where something else is needed. -/
  | unexpectedToken (expected : Expected) (found : Token)
  /-- The tokens end too early; `line` is where they end. -/
  | unexpectedEnd (expected : Expected) (line : Nat)
  /-- No expression starts with the token. -/
  | noTermRule (found : Token)
  /-- The operator has no rule that extends an expression. -/
  | noTailRule (found : Token)
  /-- No statement starts with the token. -/
  | unknownStatement (found : Token)
  /-- An `elif` or `else` does not follow a branch it could belong to. -/
  | danglingBranch (found : Token)
deriving DecidableEq, Repr

namespace ParseError

def line : ParseError → Nat
  | unexpectedToken _ found => found.line
  | unexpectedEnd _ line => line
  | noTermRule found => found.line
  | noTailRule found => found.line
  | unknownStatement found => found.line
  | danglingBranch found => found.line

/-- What is wrong, without the line. -/
def reason : ParseError → String
  | unexpectedToken expected found =>
    "Expected " ++ expected.describe ++ ", found " ++ found.describe ++ "."
  | unexpectedEnd expected _ => "Unexpected end of input, expected " ++ expected.describe ++ "."
  | noTermRule found => "No prefix parser for " ++ found.describe ++ "."
  | noTailRule found => "No infix parser for " ++ found.describe ++ "."
  | unknownStatement found =>
    "Don't know how to parse a statement starting with " ++ found.describe ++ "."
  | danglingBranch found => found.kind.describe ++ " must follow an 'if' or 'elif' block."

def message (e : ParseError) : String :=
  "Error on line " ++ toString e.line ++ ": " ++ e.reason

end ParseError

end Scriptlet
