import Scriptlet.Token.Basic

/-!
# Operators

The operators of expressions, how they are written, and how tightly they bind. The comparisons bind
like sums, so `1 + 2 < 3` groups from the left as one chain.
-/

namespace Scriptlet

/-- The operators written in front of their operand. -/
inductive UnaryOp where
  | plus
  | negate
  | not
deriving DecidableEq, Repr, Inhabited

/-- The operators written between their operands. -/
inductive BinaryOp where
  | add
  | sub
  | mul
  | div
  | less
  | greater
  | lessEqual
  | greaterEqual
  | equal
  | notEqual
  | or
  | and
deriving DecidableEq, Repr, Inhabited

/-- How tightly an expression is bound, loosest first. -/
inductive Precedence where
  | lowest
  | logical
  | additive
  | multiplicative
  | unary
  | call
deriving DecidableEq, Repr, Inhabited

namespace Precedence

/-- The position in the order, from zero. -/
def rank : Precedence → Nat
  | lowest => 0
  | logical => 1
  | additive => 2
  | multiplicative => 3
  | unary => 4
  | call => 5

instance : LE Precedence := ⟨fun p q ↦ p.rank ≤ q.rank⟩

instance : LT Precedence := ⟨fun p q ↦ p.rank < q.rank⟩

instance (p q : Precedence) : Decidable (p ≤ q) := inferInstanceAs (Decidable (p.rank ≤ q.rank))

instance (p q : Precedence) : Decidable (p < q) := inferInstanceAs (Decidable (p.rank < q.rank))

end Precedence

namespace UnaryOp

def symbol : UnaryOp → String
  | plus => "+"
  | negate => "-"
  | not => "!"

end UnaryOp

namespace BinaryOp

def symbol : BinaryOp → String
  | add => "+"
  | sub => "-"
  | mul => "*"
  | div => "/"
  | less => "<"
  | greater => ">"
  | lessEqual => "<="
  | greaterEqual => ">="
  | equal => "=="
  | notEqual => "!="
  | or => "||"
  | and => "&&"

def precedence : BinaryOp → Precedence
  | or | and => .logical
  | add | sub | less | greater | lessEqual | greaterEqual | equal | notEqual => .additive
  | mul | div => .multiplicative

end BinaryOp

namespace TokenKind

/-- The operator a token stands for in front of an operand. -/
def unaryOp? : TokenKind → Option UnaryOp
  | plus => some .plus
  | minus => some .negate
  | bang => some .not
  | _ => none

/-- The operator a token stands for between two operands. -/
def binaryOp? : TokenKind → Option BinaryOp
  | plus => some .add
  | minus => some .sub
  | star => some .mul
  | slash => some .div
  | less => some .less
  | greater => some .greater
  | lessEqual => some .lessEqual
  | greaterEqual => some .greaterEqual
  | equalEqual => some .equal
  | bangEqual => some .notEqual
  | doublePipe => some .or
  | doubleAmpersand => some .and
  | _ => none

def precedence : TokenKind → Precedence
  | doublePipe | doubleAmpersand => .logical
  | plus | minus | less | greater | equalEqual | lessEqual | greaterEqual | bangEqual => .additive
  | star | slash => .multiplicative
  | _ => .lowest

/-- The table is that of the operators: other tokens do not bind at all. -/
theorem precedence_eq (kind : TokenKind) :
    kind.precedence = (kind.binaryOp?.map BinaryOp.precedence).getD .lowest := by
  cases kind <;> rfl

end TokenKind

end Scriptlet
