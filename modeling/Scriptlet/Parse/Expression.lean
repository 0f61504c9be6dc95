import Scriptlet.Parse.Grammar

/-!
# Reading expressions

An expression is read by precedence: first a term, then as many tails as bind tighter than the
given precedence. The operand of a tail is read with the precedence of its operator, so operators of
one precedence group from the left.

Everything below the top reads its inner expressions through a parameter, and `expressionAt` ties
the knot. Its first argument bounds the number of tokens left, and every inner expression starts
after a token of the outer one, so the bound sinks with the nesting; at zero there is nothing left
to read and the answer is that of an empty list. `expression` takes the number of tokens as bound.
-/

namespace Scriptlet.Parse

variable (cx : Context)

section Inner

variable (operand : Precedence → ParseM Expr)

def term (bound : Nat) (rule : TermRule) : ParseM Expr := do
  match rule with
  | .number => return .number (← expect cx .number).lexeme
  | .string => return .string (← expect cx .string).lexeme
  | .boolean =>
    match ← peekKind with
    | some .keyTrue => let _ ← advance; return .boolean true
    | some .keyFalse => let _ ← advance; return .boolean false
    | _ => unexpected cx .boolean
  | .nameOrCall =>
    let name ← expectName cx
    if (← peekKind) = some .leftParen then
      let _ ← advance
      return .call name (← items cx (operand .lowest) .rightParen bound)
    else return .name name
  | .group =>
    let _ ← expect cx .leftParen
    let e ← operand .lowest
    let _ ← expect cx .rightParen
    return e
  | .unary =>
    match (← peekKind).bind TokenKind.unaryOp? with
    | some op =>
      let _ ← advance
      return .unary op (← operand .unary)
    | none => unexpected cx .unaryOperator

/-- Reads an operator and its right operand, which is read with `precedence`. -/
def binaryTail (left : Expr) (precedence : Precedence) : ParseM Expr := do
  match (← peekKind).bind TokenKind.binaryOp? with
  | some op =>
    let _ ← advance
    return .binary op left (← operand precedence)
  | none => unexpected cx .binaryOperator

/-- Extends an expression by a rule, in front of a token that binds with `precedence`. -/
def tail (left : Expr) (precedence : Precedence) : TailRule → ParseM Expr
  | .binary => binaryTail cx operand left precedence
  | .looseBinary => binaryTail cx operand left .lowest
  | .mark => do
    let _ ← advance
    return left

/-- Extends an expression for as long as the next token binds tighter than `min`. -/
def tails (min : Precedence) : Nat → Expr → ParseM Expr
  | 0, left => return left
  | bound + 1, left => do
    match ← peek with
    | none => return left
    | some t =>
      if t.kind.endsExpression || t.kind.precedence ≤ min then return left
      else match cx.grammar.tail? t.kind with
        | none => throw (.noTailRule t)
        | some rule =>
          let longer ← tail cx operand left t.kind.precedence rule
          tails min bound longer

end Inner

/-- Reads an expression with at most `bound` tokens left, see the head of this module. -/
def expressionAt : Nat → Precedence → ParseM Expr
  | 0, _ => failAtEnd cx .expression
  | bound + 1, min => do
    match ← peek with
    | none => failAtEnd cx .expression
    | some t =>
      match cx.grammar.term? t.kind with
      | none => throw (.noTermRule t)
      | some rule =>
        let left ← term cx (expressionAt bound) bound rule
        tails cx (expressionAt bound) min bound left

/-- Reads an expression whose operators all bind tighter than `min`, up to the first token that
cannot belong to it. -/
def expression (min : Precedence) : ParseM Expr := do
  expressionAt cx (← get).length min

/-- Reads a term by the given rule, whatever the next token is. -/
def termBy (rule : TermRule) : ParseM Expr := do
  let bound := (← get).length
  term cx (expressionAt cx bound) bound rule

/-- Extends an expression by an operator and an operand read with the given precedence. -/
def extend (left : Expr) (precedence : Precedence) : ParseM Expr := do
  binaryTail cx (expressionAt cx (← get).length) left precedence

end Scriptlet.Parse
