import Scriptlet.Parse.Error
import Scriptlet.Tree.Basic

/-!
# Rules and the token cursor

A grammar says, for each kind of token, which rule reads an expression that starts with it (a *term*
rule) and which rule extends an expression in front of it (a *tail* rule). Both tables can be
changed, and a change replaces the rule that was there.

Parsers run on the list of tokens not yet read. They return a value or an error, and in both cases
the list as it is then: after a failure the cursor stays in front of the token that was refused.
-/

namespace Scriptlet

/-- How an expression starts. -/
inductive TermRule where
  | number
  | string
  | boolean
  /-- A name, or a call when a parenthesis follows it. -/
  | nameOrCall
  /-- An expression in parentheses. -/
  | group
  /-- An operator in front of its operand. -/
  | unary
deriving DecidableEq, Repr

/-- How an expression goes on. The language itself has binary operators only; the other two stand
for rules that an embedding program adds. -/
inductive TailRule where
  /-- An operator and a right operand that binds tighter than it. -/
  | binary
  /-- An operator and the longest right operand there is. -/
  | looseBinary
  /-- A mark after the operand that changes nothing. -/
  | mark
deriving DecidableEq, Repr

/-- The rules by kind of token. -/
structure Grammar where
  term? : TokenKind → Option TermRule
  tail? : TokenKind → Option TailRule

namespace Grammar

/-- The rules of the language. -/
def standard : Grammar where
  term?
    | .number => some .number
    | .string => some .string
    | .keyTrue | .keyFalse => some .boolean
    | .identifier => some .nameOrCall
    | .leftParen => some .group
    | .minus | .plus | .bang => some .unary
    | _ => none
  tail?
    | .plus | .minus | .star | .slash | .less | .greater | .lessEqual | .greaterEqual
    | .equalEqual | .bangEqual | .doublePipe | .doubleAmpersand => some .binary
    | _ => none

/-- The tail rules are those for binary operators. -/
theorem standard_tail? (kind : TokenKind) :
    standard.tail? kind = kind.binaryOp?.map fun _ ↦ .binary := by
  cases kind <;> rfl

/-- The grammar in which expressions that start with `kind` are read by `rule`. -/
def setTerm (g : Grammar) (kind : TokenKind) (rule : TermRule) : Grammar :=
  { g with term? := fun k ↦ if k = kind then some rule else g.term? k }

/-- The grammar in which expressions in front of `kind` are extended by `rule`. -/
def setTail (g : Grammar) (kind : TokenKind) (rule : TailRule) : Grammar :=
  { g with tail? := fun k ↦ if k = kind then some rule else g.tail? k }

end Grammar

/-- Parsers: what is left to read is the state, also after an error. -/
abbrev ParseM := EStateM ParseError (List Token)

namespace Parse

/-- What stays fixed while a token list is read. -/
structure Context where
  grammar : Grammar := .standard
  /-- The line that an error at the end of the tokens points at. -/
  endLine : Nat := 1

/-- The line at which a token list ends: that of its last token, and one if there is none. -/
def endLine (tokens : List Token) : Nat := (tokens.getLast?.map Token.line).getD 1

/-! ## Looking ahead -/

def peek : ParseM (Option Token) := do return (← get).head?

/-- The kind of the token that is `offset` places ahead. -/
def peekKindAt (offset : Nat) : ParseM (Option TokenKind) := do
  return (← get)[offset]?.map Token.kind

def peekKind : ParseM (Option TokenKind) := peekKindAt 0

/-! ## Moving on -/

def advance : ParseM (Option Token) := modifyGet fun tokens ↦ (tokens.head?, tokens.tail)

variable (cx : Context)

def failAtEnd {α : Type} (expected : Expected) : ParseM α :=
  throw (.unexpectedEnd expected cx.endLine)

def unexpected {α : Type} (expected : Expected) : ParseM α := do
  match ← peek with
  | some found => throw (.unexpectedToken expected found)
  | none => failAtEnd cx expected

def expect (kind : TokenKind) : ParseM Token := do
  match ← get with
  | t :: rest =>
    if t.kind = kind then
      set rest
      return t
    else unexpected cx (.token kind)
  | [] => unexpected cx (.token kind)

def expectName : ParseM String := do return (← expect cx .identifier).lexeme

/-! ## What the steps do to the tokens -/

@[simp]
theorem run_peek (tokens : List Token) : peek.run tokens = .ok tokens.head? tokens := rfl

@[simp]
theorem run_peekKind (tokens : List Token) :
    peekKind.run tokens = .ok (tokens.head?.map Token.kind) tokens := by
  cases tokens <;> rfl

@[simp]
theorem run_advance (tokens : List Token) :
    advance.run tokens = .ok tokens.head? tokens.tail := rfl

@[simp]
theorem run_unexpected_nil {α : Type} (expected : Expected) :
    (unexpected cx expected : ParseM α).run [] = .error (.unexpectedEnd expected cx.endLine) [] :=
  rfl

@[simp]
theorem run_unexpected_cons {α : Type} (expected : Expected) (t : Token) (rest : List Token) :
    (unexpected cx expected : ParseM α).run (t :: rest)
      = .error (.unexpectedToken expected t) (t :: rest) :=
  rfl

@[simp]
theorem run_expect_nil (kind : TokenKind) :
    (expect cx kind).run [] = .error (.unexpectedEnd (.token kind) cx.endLine) [] :=
  rfl

theorem run_expect_cons (kind : TokenKind) (t : Token) (rest : List Token) :
    (expect cx kind).run (t :: rest)
      = if t.kind = kind then .ok t rest
        else .error (.unexpectedToken (.token kind) t) (t :: rest) := by
  by_cases h : t.kind = kind
  · simp only [expect, EStateM.run_bind, EStateM.run_get, h, ↓reduceIte]
    rfl
  · simp [expect, h]

/-! ## Lists -/

/-- Goes on after an item of a list: a comma and a further item, or the closing token. The bound is
at least the number of tokens left; each round reads one, so at zero there is none. -/
def moreItems {α : Type} (item : ParseM α) (closing : TokenKind) : Nat → ParseM (List α)
  | 0 => unexpected cx (.commaOr closing)
  | bound + 1 => do
    let next ← peekKind
    if next = some .comma then
      let _ ← advance
      let x ← item
      let xs ← moreItems item closing bound
      return x :: xs
    else if next = some closing then
      let _ ← advance
      return []
    else unexpected cx (.commaOr closing)

/-- Reads items with commas between them up to the closing token. A comma is always followed by an
item. -/
def items {α : Type} (item : ParseM α) (closing : TokenKind) (bound : Nat) : ParseM (List α) := do
  if (← peekKind) = some closing then
    let _ ← advance
    return []
  else
    let x ← item
    let xs ← moreItems cx item closing bound
    return x :: xs

end Parse

end Scriptlet
