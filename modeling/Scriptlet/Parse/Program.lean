import Scriptlet.Parse.Expression

/-!
# Reading statements and programs

A statement is recognised by its first token, with one exception: a name is the start of an
assignment when `=` follows it and of an expression otherwise.

`let` needs its semicolon. The other simple statements may leave it out at the end of a block or of
the program. An `elif` or `else` is refused by the list it stands in unless the statement before it
is an `if` or `elif`; a single statement read on its own has no such neighbour and is not checked.

As for expressions, a bound on the number of tokens left sinks with the nesting of statements. Every
bound here is at least that number, and beyond it makes no difference.
-/

namespace Scriptlet

namespace Parse

variable (cx : Context)

def endStatement : ParseM Unit := do
  match ← peekKind with
  | some .semicolon => let _ ← advance
  | some .rightBrace | none => return
  | some _ => unexpected cx (.token .semicolon)

/-- Reads a condition in parentheses. -/
def condition (bound : Nat) : ParseM Expr := do
  let _ ← expect cx .leftParen
  let e ← expressionAt cx bound .lowest
  let _ ← expect cx .rightParen
  return e

/-- Reads `let name = value;`. -/
def declaration (bound : Nat) : ParseM (Statement Unit) := do
  let _ ← expect cx .keyLet
  let name ← expectName cx
  let _ ← expect cx .assign
  let value ← expressionAt cx bound .lowest
  let _ ← expect cx .semicolon
  return .declare name value

/-- Reads `name = value`. -/
def assignment (bound : Nat) : ParseM (Statement Unit) := do
  let name ← expectName cx
  let _ ← expect cx .assign
  let value ← expressionAt cx bound .lowest
  endStatement cx
  return .assign name value

section Inner

variable (statement : ParseM (Statement Unit))

/-- Reads statements up to the closing token, or to the end of the tokens if there is none.
`afterBranch` says whether the statement before is one that `elif` and `else` may follow. -/
def statements (closing : Option TokenKind) : Nat → Bool → ParseM (List (Statement Unit))
  | 0, _ =>
    match closing with
    | some kind => failAtEnd cx (.token kind)
    | none => return []
  | bound + 1, afterBranch => do
    match ← peek with
    | none =>
      match closing with
      | some kind => failAtEnd cx (.token kind)
      | none => return []
    | some t =>
      if some t.kind = closing then
        let _ ← advance
        return []
      else if (t.kind = .keyElif || t.kind = .keyElse) && !afterBranch then
        throw (.danglingBranch t)
      else
        let s ← statement
        let rest ← statements closing bound s.opensBranch
        return s :: rest

def blockOf (bound : Nat) : ParseM (List (Statement Unit)) := do
  let _ ← expect cx .leftBrace
  statements cx statement (some .rightBrace) bound false

def functionOf (bound : Nat) : ParseM (Statement Unit) := do
  let _ ← expect cx .keyFunction
  let name ← expectName cx
  let _ ← expect cx .leftParen
  let params ← items cx (expectName cx) .rightParen bound
  let body ← blockOf cx statement bound
  return .function () name params body

end Inner

/-- Reads a statement with at most `bound` tokens left. -/
def statementAt : Nat → ParseM (Statement Unit)
  | 0 => failAtEnd cx .statement
  | bound + 1 => do
    match ← peek with
    | none => failAtEnd cx .statement
    | some t =>
      match t.kind with
      | .keyLet => declaration cx bound
      | .keyIf =>
        let _ ← advance
        let test ← condition cx bound
        return .ifBranch test (← blockOf cx (statementAt bound) bound)
      | .keyElif =>
        let _ ← advance
        let test ← condition cx bound
        return .elifBranch test (← blockOf cx (statementAt bound) bound)
      | .keyElse =>
        let _ ← advance
        return .elseBranch (← blockOf cx (statementAt bound) bound)
      | .keyFunction => functionOf cx (statementAt bound) bound
      | .keyReturn =>
        let _ ← advance
        let value ← expressionAt cx bound .lowest
        endStatement cx
        return .returns value
      | .leftBrace => return .block (← blockOf cx (statementAt bound) bound)
      | kind =>
        if kind = .identifier && (← peekKindAt 1) = some .assign then assignment cx bound
        else if (cx.grammar.term? kind).isSome then
          let value ← expressionAt cx (bound + 1) .lowest
          endStatement cx
          return .expression value
        else throw (.unknownStatement t)

def statement : ParseM (Statement Unit) := do
  statementAt cx (← get).length

def block : ParseM (List (Statement Unit)) := do
  let bound := (← get).length
  blockOf cx (statementAt cx bound) bound

def program : ParseM Program := do
  let bound := (← get).length
  statements cx (statementAt cx bound) none bound false

end Parse

/-- The program a token list spells. -/
def parse (tokens : List Token) : Except ParseError Program :=
  match (Parse.program ⟨.standard, Parse.endLine tokens⟩).run tokens with
  | .ok p _ => .ok p
  | .error e _ => .error e

end Scriptlet
