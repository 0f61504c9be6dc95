import Scriptlet.Token.Basic

/-!
# Scanning source text

The scanner is a machine that reads one character at a time. Between characters it holds the line
it is on, the tokens found so far and the *pending* piece: the beginning of a token that the next
character may still extend. Extension is tried first, and only a character that the pending piece
refuses ends it, so every token is as long as it can be.

Scanning a text is a fold of `Scan.step` over its characters, closed by `Scan.finish`. The state
after a text is all the scanner knows of it, so scanning a concatenation is scanning the second part
from the state after the first.

A character that starts nothing else is a token of kind `other` on its own, so the only failure is
a string whose closing quote never comes.
-/

namespace Scriptlet

/-- Why a text has no tokens. -/
inductive ScanError where
  /-- The string opened on `line` has no closing `quote`. -/
  | unterminatedString (quote : Char) (line : Nat)
deriving DecidableEq, Repr

def ScanError.message : ScanError → String
  | unterminatedString quote line =>
    "Error on line " ++ toString line ++ ": Unterminated string literal, expected a closing "
      ++ quote.toString ++ "."

/-! ## Characters -/

/-- The characters that separate tokens and are otherwise dropped. -/
def isGap (c : Char) : Bool := c = ' ' || c = '\t' || c = '\r' || c = '\n'

def isQuote (c : Char) : Bool := c = '"' || c = '\''

def startsWord (c : Char) : Bool := c.isAlpha || c = '_'

def continuesWord (c : Char) : Bool := c.isAlphanum || c = '_'

/-! ## The pending piece -/

/-- The beginning of a token that the next character may extend. Texts are kept last character
first. -/
inductive Pending where
  /-- Nothing: the scanner is between tokens. -/
  | gap
  /-- The digits of a number, before its point. -/
  | whole (text : List Char)
  /-- A number with its point. -/
  | fraction (text : List Char)
  /-- A keyword or identifier. -/
  | word (text : List Char)
  /-- A symbol of one character, perhaps the first of two. -/
  | symbol (first : Char)
  /-- A string opened by `quote` on the line `opened`. -/
  | quoted (quote : Char) (opened : Nat) (text : List Char)
deriving DecidableEq, Repr

/-- What a pending piece does with the next character. -/
inductive Uptake where
  /-- The character belongs to the piece, which is still open. -/
  | grown (piece : Pending)
  /-- The character completes a token. -/
  | closed (kind : TokenKind) (lexeme : String)
  /-- The character does not belong to the piece. -/
  | refused
deriving DecidableEq, Repr

namespace Pending

/-- The piece that a character begins when nothing is pending. -/
def start (line : Nat) (c : Char) : Pending :=
  if isGap c then gap
  else if isQuote c then quoted c line []
  else if c.isDigit then whole [c]
  else if startsWord c then word [c]
  else symbol c

/-- Offers a character to the piece. -/
def offer (piece : Pending) (c : Char) : Uptake :=
  match piece with
  | gap => .refused
  | whole text =>
    if c.isDigit then .grown (whole (c :: text))
    else if c = '.' then .grown (fraction (c :: text))
    else .refused
  | fraction text => if c.isDigit then .grown (fraction (c :: text)) else .refused
  | word text => if continuesWord c then .grown (word (c :: text)) else .refused
  | symbol first =>
    match TokenKind.ofPair? first c with
    | some kind => .closed kind (String.ofList [first, c])
    | none => .refused
  | quoted quote opened text =>
    if c = quote then .closed .string (String.ofList text.reverse)
    else .grown (quoted quote opened (c :: text))

/-- The tokens the piece amounts to when nothing more belongs to it. An open string amounts to
none; `Scan.finish` reports it. -/
def settle (piece : Pending) (line : Nat) : List Token :=
  match piece with
  | gap | quoted .. => []
  | whole text | fraction text => [⟨.number, String.ofList text.reverse, line⟩]
  | word text => [⟨.ofWord (String.ofList text.reverse), String.ofList text.reverse, line⟩]
  | symbol first => [⟨.ofSymbol first, first.toString, line⟩]

end Pending

/-! ## The machine -/

/-- The state of the scanner between two characters. -/
structure Scan where
  /-- The current line, counted from one. -/
  line : Nat := 1
  pending : Pending := .gap
  /-- The tokens found so far, last one first. -/
  found : List Token := []
deriving DecidableEq, Repr

namespace Scan

def lineAfter (line : Nat) (c : Char) : Nat := if c = '\n' then line + 1 else line

def step (s : Scan) (c : Char) : Scan :=
  match s.pending.offer c with
  | .grown piece => { s with line := lineAfter s.line c, pending := piece }
  | .closed kind lexeme => { s with pending := .gap, found := ⟨kind, lexeme, s.line⟩ :: s.found }
  | .refused =>
    { line := lineAfter s.line c
      pending := .start s.line c
      found := s.pending.settle s.line ++ s.found }

def steps (s : Scan) (text : List Char) : Scan := text.foldl step s

/-- Ends the text: the pending piece is settled, and an open string is an error. -/
def finish (s : Scan) : Except ScanError (List Token) :=
  match s.pending with
  | .quoted quote opened _ => .error (.unterminatedString quote opened)
  | piece => .ok (piece.settle s.line ++ s.found).reverse

@[simp]
theorem steps_nil (s : Scan) : s.steps [] = s := rfl

@[simp]
theorem steps_cons (s : Scan) (c : Char) (text : List Char) :
    s.steps (c :: text) = (s.step c).steps text := rfl

theorem steps_append (s : Scan) (t u : List Char) : s.steps (t ++ u) = (s.steps t).steps u :=
  List.foldl_append

end Scan

def tokenize (source : String) : Except ScanError (List Token) :=
  (Scan.steps {} source.toList).finish

end Scriptlet
