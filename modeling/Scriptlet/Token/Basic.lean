/-!
# Tokens

The kinds of tokens are the alphabet of the grammar. A kind is what a parser decides by; the text a
token was written with is carried beside it and matters only to number, string and name tokens.

Two groups have a fixed spelling: the keywords and the symbols. Both are listed once, in
`spelling?`, and the tables that recognise them (`ofWord`, `ofSymbol`, `ofPair?`) go the other
way.

A token is a kind, the text it carries and the line it ends on. For a string token the text is what
stands between the quotes; for every other token it is the source text itself. `Token.text` is the
way back to source, and `render` joins such texts with single spaces. A string is written in double
quotes unless it holds one, so a string with both quotes has no source form.
-/

namespace Scriptlet

/-- The kind of a token. `newline` exists for hand-built token lists only: scanning drops line
ends. -/
inductive TokenKind where
  | number
  | string
  | identifier
  | plus
  | minus
  | star
  | slash
  | bang
  | assign
  | less
  | greater
  | lessEqual
  | greaterEqual
  | equalEqual
  | bangEqual
  | doublePipe
  | doubleAmpersand
  | comma
  | semicolon
  | leftParen
  | rightParen
  | leftBrace
  | rightBrace
  | leftBracket
  | rightBracket
  | keyLet
  | keyFunction
  | keyReturn
  | keyIf
  | keyElse
  | keyElif
  | keyTrue
  | keyFalse
  | newline
  | other
deriving DecidableEq, Repr, Inhabited

namespace TokenKind

/-- The one spelling of a symbol or keyword, and `none` for a kind whose text varies. -/
def spelling? : TokenKind → Option String
  | plus => some "+"
  | minus => some "-"
  | star => some "*"
  | slash => some "/"
  | bang => some "!"
  | assign => some "="
  | less => some "<"
  | greater => some ">"
  | lessEqual => some "<="
  | greaterEqual => some ">="
  | equalEqual => some "=="
  | bangEqual => some "!="
  | doublePipe => some "||"
  | doubleAmpersand => some "&&"
  | comma => some ","
  | semicolon => some ";"
  | leftParen => some "("
  | rightParen => some ")"
  | leftBrace => some "\x7b"
  | rightBrace => some "\x7d"
  | leftBracket => some "["
  | rightBracket => some "]"
  | keyLet => some "let"
  | keyFunction => some "function"
  | keyReturn => some "return"
  | keyIf => some "if"
  | keyElse => some "else"
  | keyElif => some "elif"
  | keyTrue => some "true"
  | keyFalse => some "false"
  | number | string | identifier | newline | other => none

/-- How messages name a kind: its spelling in quotes, or a word for a kind without one. -/
def describe (kind : TokenKind) : String :=
  match kind with
  | number => "number"
  | string => "string"
  | identifier => "identifier"
  | newline => "newline"
  | other => "character"
  | _ => "'" ++ kind.spelling?.getD "" ++ "'"

/-- The kinds in front of which every expression stops. -/
def endsExpression : TokenKind → Bool
  | comma | rightParen | semicolon => true
  | _ => false

/-- The kind of a word: one of the eight keywords, or else an identifier. -/
def ofWord (word : String) : TokenKind :=
  match word with
  | "let" => keyLet
  | "function" => keyFunction
  | "return" => keyReturn
  | "if" => keyIf
  | "else" => keyElse
  | "elif" => keyElif
  | "true" => keyTrue
  | "false" => keyFalse
  | _ => identifier

/-- The kind of a single character that is a token of its own; `other` when the grammar has no
use for the character. -/
def ofSymbol (c : Char) : TokenKind :=
  match c with
  | '+' => plus
  | '-' => minus
  | '*' => star
  | '/' => slash
  | '!' => bang
  | '=' => assign
  | '<' => less
  | '>' => greater
  | ',' => comma
  | ';' => semicolon
  | '(' => leftParen
  | ')' => rightParen
  | '{' => leftBrace
  | '}' => rightBrace
  | '[' => leftBracket
  | ']' => rightBracket
  | _ => other

/-- The kind of two characters that form one symbol together. -/
def ofPair? (first second : Char) : Option TokenKind :=
  match first, second with
  | '<', '=' => some lessEqual
  | '>', '=' => some greaterEqual
  | '=', '=' => some equalEqual
  | '!', '=' => some bangEqual
  | '|', '|' => some doublePipe
  | '&', '&' => some doubleAmpersand
  | _, _ => none

end TokenKind

/-! ## Tokens -/

/-- A piece of source text with its kind. -/
structure Token where
  kind : TokenKind
  /-- The source text, without the quotes of a string. -/
  lexeme : String
  /-- The line of the token's last character, counted from one. -/
  line : Nat := 1
deriving DecidableEq, Repr, Inhabited

namespace Token

/-- Kind and text, which say all of a token but where it stands. -/
def content (t : Token) : TokenKind × String := (t.kind, t.lexeme)

/-- How messages name a token: tokens whose text varies show it. -/
def describe (t : Token) : String :=
  match t.kind with
  | .number | .string | .identifier => t.kind.describe ++ " '" ++ t.lexeme ++ "'"
  | .other => "'" ++ t.lexeme ++ "'"
  | _ => t.kind.describe

/-- The quote a string is written in: single when it holds a double quote. -/
def quoteFor (inner : String) : Char := if inner.toList.contains '"' then '\'' else '"'

def text (t : Token) : String :=
  match t.kind with
  | .string => (quoteFor t.lexeme).toString ++ t.lexeme ++ (quoteFor t.lexeme).toString
  | _ => t.lexeme

end Token

/-- Source text for a token list: the texts with one space between neighbours. -/
def render (tokens : List Token) : String := " ".intercalate (tokens.map Token.text)

/-- Whether two token lists agree in kinds and texts, lines aside. -/
def sameTokens (ss ts : List Token) : Bool := ss.map Token.content = ts.map Token.content

end Scriptlet
