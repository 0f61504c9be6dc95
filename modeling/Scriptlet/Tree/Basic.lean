import Scriptlet.Tree.Operator

/-!
# Program trees

A program is a list of statements, and a statement holds expressions and further lists.

A function statement carries a *tag*. Parsing yields trees with the trivial tag, so that trees are
compared by what was written. Before a program runs, `numberAllFrom` replaces the tags by
consecutive numbers. The number is the identity of the function that the statement defines: two
functions are the same exactly when they come from the same statement of the same program, however
often that statement runs.
-/

namespace Scriptlet

/-- Expressions. A number keeps its source text until it is evaluated. -/
inductive Expr where
  | number (lexeme : String)
  | string (content : String)
  | boolean (value : Bool)
  | name (name : String)
  | unary (op : UnaryOp) (operand : Expr)
  | binary (op : BinaryOp) (left right : Expr)
  | call (callee : String) (arguments : List Expr)
deriving Repr, Inhabited

/-- Statements, with tags of type `ι` on the function statements. The three branch statements of a
conditional chain are separate statements that stand next to each other in their list. -/
inductive Statement (ι : Type) where
  | declare (name : String) (value : Expr)
  | assign (name : String) (value : Expr)
  | ifBranch (condition : Expr) (body : List (Statement ι))
  | elifBranch (condition : Expr) (body : List (Statement ι))
  | elseBranch (body : List (Statement ι))
  | returns (value : Expr)
  | function (tag : ι) (name : String) (params : List String) (body : List (Statement ι))
  | block (body : List (Statement ι))
  | expression (value : Expr)
deriving Repr, Inhabited

/-- A program as it was written. -/
abbrev Program := List (Statement Unit)

namespace Statement

/-- Whether an `elif` or `else` may follow the statement. -/
def opensBranch {ι : Type} : Statement ι → Bool
  | ifBranch .. | elifBranch .. => true
  | _ => false

mutual

/-- The statement with its tags replaced by consecutive numbers from `next` on, an outer function
before those inside it, together with the next free number. -/
def numberFrom {ι : Type} (next : Nat) : Statement ι → Statement Nat × Nat
  | declare name value => (declare name value, next)
  | assign name value => (assign name value, next)
  | ifBranch condition body =>
    let (body, next) := numberAllFrom next body
    (ifBranch condition body, next)
  | elifBranch condition body =>
    let (body, next) := numberAllFrom next body
    (elifBranch condition body, next)
  | elseBranch body =>
    let (body, next) := numberAllFrom next body
    (elseBranch body, next)
  | returns value => (returns value, next)
  | function _ name params body =>
    let (body, after) := numberAllFrom (next + 1) body
    (function next name params body, after)
  | block body =>
    let (body, next) := numberAllFrom next body
    (block body, next)
  | expression value => (expression value, next)

def numberAllFrom {ι : Type} (next : Nat) : List (Statement ι) → List (Statement Nat) × Nat
  | [] => ([], next)
  | s :: rest =>
    let (s, next) := numberFrom next s
    let (rest, next) := numberAllFrom next rest
    (s :: rest, next)

end

theorem numberAllFrom_append {ι : Type} (next : Nat) (p q : List (Statement ι)) :
    numberAllFrom next (p ++ q)
      = ((numberAllFrom next p).1 ++ (numberAllFrom (numberAllFrom next p).2 q).1,
          (numberAllFrom (numberAllFrom next p).2 q).2) := by
  induction p generalizing next with
  | nil => simp [numberAllFrom]
  | cons s rest ih => simp [numberAllFrom, ih]

end Statement

end Scriptlet
