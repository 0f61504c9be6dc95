import Scriptlet.Tree.Basic

/-!
# Parts of trees

What stands directly inside an expression or a statement, which names it mentions by itself, and
induction over trees by their parts. A property of trees that looks at the parts of a tree all in
the same way is stated over these lists, and does not have to be stated for each kind of tree.

What is found in a tree at whatever depth is collected by `collect`, which is given what to take
from a tree apart from its parts. It gives the names that occur in a tree and the numbers that are
written there.
-/

namespace Scriptlet

namespace Expr

/-- The expressions directly inside an expression. -/
def parts : Expr → List Expr
  | unary _ operand => [operand]
  | binary _ left right => [left, right]
  | call _ arguments => arguments
  | number _ | string _ | boolean _ | name _ => []

/-- The name that an expression looks up, apart from those of its parts. -/
def reads? : Expr → Option String
  | name n => some n
  | call callee _ => some callee
  | _ => none

theorem sizeOf_lt_of_mem_parts {d e : Expr} (h : d ∈ e.parts) : sizeOf d < sizeOf e := by
  cases e with
  | number _ | string _ | boolean _ | name _ => exact absurd h List.not_mem_nil
  | unary op operand =>
    rw [List.mem_singleton.mp h, unary.sizeOf_spec]
    omega
  | binary op left right =>
    rw [parts, List.mem_cons, List.mem_singleton] at h
    rw [binary.sizeOf_spec]
    rcases h with rfl | rfl <;> omega
  | call callee arguments =>
    have hsize : sizeOf d < sizeOf arguments := List.sizeOf_lt_of_mem h
    rw [call.sizeOf_spec]
    omega

/-- What holds of an expression as soon as it holds of its parts holds of every expression. -/
theorem induction_parts {P : Expr → Prop} (h : ∀ e, (∀ d ∈ e.parts, P d) → P e) (e : Expr) :
    P e :=
  h e fun d hd ↦
    have := sizeOf_lt_of_mem_parts hd
    induction_parts h d
termination_by sizeOf e

section Collect

variable {α : Type}

mutual

/-- What is taken from the expression and from all expressions inside it. -/
def collect (own : Expr → List α) : Expr → List α
  | unary op operand => own (unary op operand) ++ collect own operand
  | binary op left right => own (binary op left right) ++ (collect own left ++ collect own right)
  | call callee arguments => own (call callee arguments) ++ collectAll own arguments
  | number lexeme => own (number lexeme)
  | string content => own (string content)
  | boolean value => own (boolean value)
  | name n => own (name n)

def collectAll (own : Expr → List α) : List Expr → List α
  | [] => []
  | e :: rest => collect own e ++ collectAll own rest

end

variable {own : Expr → List α} {a : α}

theorem collectAll_eq_flatMap (es : List Expr) : collectAll own es = es.flatMap (collect own) := by
  induction es with
  | nil => rfl
  | cons e es ih => rw [collectAll, ih, List.flatMap_cons]

theorem collect_eq (e : Expr) : e.collect own = own e ++ e.parts.flatMap (collect own) := by
  cases e <;> simp [collect, parts, collectAll_eq_flatMap]

theorem mem_collect {e : Expr} :
    a ∈ e.collect own ↔ a ∈ own e ∨ ∃ d ∈ e.parts, a ∈ d.collect own := by
  rw [collect_eq, List.mem_append, List.mem_flatMap]

end Collect

def names (e : Expr) : List String := e.collect fun d ↦ d.reads?.toList

def numerals (e : Expr) : List String := e.collect fun
  | number lexeme => [lexeme]
  | _ => []

end Expr

namespace Statement

variable {ι : Type}

/-- The expressions directly inside a statement. -/
def expressions : Statement ι → List Expr
  | declare _ e | assign _ e | ifBranch e _ | elifBranch e _ | returns e | expression e => [e]
  | elseBranch _ | function .. | block _ => []

/-- The statements directly inside a statement. -/
def body : Statement ι → List (Statement ι)
  | ifBranch _ body | elifBranch _ body | elseBranch body | function _ _ _ body | block body => body
  | declare .. | assign .. | returns _ | expression _ => []

/-- The name that a statement defines, apart from those of the statements inside it. -/
def declares? : Statement ι → Option String
  | declare name _ | function _ name _ _ => some name
  | _ => none

theorem sizeOf_lt_of_mem_body {r s : Statement ι} (h : r ∈ s.body) : sizeOf r < sizeOf s := by
  have hbody : sizeOf s.body ≤ sizeOf s := by
    cases s <;> simp +arith [body]
  exact Nat.lt_of_lt_of_le (List.sizeOf_lt_of_mem h) hbody

/-- What holds of a statement as soon as it holds of those inside it holds of every statement. -/
theorem induction_body {P : Statement ι → Prop} (h : ∀ s, (∀ r ∈ s.body, P r) → P s)
    (s : Statement ι) : P s :=
  h s fun r hr ↦
    have := sizeOf_lt_of_mem_body hr
    induction_body h r
termination_by sizeOf s

section Collect

variable {α : Type}

mutual

/-- What is taken from the statement, its expressions and all statements inside it. -/
def collect (own : Statement ι → List α) (ofExpr : Expr → List α) : Statement ι → List α
  | declare name e => own (declare name e) ++ ofExpr e
  | assign name e => own (assign name e) ++ ofExpr e
  | ifBranch e body => own (ifBranch e body) ++ (ofExpr e ++ collectAll own ofExpr body)
  | elifBranch e body => own (elifBranch e body) ++ (ofExpr e ++ collectAll own ofExpr body)
  | elseBranch body => own (elseBranch body) ++ collectAll own ofExpr body
  | returns e => own (returns e) ++ ofExpr e
  | function tag name params body =>
    own (function tag name params body) ++ collectAll own ofExpr body
  | block body => own (block body) ++ collectAll own ofExpr body
  | expression e => own (expression e) ++ ofExpr e

def collectAll (own : Statement ι → List α) (ofExpr : Expr → List α) :
    List (Statement ι) → List α
  | [] => []
  | s :: rest => collect own ofExpr s ++ collectAll own ofExpr rest

end

variable {own : Statement ι → List α} {ofExpr : Expr → List α} {a : α}

theorem collectAll_eq_flatMap (p : List (Statement ι)) :
    collectAll own ofExpr p = p.flatMap (collect own ofExpr) := by
  induction p with
  | nil => rfl
  | cons s p ih => rw [collectAll, ih, List.flatMap_cons]

theorem collect_eq (s : Statement ι) : s.collect own ofExpr
    = own s ++ (s.expressions.flatMap ofExpr ++ s.body.flatMap (collect own ofExpr)) := by
  cases s <;> simp [collect, expressions, body, collectAll_eq_flatMap]

theorem mem_collect {s : Statement ι} :
    a ∈ s.collect own ofExpr ↔
      a ∈ own s ∨ (∃ e ∈ s.expressions, a ∈ ofExpr e) ∨ ∃ r ∈ s.body, a ∈ r.collect own ofExpr := by
  rw [collect_eq, List.mem_append, List.mem_append, List.mem_flatMap, List.mem_flatMap]

end Collect

/-- The names that a statement binds or assigns to, apart from the statements inside it. -/
def ownNames : Statement ι → List String
  | declare name _ | assign name _ => [name]
  | function _ name params _ => name :: params
  | _ => []

def names (s : Statement ι) : List String := s.collect ownNames Expr.names

def numerals (s : Statement ι) : List String := s.collect (fun _ ↦ []) Expr.numerals

theorem numerals_eq (s : Statement ι) :
    s.numerals = s.expressions.flatMap Expr.numerals ++ s.body.flatMap numerals :=
  s.collect_eq

end Statement

end Scriptlet
