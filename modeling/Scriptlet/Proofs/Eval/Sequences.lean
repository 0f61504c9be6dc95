import Scriptlet.Proofs.Eval.Chains
import Scriptlet.Proofs.Parse.Joining

/-!
# Lists of statements put together, and blocks inside them

Of a list that is put together from two, the second part is evaluated if the first ends normally, and
then it sees nothing of the first but the world. The flag for the current chain may be set, but an
independent list, one that does not start with an `elif` or `else`, does not look at it
(`statements_append`).

So blocks are transparent. A block starts with a flag of its own and leaves none behind. Its
statements, written in its place, start with the flag of the list and leave theirs to what follows.
If they and what follows are independent, nobody looks at the difference, and a return inside ends
the list in either case. A branch whose condition is `true` differs from a block in the flag that it
leaves, and no one looks at that either.
-/

namespace Scriptlet

namespace Parse

/-! ## Independent lists -/

variable {ι : Type}

theorem independent_cons {s : Statement ι} (h : continuesBranch s = false)
    (p : List (Statement ι)) : Independent (s :: p) := by
  intro r hr
  cases hr
  exact h

theorem Independent.append {p q : List (Statement ι)} (hp : Independent p) (hq : Independent q) :
    Independent (p ++ q) := by
  rcases p with _ | ⟨s, p⟩
  · exact hq
  · exact independent_cons (hp s rfl) (p ++ q)

end Parse

namespace Eval

/-! ## Lists put together -/

section Lists

variable {host : Host} {call : UserFunction → List Value → EvalM Value}

/-- Only a statement that continues a chain looks at what happened before it. -/
theorem statement_of_not_continues {s : Statement Nat} (h : Parse.continuesBranch s = false)
    (taken : Bool) : statement host call taken s = statement host call false s := by
  cases s with
  | elifBranch condition body => cases h
  | elseBranch body => cases h
  | _ => rfl

theorem statements_of_independent {q : List (Statement Nat)} (hq : Parse.Independent q)
    (taken : Bool) : statements host call taken q = statements host call false q := by
  rcases q with _ | ⟨s, q⟩
  · rfl
  · rw [statements, statements, statement_of_not_continues (hq s rfl)]

theorem statements_append {q : List (Statement Nat)} (hq : Parse.Independent q)
    (p : List (Statement Nat)) (taken : Bool) :
    statements host call taken (p ++ q)
      = andThen (statements host call taken p) (statements host call false q) := by
  induction p generalizing taken with
  | nil => rw [List.nil_append, statements, pure_normal_andThen, statements_of_independent hq]
  | cons s p ih =>
    rw [List.cons_append, statements, statements, andThen, bind_assoc]
    refine bind_congr fun r ↦ ?_
    rcases r with ⟨_ | v, taken'⟩
    · exact ih taken'
    · rfl

theorem program_append (depth : Nat) {q : List (Statement Nat)} (hq : Parse.Independent q)
    (p : List (Statement Nat)) :
    program host depth (p ++ q) = (do
      match ← program host depth p with
      | none => program host depth q
      | some v => return some v) := by
  rw [program, program, block, block, statements_append hq, andThen, bind_assoc, bind_assoc]
  refine bind_congr fun completion ↦ ?_
  rcases completion with _ | v
  · rw [pure_bind]
    rfl
  · rw [pure_bind, pure_bind]

/-! ## Blocks -/

variable {body post : List (Statement Nat)}

theorem statements_block (taken : Bool) (body rest : List (Statement Nat)) :
    statements host call taken (.block body :: rest)
      = andThen (statements host call false body) (statements host call false rest) := by
  refine statements_cons ?_ rest
  rw [statement]

theorem statements_if_true (taken : Bool) (body rest : List (Statement Nat)) :
    statements host call taken (.ifBranch (.boolean true) body :: rest)
      = andThen (statements host call false body) (statements host call true rest) := by
  refine statements_cons ?_ rest
  rw [statement, expr, pure_bind]
  rfl

/-- A statement that does what a body and an independent rest do can be written for the body,
wherever it stands. -/
theorem statements_inline {s : Statement Nat} (hs : Parse.continuesBranch s = false)
    (hbody : Parse.Independent body) (hpost : Parse.Independent post)
    (h : statements host call false (s :: post)
      = andThen (statements host call false body) (statements host call false post))
    (pre : List (Statement Nat)) (taken : Bool) :
    statements host call taken (pre ++ [s] ++ post)
      = statements host call taken (pre ++ body ++ post) := by
  rw [List.append_assoc, List.append_assoc, List.singleton_append,
    statements_append (Parse.independent_cons hs post), h,
    statements_append (hbody.append hpost), statements_append hpost]

end Lists

/-- Blocks are transparent: evaluating a block, or a branch whose condition is `true`, is evaluating
its statements in its place. The two evaluations are equal as functions of the world, so they agree
in how they end, in what they print and in the scopes they leave. -/
theorem blocks_are_transparent (host : Host) (depth : Nat) (pre : List (Statement Nat))
    {body post : List (Statement Nat)} (hbody : Parse.Independent body)
    (hpost : Parse.Independent post) :
    block host depth (pre ++ [.block body] ++ post) = block host depth (pre ++ body ++ post) ∧
      block host depth (pre ++ [.ifBranch (.boolean true) body] ++ post)
        = block host depth (pre ++ body ++ post) := by
  constructor
  · exact statements_inline rfl hbody hpost (statements_block false body post) pre false
  · refine statements_inline rfl hbody hpost ?_ pre false
    rw [statements_if_true, statements_of_independent hpost]

/-- A return from inside a chain in a block, which stands behind a branch that was taken. -/
theorem return_from_inside_block :
    (block Host.none 0
      ([.ifBranch (.boolean true) []]
        ++ [.block [.ifBranch (.boolean false) [], .elseBranch [.returns (.string "inside")]]]
        ++ [.returns (.string "behind")])).run { scope := default }
      = .ok (.returned (.string "inside")) { scope := default } := by
  have hinline := (blocks_are_transparent Host.none 0 [.ifBranch (.boolean true) []]
    (Parse.independent_cons (s := .ifBranch (.boolean false) []) rfl
      [.elseBranch [.returns (.string "inside")]])
    (Parse.independent_cons (s := .returns (.string "behind")) rfl [])).1
  rw [hinline]
  rfl

end Eval

end Scriptlet
