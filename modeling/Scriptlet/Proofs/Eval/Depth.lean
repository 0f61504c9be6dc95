import Scriptlet.Session
import Scriptlet.Proofs.Eval.Fragment

/-!
# More calls change nothing that ends

How many calls may nest is a bound on the evaluation and no part of the language. An evaluation that
lacks calls has come no further than the bound let it; any other has an outcome, and under a larger
bound it has the same one. So an evaluation that ends under some bound has one outcome, and one that
lacks calls under every bound never ends.

`Extends` compares two evaluations, of which the first may lack calls. It is kept by sequencing and
by frames. Evaluation under two bounds differs only in what calls do, so the trees inherit it from
the calls, and the calls have it by induction on the smaller bound.
-/

namespace Scriptlet

namespace Eval

variable {host : Host} {α β : Type}

/-- Unless the first evaluation lacks calls, the second comes to the same outcome. -/
def Extends (u act : EvalM α) : Prop :=
  ∀ w, (∀ v, u.run w ≠ .error .tooDeep v) → act.run w = u.run w

namespace Extends

theorem refl (act : EvalM α) : Extends act act := fun _ _ ↦ rfl

theorem bind {u x : EvalM α} {f g : α → EvalM β} (hx : Extends u x)
    (hf : ∀ a, Extends (f a) (g a)) : Extends (u >>= f) (x >>= g) := by
  intro w hw
  rw [EStateM.run_bind] at hw
  have hfirst : ∀ v, u.run w ≠ .error .tooDeep v := fun v hv ↦ hw v (by rw [hv])
  rw [EStateM.run_bind, EStateM.run_bind, hx w hfirst]
  rcases hrun : u.run w with ⟨a, v⟩ | ⟨halt, v⟩
  · rw [hrun] at hw
    exact hf a v hw
  · rfl

theorem bind_same {u x : EvalM α} (hx : Extends u x) (f : α → EvalM β) :
    Extends (u >>= f) (x >>= f) :=
  hx.bind fun a ↦ refl (f a)

theorem within {u x : EvalM α} (hx : Extends u x) (frame : Frame) :
    Extends (within frame u) (within frame x) := by
  intro w hw
  rw [run_within] at hw
  have hbody : ∀ v, u.run { w with scope := w.scope.push frame } ≠ .error .tooDeep v :=
    fun v hv ↦ hw { v with scope := v.scope.pop } (by rw [hv])
  rw [run_within, run_within, hx _ hbody]

end Extends

/-! ## Trees -/

section Trees

variable {call call' : UserFunction → List Value → EvalM Value}

mutual

theorem extends_expr (hcall : ∀ f args, Extends (call f args) (call' f args)) :
    ∀ e : Expr, Extends (expr host call e) (expr host call' e)
  | .number lexeme => .refl _
  | .string content => .refl _
  | .boolean b => .refl _
  | .name name => .refl _
  | .unary op operand => by
    cases operand <;> exact .refl _
  | .binary op left right => by
    rw [expr, expr]
    exact (extends_expr hcall left).bind fun a ↦ (extends_expr hcall right).bind_same _
  | .call callee arguments => by
    have hargs := extends_exprs hcall arguments
    rw [expr, expr]
    refine (Extends.refl _).bind fun v ↦ ?_
    cases v with
    | builtin f => exact hargs.bind_same _
    | function f =>
      dsimp only
      split
      · exact hargs.bind fun args ↦ hcall f args
      · exact .refl _
    | number | string | boolean | undefined => exact .refl _

theorem extends_exprs (hcall : ∀ f args, Extends (call f args) (call' f args)) :
    ∀ es : List Expr, Extends (exprs host call es) (exprs host call' es)
  | [] => .refl _
  | e :: rest => by
    rw [exprs, exprs]
    exact (extends_expr hcall e).bind fun v ↦ (extends_exprs hcall rest).bind_same _

end

mutual

theorem extends_statement (hcall : ∀ f args, Extends (call f args) (call' f args))
    (taken : Bool) : ∀ s : Statement Nat,
    Extends (statement host call taken s) (statement host call' taken s)
  | .declare name value | .assign name value | .returns value | .expression value => by
    rw [statement, statement]
    exact (extends_expr hcall value).bind_same _
  | .ifBranch condition body => by
    rw [statement, statement]
    refine (extends_expr hcall condition).bind fun v ↦ ?_
    dsimp only
    split
    · exact (extends_statements hcall false body).bind_same _
    · exact .refl _
  | .elifBranch condition body => by
    rw [statement, statement]
    split
    · exact .refl _
    · refine (extends_expr hcall condition).bind fun v ↦ ?_
      dsimp only
      split
      · exact (extends_statements hcall false body).bind_same _
      · exact .refl _
  | .elseBranch body => by
    rw [statement, statement]
    split
    · exact .refl _
    · exact (extends_statements hcall false body).bind_same _
  | .function tag name params body => by
    rw [statement, statement]
    exact .refl _
  | .block body => by
    rw [statement, statement]
    exact (extends_statements hcall false body).bind_same _

theorem extends_statements (hcall : ∀ f args, Extends (call f args) (call' f args))
    (taken : Bool) : ∀ body : List (Statement Nat),
    Extends (statements host call taken body) (statements host call' taken body)
  | [] => .refl _
  | s :: rest => by
    rw [statements, statements]
    refine (extends_statement hcall taken s).bind fun r ↦ ?_
    obtain ⟨completion, taken⟩ := r
    cases completion with
    | returned v => exact .refl _
    | normal => exact extends_statements hcall taken rest

end

end Trees

/-! ## Calls and programs -/

section Bounds

variable {depth depth' : Nat}

theorem extends_callWithin (h : depth ≤ depth') (f : UserFunction) (args : List Value) :
    Extends (callWithin host depth f args) (callWithin host depth' f args) := by
  induction depth generalizing depth' f args with
  | zero => exact fun w hw ↦ absurd rfl (hw w)
  | succ depth ih =>
    obtain ⟨depth', rfl⟩ : ∃ n, depth' = n + 1 := ⟨depth' - 1, by omega⟩
    rw [callWithin, callWithin]
    have hinner := ih (Nat.le_of_succ_le_succ h)
    exact ((extends_statements hinner false f.body).bind_same _).within _

theorem extends_expression (h : depth ≤ depth') (e : Expr) :
    Extends (expression host depth e) (expression host depth' e) :=
  extends_expr (extends_callWithin h) e

theorem extends_single (h : depth ≤ depth') (s : Statement Nat) :
    Extends (single host depth s) (single host depth' s) :=
  (extends_statement (extends_callWithin h) false s).bind_same _

theorem extends_block (h : depth ≤ depth') (body : List (Statement Nat)) :
    Extends (block host depth body) (block host depth' body) :=
  extends_statements (extends_callWithin h) false body

theorem extends_program (h : depth ≤ depth') (p : List (Statement Nat)) :
    Extends (program host depth p) (program host depth' p) :=
  (extends_block h p).bind_same _

end Bounds

end Eval

/-! ## Sessions -/

namespace Session

variable {host : Host} {depth depth' : Nat}

theorem evaluate_eq_of_extends {α : Type} {s : Session} {u act : EvalM α}
    (h : Eval.Extends u act) (hends : (s.evaluate u).2.ends = true) :
    s.evaluate act = s.evaluate u := by
  have hrun : act.run { scope := s.scope } = u.run { scope := s.scope } := by
    refine h _ fun v hv ↦ ?_
    rw [evaluate, hv] at hends
    cases hends
  rw [evaluate, evaluate, hrun]

/-- A run that ends is the same under every larger bound. -/
theorem run_eq_of_le (h : depth ≤ depth') {s : Session} {source : String}
    (hends : (s.run host depth source).2.ends = true) :
    s.run host depth' source = s.run host depth source := by
  rw [run] at hends
  rw [run, run]
  rcases hcompile : compile source with e | p
  · rfl
  · rw [hcompile] at hends
    exact evaluate_eq_of_extends (Eval.extends_program h _) hends

end Session

end Scriptlet
