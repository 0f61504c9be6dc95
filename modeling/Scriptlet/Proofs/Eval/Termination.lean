import Scriptlet.Proofs.Eval.Persistence
import Scriptlet.Proofs.Eval.Pointwise

/-!
# Evaluation without functions comes to an end

Evaluation follows the tree, and only the call of a script function leaves it, to go on with a body
that a value carries. So nothing else can make a script run forever: if neither the scope nor the
program has a script function in it, evaluation ends. A function that calls itself shows that
functions can.

The evaluators recurse on the tree and therefore cannot fail to end on it; what is limited is the
number of calls. In `Nested` the same evaluators call one another whatever the tree, the bodies of
functions are evaluated like any others, and a round of a loop is a call as well. The limit is on
how deep all these calls nest, so that an evaluation that runs forever goes beyond every limit.

## The measure

How deep evaluation nests is read off the tree. It is one more for an expression than for its
operands or arguments, one more for a statement than for its expressions and its body, and one more
for a list than for its first element and for the rest. A function adds nothing: its statement only
stores the body, and where no function is stored none is called.

That none is stored has to be known wherever a call may start, in the middle of an evaluation too.
No operator yields a function, no statement returns one, and builtins hand out only what they are
given, so that the trees and values without functions form a fragment.
-/

namespace Scriptlet

variable {host : Host} {ι : Type}

/-! ## How deep trees are -/

namespace Expr

mutual

/-- How deep other evaluations nest in that of the expression, at most. -/
def nesting : Expr → Nat
  | binary _ left right => max (nesting left) (nesting right) + 1
  | call _ arguments => nestingAll arguments + 1
  | number _ | string _ | boolean _ | name _ | unary _ _ => 0

/-- `nesting` for a list, whose rest is evaluated inside. -/
def nestingAll : List Expr → Nat
  | [] => 0
  | e :: rest => max (nesting e) (nestingAll rest) + 1

end

end Expr

namespace Statement

mutual

/-- How deep other evaluations nest in that of the statement, at most, so far as no functions are
called. -/
def nesting : Statement ι → Nat
  | declare _ value | assign _ value | returns value | expression value => value.nesting + 1
  | ifBranch condition body | elifBranch condition body =>
    max condition.nesting (nestingAll body) + 1
  | elseBranch body | block body => nestingAll body + 1
  | function .. => 0

/-- `nesting` for a list, whose rest is evaluated inside. -/
def nestingAll : List (Statement ι) → Nat
  | [] => 0
  | s :: rest => max (nesting s) (nestingAll rest) + 1

end

/-! ## Trees and values without functions -/

/-- The names of the functions that are defined in a statement, at whatever depth. -/
def functions (s : Statement ι) : List String :=
  s.collect (fun
    | function _ name _ _ => [name]
    | _ => []) fun _ ↦ []

theorem functions_of_mem_body {s : Statement ι} (h : s.functions = []) :
    ∀ r ∈ s.body, r.functions = [] := by
  rw [functions, collect_eq, List.append_eq_nil_iff, List.append_eq_nil_iff,
    List.flatMap_eq_nil_iff, List.flatMap_eq_nil_iff] at h
  exact h.2.2

end Statement

theorem Value.type_ne_function {v : Value} (h : ∀ f, v ≠ .function f) : v.type ≠ .function := by
  cases v with
  | function f => exact absurd rfl (h f)
  | _ => simp [type]

/-- What neither is nor defines a script function. -/
def Fragment.functionFree (hhost : host.HandsBack) : Fragment host where
  expression _ := True
  statement s := s.functions = []
  value v := v.type ≠ .function
  parts _ _ _ := trivial
  expressions _ _ _ := trivial
  body := Statement.functions_of_mem_body
  plain hv := Value.type_ne_function fun f hf ↦ by
    rw [hf] at hv
    cases hv
  function {f} := by
    -- neither side ever holds
    refine iff_of_false (fun hvalue ↦ hvalue rfl) fun hstatement ↦ ?_
    rw [Statement.functions, Statement.collect] at hstatement
    cases hstatement
  native _ hargs hinvoke := hhost.forall_invoke (fun _ ↦ Value.type_ne_function) hargs hinvoke

namespace Eval

/-! ## Evaluators that call one another -/

namespace Nested

variable (host : Host)

mutual

def expr : (limit : Nat) → Expr → EvalM Value
  | 0, _ => throw .tooDeep
  | _ + 1, .number lexeme => ofExcept (literalValue lexeme)
  | _ + 1, .string content => return .string content
  | _ + 1, .boolean b => return .boolean b
  | _ + 1, .name name => lookup name
  | _ + 1, .unary op operand =>
    match operand with
    | .number lexeme => do ofExcept (op.apply (← ofExcept (literalValue lexeme)))
    | _ => fail (.typeMismatch (.operandNotLiteral op))
  | limit + 1, .binary op left right => do
    let a ← expr limit left
    let b ← expr limit right
    ofExcept (op.apply a b)
  | limit + 1, .call callee arguments => do
    match ← lookup callee with
    | .builtin f =>
      let args ← exprs limit arguments
      ofNative (f.invoke host args)
    | .function f =>
      if arguments.length = f.params.length then
        let args ← exprs limit arguments
        call limit f args
      else fail (.arityMismatch f.name f.params.length arguments.length)
    | v => fail (.notCallable callee v.type)

def exprs : (limit : Nat) → List Expr → EvalM (List Value)
  | 0, _ => throw .tooDeep
  | _ + 1, [] => return []
  | limit + 1, e :: rest => do
    let v ← expr limit e
    let vs ← exprs limit rest
    return v :: vs

def call : (limit : Nat) → UserFunction → List Value → EvalM Value
  | 0, _, _ => throw .tooDeep
  | limit + 1, f, args =>
    within (.ofPairs (f.params.zip args)) do return (← statements limit false f.body).value

/-- Evaluates a statement, behind a chain of which a branch has been taken or not. As in
`Eval.statement`, a case that hands branches back is unreachable and left out. -/
def statement : (limit : Nat) → (taken : Bool) → Statement Nat → EvalM (Completion × Bool)
  | 0, _, _ => throw .tooDeep
  | limit + 1, _, .declare name value => do
    let v ← expr limit value
    if ← isDefined name then fail (.redefinition name)
    else
      define name v
      return (.normal, false)
  | limit + 1, _, .assign name value => do
    let v ← expr limit value
    assign name v
    return (.normal, false)
  | limit + 1, _, .ifBranch condition body => do
    let holds := (← expr limit condition).isTruthy
    if holds then return (← statements limit false body, true) else return (.normal, false)
  | limit + 1, taken, .elifBranch condition body => do
    if taken then return (.normal, true)
    else
      let holds := (← expr limit condition).isTruthy
      if holds then return (← statements limit false body, true) else return (.normal, false)
  | limit + 1, taken, .elseBranch body => do
    if taken then return (.normal, false) else return (← statements limit false body, false)
  | limit + 1, _, .returns value => do
    let v ← expr limit value
    if v.isCallable then fail (.illegalReturn v.type) else return (.returned v, false)
  | _ + 1, _, .function tag name params body => do
    if ← isDefined name then return (.normal, false)
    else
      define name (.function { tag, name, params, body })
      return (.normal, false)
  | limit + 1, _, .block body => do return (← statements limit false body, false)
  | limit + 1, _, .expression value => do
    let _ ← expr limit value
    return (.normal, false)

def statements : (limit : Nat) → (taken : Bool) → List (Statement Nat) → EvalM Completion
  | 0, _, _ => throw .tooDeep
  | _ + 1, _, [] => return .normal
  | limit + 1, taken, s :: rest => do
    match ← statement limit taken s with
    | (.returned v, _) => return .returned v
    | (.normal, taken) => statements limit taken rest

end

variable (limit : Nat)

def single (s : Statement Nat) : EvalM Completion := do return (← statement host limit false s).1

def program (p : List (Statement Nat)) : EvalM (Option Value) := do
  match ← statements host limit false p with
  | .normal => return none
  | .returned v => return some v

end Nested

/-! ## Without functions no call is made -/

section FunctionFree

variable (hhost : host.HandsBack) (call : UserFunction → List Value → EvalM Value)

/-- From every world without functions, the evaluation ends in one again, and not for lack of
calls. -/
def Ending (hhost : host.HandsBack) : Judgement :=
  Throughout (.functionFree hhost) (StopsOnlyFor (· ≠ .tooDeep)) true

theorem ending_laws : StatementLaws (.functionFree hhost)
    (Throughout (.functionFree hhost) (StopsOnlyFor (· ≠ .tooDeep)) false) (Ending hhost) :=
  throughout_laws (stopsOnlyFor_laws fun e _ hdeep ↦ by cases hdeep)

/-- Calls may do anything, since there is no function to call. -/
theorem callLaw_functionFree (P : Judgement) : CallLaw (.functionFree hhost) P call :=
  fun _ _ hf _ ↦ absurd rfl hf

theorem ending_expr (e : Expr) :
    Ending hhost Value (fun v ↦ v.type ≠ .function) (expr host call e) :=
  (ending_laws hhost).ofExpression
    ((ending_laws hhost).expressions.expr (callLaw_functionFree hhost call _) e trivial)

theorem ending_exprs (es : List Expr) :
    Ending hhost (List Value) (fun vs ↦ ∀ v ∈ vs, v.type ≠ .function) (exprs host call es) :=
  (ending_laws hhost).ofExpression
    ((ending_laws hhost).expressions.exprs (callLaw_functionFree hhost call _) es
      fun _ _ ↦ trivial)

theorem ending_statement (taken : Bool) {s : Statement Nat} (hs : s.functions = []) :
    Ending hhost (Completion × Bool) (fun r ↦ r.1.value.type ≠ .function)
      (statement host call taken s) :=
  (ending_laws hhost).statement (callLaw_functionFree hhost call _) taken s hs

theorem ending_statements (taken : Bool) {body : List (Statement Nat)}
    (hbody : ∀ s ∈ body, s.functions = []) :
    Ending hhost Completion (fun c ↦ c.value.type ≠ .function)
      (statements host call taken body) :=
  (ending_laws hhost).statements (callLaw_functionFree hhost call _) taken body hbody

end FunctionFree

/-! ## Two evaluators, one outcome -/

section Settles

variable {hhost : host.HandsBack} {α β : Type}

/-- From every world without functions both evaluations come to the same outcome. -/
def Settles (u act : EvalM α) : Prop :=
  ∀ w, w.scope.Holds (fun v ↦ v.type ≠ .function) → u.run w = act.run w

theorem Settles.refl (act : EvalM α) : Settles act act := fun _ _ ↦ rfl

/-- What comes second starts where the first part ends, in a world without functions again. -/
theorem Settles.bind {mid : α → Prop} {u x : EvalM α} {f g : α → EvalM β} (hx : Settles u x)
    (hmid : Ending hhost α mid x) (hf : ∀ a, mid a → Settles (f a) (g a)) :
    Settles (u >>= f) (x >>= g) := by
  intro w hw
  rw [EStateM.run_bind, EStateM.run_bind, hx w hw]
  rcases hrun : x.run w with ⟨a, v⟩ | ⟨halt, v⟩
  · obtain ⟨ha, hv⟩ := hmid.1.of_ok hw hrun
    exact hf a ha v hv
  · rfl

theorem Settles.bind_same {u x : EvalM α} (hx : Settles u x) (f : α → EvalM β) :
    Settles (u >>= f) (x >>= f) := by
  intro w hw
  rw [EStateM.run_bind, EStateM.run_bind, hx w hw]

end Settles

section Trees

variable (hhost : host.HandsBack) (call : UserFunction → List Value → EvalM Value)

include hhost

mutual

theorem settles_expr : ∀ (e : Expr) (limit : Nat), e.nesting < limit →
    Settles (Nested.expr host limit e) (expr host call e)
  | _, 0, h => absurd h (Nat.not_lt_zero _)
  | .number lexeme, limit + 1, _ => by
    rw [Nested.expr, expr]
    exact .refl _
  | .string content, limit + 1, _ => by
    rw [Nested.expr, expr]
    exact .refl _
  | .boolean b, limit + 1, _ => by
    rw [Nested.expr, expr]
    exact .refl _
  | .name name, limit + 1, _ => by
    rw [Nested.expr, expr]
    exact .refl _
  | .unary op operand, limit + 1, _ => by
    cases operand <;> exact .refl _
  | .binary op left right, limit + 1, h => by
    rw [Expr.nesting] at h
    rw [Nested.expr, expr]
    refine (settles_expr left limit (by omega)).bind (ending_expr hhost call left) fun a _ ↦ ?_
    exact (settles_expr right limit (by omega)).bind_same _
  | .call callee arguments, limit + 1, h => by
    rw [Expr.nesting] at h
    have hargs := settles_exprs arguments limit (by omega)
    have hcallee := ending_expr hhost call (.name callee)
    rw [expr] at hcallee
    rw [Nested.expr, expr]
    refine (Settles.refl _).bind hcallee fun v hv ↦ ?_
    -- only here could evaluation leave the tree, and the callee is no function
    cases v with
    | builtin f => exact hargs.bind_same _
    | function f => exact absurd rfl hv
    | number | string | boolean | undefined => exact .refl _

theorem settles_exprs : ∀ (es : List Expr) (limit : Nat), Expr.nestingAll es < limit →
    Settles (Nested.exprs host limit es) (exprs host call es)
  | _, 0, h => absurd h (Nat.not_lt_zero _)
  | [], limit + 1, _ => by
    rw [Nested.exprs, exprs]
    exact .refl _
  | e :: rest, limit + 1, h => by
    rw [Expr.nestingAll] at h
    rw [Nested.exprs, exprs]
    refine (settles_expr e limit (by omega)).bind (ending_expr hhost call e) fun v _ ↦ ?_
    exact (settles_exprs rest limit (by omega)).bind_same _

end

mutual

theorem settles_statement (taken : Bool) : ∀ (s : Statement Nat) (limit : Nat),
    s.functions = [] → s.nesting < limit →
    Settles (Nested.statement host limit taken s) (statement host call taken s)
  | _, 0, _, h => absurd h (Nat.not_lt_zero _)
  | .declare name value, limit + 1, _, h => by
    rw [Statement.nesting] at h
    rw [Nested.statement, statement]
    exact (settles_expr hhost call value limit (by omega)).bind_same _
  | .assign name value, limit + 1, _, h => by
    rw [Statement.nesting] at h
    rw [Nested.statement, statement]
    exact (settles_expr hhost call value limit (by omega)).bind_same _
  | .ifBranch condition body, limit + 1, hs, h => by
    rw [Statement.nesting] at h
    have hbody := settles_statements false body limit (Statement.functions_of_mem_body hs)
      (by omega)
    rw [Nested.statement, statement]
    refine (settles_expr hhost call condition limit (by omega)).bind
      (ending_expr hhost call condition) fun v _ ↦ ?_
    dsimp only
    split
    · exact hbody.bind_same _
    · exact .refl _
  | .elifBranch condition body, limit + 1, hs, h => by
    rw [Statement.nesting] at h
    have hbody := settles_statements false body limit (Statement.functions_of_mem_body hs)
      (by omega)
    rw [Nested.statement, statement]
    split
    · exact .refl _
    · refine (settles_expr hhost call condition limit (by omega)).bind
        (ending_expr hhost call condition) fun v _ ↦ ?_
      dsimp only
      split
      · exact hbody.bind_same _
      · exact .refl _
  | .elseBranch body, limit + 1, hs, h => by
    rw [Statement.nesting] at h
    have hbody := settles_statements false body limit (Statement.functions_of_mem_body hs)
      (by omega)
    rw [Nested.statement, statement]
    split
    · exact .refl _
    · exact hbody.bind_same _
  | .returns value, limit + 1, _, h => by
    rw [Statement.nesting] at h
    rw [Nested.statement, statement]
    exact (settles_expr hhost call value limit (by omega)).bind_same _
  | .function tag name params body, limit + 1, _, _ => by
    rw [Nested.statement, statement]
    exact .refl _
  | .block body, limit + 1, hs, h => by
    rw [Statement.nesting] at h
    have hbody := settles_statements false body limit (Statement.functions_of_mem_body hs)
      (by omega)
    rw [Nested.statement, statement]
    exact hbody.bind_same _
  | .expression value, limit + 1, _, h => by
    rw [Statement.nesting] at h
    rw [Nested.statement, statement]
    exact (settles_expr hhost call value limit (by omega)).bind_same _

theorem settles_statements (taken : Bool) : ∀ (body : List (Statement Nat)) (limit : Nat),
    (∀ s ∈ body, s.functions = []) → Statement.nestingAll body < limit →
    Settles (Nested.statements host limit taken body) (statements host call taken body)
  | _, 0, _, h => absurd h (Nat.not_lt_zero _)
  | [], limit + 1, _, _ => by
    rw [Nested.statements, statements]
    exact .refl _
  | s :: rest, limit + 1, hbody, h => by
    obtain ⟨hs, hrest⟩ := List.forall_mem_cons.mp hbody
    rw [Statement.nestingAll] at h
    rw [Nested.statements, statements]
    refine (settles_statement taken s limit hs (by omega)).bind
      (ending_statement hhost call taken hs) fun r _ ↦ ?_
    obtain ⟨completion, taken⟩ := r
    cases completion with
    | returned v => exact .refl _
    | normal => exact settles_statements taken rest limit hrest (by omega)

end

end Trees

/-! ## Coming to an end -/

/-- From the world, evaluation comes to an end: however few calls of functions may nest, it does not
lack any, and the number makes no difference to the outcome. If all calls of evaluators count, the
outcome is the same under every limit above `bound`. The scope holds no function afterwards. -/
structure Finishes {α : Type} (bound : Nat) (u : (limit : Nat) → EvalM α)
    (act : (depth : Nat) → EvalM α) (w : World) : Prop where
  outcome : ∀ limit depth, bound < limit → (u limit).run w = (act depth).run w
  ends : ∀ depth v, (act depth).run w ≠ .error .tooDeep v
  keeps : ∀ depth, (scopeAfter (act depth) w).Holds fun v ↦ v.type ≠ .function

theorem finishes_of_settles {α : Type} {bound : Nat} {u : (limit : Nat) → EvalM α}
    {act : (depth : Nat) → EvalM α} {w : World} {hhost : host.HandsBack} {post : α → Prop}
    (hw : w.scope.Holds fun v ↦ v.type ≠ .function)
    (hsettles : ∀ limit depth, bound < limit → Settles (u limit) (act depth))
    (hending : ∀ depth, Ending hhost α post (act depth)) : Finishes bound u act w where
  outcome limit depth hlimit := hsettles limit depth hlimit w hw
  ends depth v hrun := (hending depth).2 w hw _ v hrun rfl
  keeps depth := ((hending depth).1 w hw).scopeAfter.holds hw

/-- Evaluation without script functions comes to an end. Let the scope hold none, and let the native
functions return none, unless they are given it. Then every expression and every list of arguments,
and every statement, block and program in which no function is defined, is evaluated to its end,
within a limit that is read off the tree. -/
theorem evaluation_without_functions_finishes (hhost : host.HandsBack) {w : World}
    (hw : w.scope.Holds fun v ↦ v.type ≠ .function) :
    (∀ e : Expr, Finishes e.nesting (Nested.expr host · e) (expression host · e) w) ∧
      (∀ es : List Expr, Finishes (Expr.nestingAll es) (Nested.exprs host · es)
        (fun depth ↦ exprs host (callWithin host depth) es) w) ∧
      (∀ s : Statement Nat, s.functions = [] →
        Finishes s.nesting (Nested.single host · s) (single host · s) w) ∧
      (∀ taken (body : List (Statement Nat)), (∀ s ∈ body, s.functions = []) →
        Finishes (Statement.nestingAll body) (Nested.statements host · taken body)
          (fun depth ↦ statements host (callWithin host depth) taken body) w) ∧
      (∀ body : List (Statement Nat), (∀ s ∈ body, s.functions = []) →
        Finishes (Statement.nestingAll body) (Nested.statements host · false body)
          (block host · body) w) ∧
      ∀ p : List (Statement Nat), (∀ s ∈ p, s.functions = []) →
        Finishes (Statement.nestingAll p) (Nested.program host · p) (program host · p) w := by
  have hlaws := ending_laws hhost
  refine ⟨fun e ↦ ?_, fun es ↦ ?_, fun s hs ↦ ?_, fun taken body hbody ↦ ?_, fun body hbody ↦ ?_,
    fun p hp ↦ ?_⟩
  · exact finishes_of_settles hw (fun limit depth ↦ settles_expr hhost _ e limit)
      fun depth ↦ ending_expr hhost _ e
  · exact finishes_of_settles hw (fun limit depth ↦ settles_exprs hhost _ es limit)
      fun depth ↦ ending_exprs hhost _ es
  · exact finishes_of_settles hw
      (fun limit depth hlimit ↦ (settles_statement hhost _ false s limit hs hlimit).bind_same _)
      fun depth ↦ hlaws.single (callLaw_functionFree hhost _ _) hs
  · exact finishes_of_settles hw
      (fun limit depth ↦ settles_statements hhost _ taken body limit hbody)
      fun depth ↦ ending_statements hhost _ taken hbody
  · exact finishes_of_settles hw
      (fun limit depth ↦ settles_statements hhost _ false body limit hbody)
      fun depth ↦ ending_statements hhost _ false hbody
  · exact finishes_of_settles hw
      (fun limit depth hlimit ↦ (settles_statements hhost _ false p limit hp hlimit).bind_same _)
      fun depth ↦ hlaws.program (callLaw_functionFree hhost _ _) hp

/-- Two frames without script functions; `pick` returns its argument, which may be a builtin. -/
def builtinFrames : World where
  scope := .inner ⟨[("kept", .boolean false)]⟩ <| .root
    ⟨[("print", .builtin ⟨0, "print", 1, .print⟩),
      ("pick", .builtin ⟨1, "pick", 1, .host "first"⟩)]⟩

/-- Branches that follow no `if`, of which both run, and a call through another name of `print`. -/
def strayBranches : List (Statement Nat) :=
  [.elifBranch (.name "pick") [.block [.declare "show" (.call "pick" [.name "print"])]],
    .assign "kept" (.name "show"),
    .elseBranch [.expression (.call "kept" [.binary .add (.string "a") (.string "b")])],
    .returns (.call "pick" [.call "pick" [.string "end"]])]

/-- The program nests nine evaluations in the first. It ends with no call of a function allowed, and
under a limit of ten, but not under one of nine. -/
theorem stray_branches_and_builtins_finish :
    (∃ v, (program Host.stock 0 strayBranches).run builtinFrames = .ok (some (.string "end")) v ∧
        v.printed = "ab\n") ∧
      Finishes 9 (Nested.program Host.stock · strayBranches)
        (program Host.stock · strayBranches) builtinFrames ∧
      ∃ v, (Nested.program Host.stock 9 strayBranches).run builtinFrames = .error .tooDeep v := by
  have hstored : builtinFrames.scope.Holds fun v ↦ v.type ≠ .function :=
    Scope.holds_of_forall_bindings (by decide)
  have h := evaluation_without_functions_finishes handsBack_stock hstored
  have hnesting : Statement.nestingAll strayBranches = 9 := by decide
  have hprogram := h.2.2.2.2.2 strayBranches (by decide)
  rw [hnesting] at hprogram
  exact ⟨⟨_, rfl, rfl⟩, hprogram, ⟨_, rfl⟩⟩

/-! ## Functions may run forever -/

/-- A function that calls itself and does nothing else. -/
def selfCall (tag : Nat) (name : String) : UserFunction :=
  ⟨tag, name, [], [.expression (.call name [])]⟩

section SelfCall

variable {tag : Nat} {name : String} {w : World}

theorem exists_tooDeep_of_within {frame : Frame} {body : EvalM Value}
    (h : ∃ v, body.run { w with scope := w.scope.push frame } = .error .tooDeep v) :
    ∃ v, (within frame body).run w = .error .tooDeep v := by
  obtain ⟨v, hv⟩ := h
  exact ⟨{ v with scope := v.scope.pop }, by rw [run_within, hv]⟩

theorem exists_tooDeep_of_selfCall (depth : Nat)
    (h : w.scope.resolve name = some (.function (selfCall tag name))) :
    ∃ v, (expression host depth (.call name [])).run w = .error .tooDeep v := by
  induction depth generalizing w with
  | zero =>
    rw [expression, expr, EStateM.run_bind, run_lookup, h]
    exact ⟨w, rfl⟩
  | succ depth ih =>
    have hcall : (expression host (depth + 1) (.call name [])).run w
        = (callWithin host (depth + 1) (selfCall tag name) []).run w := by
      rw [expression, expr, EStateM.run_bind, run_lookup, h]
      rfl
    rw [hcall, callWithin]
    refine exists_tooDeep_of_within ?_
    obtain ⟨v, hv⟩ := ih (w := { w with scope := w.scope.push (.ofPairs []) }) h
    rw [expression] at hv
    refine ⟨v, ?_⟩
    simp only [selfCall, statements, statement, EStateM.run_bind, List.zip_nil_left, hv]

theorem exists_tooDeep_of_selfCall_nested : ∀ (limit : Nat) {w : World},
    w.scope.resolve name = some (.function (selfCall tag name)) →
    ∃ v, (Nested.expr host limit (.call name [])).run w = .error .tooDeep v
  | 0, w, _ => ⟨w, rfl⟩
  | 1, w, h | 2, w, h | 3, w, h => by
    rw [Nested.expr, EStateM.run_bind, run_lookup, h]
    exact ⟨_, rfl⟩
  -- between a call and the next one inside stand the body, its list and its statement
  | limit + 4, w, h => by
    have hcall : (Nested.expr host (limit + 4) (.call name [])).run w
        = (Nested.call host (limit + 3) (selfCall tag name) []).run w := by
      rw [Nested.expr, EStateM.run_bind, run_lookup, h]
      rfl
    rw [hcall, Nested.call]
    refine exists_tooDeep_of_within ?_
    obtain ⟨v, hv⟩ := exists_tooDeep_of_selfCall_nested limit
      (w := { w with scope := w.scope.push (.ofPairs []) }) h
    refine ⟨v, ?_⟩
    simp only [selfCall, Nested.statements, Nested.statement, EStateM.run_bind, List.zip_nil_left,
      hv]

/-- Where a function that calls itself is visible, its call goes beyond every limit. -/
theorem selfCall_never_ends (h : w.scope.resolve name = some (.function (selfCall tag name))) :
    (∀ limit, ∃ v, (Nested.expr host limit (.call name [])).run w = .error .tooDeep v) ∧
      ∀ depth, ∃ v, (expression host depth (.call name [])).run w = .error .tooDeep v :=
  ⟨fun limit ↦ exists_tooDeep_of_selfCall_nested limit h,
    fun depth ↦ exists_tooDeep_of_selfCall depth h⟩

end SelfCall

end Eval

end Scriptlet
