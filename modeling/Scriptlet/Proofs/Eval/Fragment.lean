import Scriptlet.Eval.Basic
import Scriptlet.Proofs.Tree.Parts

/-!
# Fragments of the language

A fragment is a set of expressions, statements and values that evaluation does not leave. The parts
of its trees belong to it, and so does every value that its trees can give: plain data always does,
a script function does if the statement that defines it does, and builtins hand out no other values.
It also has a set of failures, in which are all errors that its trees can lead to. A fragment that
is not about errors leaves them out and then has all of them.

A judgement says something about evaluations together with a property of their results. Evaluations
are put together from a few effects, so a judgement that holds of the effects and is kept by
sequencing holds of all evaluations of the fragment. As expressions do less than statements, there
are two judgements: `P` for expressions and `Q` for statements. An expression is the simplest
statement, so `P` implies `Q`; and a call is an expression that runs statements, but in a frame that
is dropped again, so there `Q` of the body has to give `P` of the call.

The induction over trees and over the depth of calls is done here, once for all judgements and all
fragments. What remains for a judgement is one law for each effect. A name is defined only after it
has been looked for, and `defineNew` is the law for both together.
-/

namespace Scriptlet

/-! ## Results of operators -/

theorem isCallable_of_literalValue {lexeme : String} {v : Value} (h : literalValue lexeme = .ok v) :
    v.isCallable = false := by
  rw [literalValue] at h
  split at h
  · cases h
    rfl
  · cases h

theorem UnaryOp.isCallable_of_apply {op : UnaryOp} {a v : Value} (h : op.apply a = .ok v) :
    v.isCallable = false := by
  cases a with
  | number x => cases op <;> cases h <;> rfl
  | _ => cases h

namespace BinaryOp

theorem isCallable_of_onNumbers {verb : String} {f : Float → Float → Value} {a b v : Value}
    (hf : ∀ x y, (f x y).isCallable = false) (h : onNumbers verb f a b = .ok v) :
    v.isCallable = false := by
  cases a <;> cases b <;> cases h
  exact hf _ _

/-- A logical operator takes no function, so the operand that it yields is none. -/
theorem isCallable_of_applyLogical {op : BinaryOp} {keepLeft : Value → Bool} {a b v : Value}
    (h : applyLogical op keepLeft a b = .ok v) : v.isCallable = false := by
  have hcheck : ∀ u : Value, checkLogical op u = .ok () → u.isCallable = false := by
    intro u hu
    cases u <;> first | rfl | cases hu
  rcases ha : checkLogical op a with _ | ⟨⟩
  · simp [applyLogical, ha, bind, Except.bind] at h
  rcases hb : checkLogical op b with _ | ⟨⟩
  · simp [applyLogical, ha, hb, bind, Except.bind] at h
  simp only [applyLogical, ha, hb, bind, Except.bind, pure, Except.pure, Except.ok.injEq] at h
  rw [← h]
  split
  · exact hcheck a ha
  · exact hcheck b hb

theorem isCallable_of_applyAdd {a b v : Value} (h : applyAdd a b = .ok v) :
    v.isCallable = false := by
  cases a <;> cases b <;> cases h <;> rfl

theorem isCallable_of_apply {op : BinaryOp} {a b v : Value} (h : op.apply a b = .ok v) :
    v.isCallable = false := by
  cases op with
  | add => exact isCallable_of_applyAdd h
  | equal | notEqual =>
    cases h
    rfl
  | or => exact isCallable_of_applyLogical h
  | and =>
    have hlogical : applyLogical .and (fun u ↦ !u.isTruthy) a b = .ok v := h
    exact isCallable_of_applyLogical hlogical
  | _ => exact isCallable_of_onNumbers (fun _ _ ↦ rfl) h

end BinaryOp

/-! ## Errors of operators -/

/-- The errors that neither the text of a number nor a native function is needed for. -/
def RuntimeError.isOrdinary : RuntimeError → Bool
  | typeMismatch (.notALiteral _) | typeMismatch (.reported _) => false
  | _ => true

theorem UnaryOp.isOrdinary_of_apply {op : UnaryOp} {a : Value} {e : RuntimeError}
    (h : op.apply a = .error e) : e.isOrdinary = true := by
  cases a with
  | number x => cases op <;> cases h
  | _ => cases h; rfl

namespace BinaryOp

theorem isOrdinary_of_onNumbers {verb : String} {f : Float → Float → Value} {a b : Value}
    {e : RuntimeError} (h : onNumbers verb f a b = .error e) : e.isOrdinary = true := by
  cases a <;> cases b <;> cases h <;> rfl

theorem isOrdinary_of_applyLogical {op : BinaryOp} {keepLeft : Value → Bool} {a b : Value}
    {e : RuntimeError} (h : applyLogical op keepLeft a b = .error e) : e.isOrdinary = true := by
  cases a <;> cases b <;> cases h <;> rfl

theorem isOrdinary_of_apply {op : BinaryOp} {a b : Value} {e : RuntimeError}
    (h : op.apply a b = .error e) : e.isOrdinary = true := by
  cases op with
  | add => cases a <;> cases b <;> cases h <;> rfl
  | equal | notEqual => cases h
  | or => exact isOrdinary_of_applyLogical h
  | and =>
    have hlogical : applyLogical .and (fun u ↦ !u.isTruthy) a b = .error e := h
    exact isOrdinary_of_applyLogical hlogical
  | _ => exact isOrdinary_of_onNumbers h

end BinaryOp

/-! ## Results of builtins -/

/-- Whatever it is called with, `print` gives nothing or complains about the number of
arguments. -/
theorem Builtin.invoke_print {host : Host} {f : Builtin} (hf : f.native = .print)
    (args : List Value) : (f.invoke host args).2 = .ok .undefined ∨
      ∃ name expected found,
        (f.invoke host args).2 = .error (.arityMismatch name expected found) := by
  rw [invoke]
  split
  · rw [hf, Native.run, printLine.eq_def]
    split
    · exact .inl rfl
    · exact .inr ⟨_, _, _, rfl⟩
  · exact .inr ⟨_, _, _, rfl⟩

/-! ## Fragments -/

/-- Trees and values that evaluation with the host does not leave. -/
structure Fragment (host : Host) where
  expression : Expr → Prop
  statement : Statement Nat → Prop
  value : Value → Prop
  parts {e : Expr} : expression e → ∀ part ∈ e.parts, expression part
  expressions {s : Statement Nat} : statement s → ∀ e ∈ s.expressions, expression e
  body {s : Statement Nat} : statement s → ∀ t ∈ s.body, statement t
  plain {v : Value} : v.isCallable = false → value v
  /-- A script function belongs to the fragment exactly if its statement does. -/
  function {f : UserFunction} :
    value (.function f) ↔ statement (.function f.tag f.name f.params f.body)
  native {f : Builtin} {args : List Value} {v : Value} : value (.builtin f) →
    (∀ a ∈ args, value a) → (f.invoke host args).2 = .ok v → value v
  /-- The errors that evaluation may end with. -/
  failure : RuntimeError → Prop := fun _ ↦ True
  ordinary {e : RuntimeError} : e.isOrdinary = true → failure e := by exact fun _ ↦ trivial
  literal {lexeme : String} {e : RuntimeError} : expression (.number lexeme) →
    literalValue lexeme = .error e → failure e := by exact fun _ _ ↦ trivial
  nativeFailure {f : Builtin} {args : List Value} {e : RuntimeError} : value (.builtin f) →
    (∀ a ∈ args, value a) → (f.invoke host args).2 = .error e → failure e := by
      exact fun _ _ _ ↦ trivial

/-- The whole language. -/
def Fragment.all (host : Host) : Fragment host where
  expression _ := True
  statement _ := True
  value _ := True
  parts _ _ _ := trivial
  expressions _ _ _ := trivial
  body _ _ _ := trivial
  plain _ := trivial
  function := Iff.rfl
  native _ _ _ := trivial

namespace Eval

/-! ## Effects -/

theorem run_lookup (name : String) (w : World) : (lookup name).run w =
    match w.scope.resolve name with
    | some v => .ok v w
    | none => .error (.error (.undefinedName name)) w := by
  rw [lookup, EStateM.run_bind, EStateM.run_get]
  dsimp only
  cases w.scope.resolve name <;> rfl

theorem run_assign (name : String) (v : Value) (w : World) : (assign name v).run w =
    match w.scope.assign? name v with
    | some s => .ok () { w with scope := s }
    | none => .error (.error (.undefinedName name)) w := by
  rw [assign, EStateM.run_bind, EStateM.run_get]
  dsimp only
  cases w.scope.assign? name v <;> rfl

theorem run_within {α : Type} (frame : Frame) (body : EvalM α) (w : World) :
    (within frame body).run w =
      match body.run { w with scope := w.scope.push frame } with
      | .ok a v => .ok a { v with scope := v.scope.pop }
      | .error e v => .error e { v with scope := v.scope.pop } := rfl

/-! ## Judgements -/

/-- Statements about evaluations and their results. -/
abbrev Judgement := ∀ α : Type, (α → Prop) → EvalM α → Prop

/-- The judgement is kept by sequencing, and holds of failures of the given sort. -/
structure SequenceLaws (failure : RuntimeError → Prop) (J : Judgement) : Prop where
  pure {α : Type} {post : α → Prop} {a : α} (ha : post a) : J α post (pure a)
  fail {α : Type} {post : α → Prop} {e : RuntimeError} (he : failure e) : J α post (fail e)
  bind {α β : Type} {mid : α → Prop} {post : β → Prop} {x : EvalM α} {f : α → EvalM β}
    (hx : J α mid x) (hf : ∀ a, mid a → J β post (f a)) : J β post (x >>= f)

/-- The judgement holds of the effects of expressions other than calls. -/
structure ExpressionLaws {host : Host} (F : Fragment host) (P : Judgement) : Prop
    extends SequenceLaws F.failure P where
  lookup {e : Expr} {name : String} (he : F.expression e) (hname : e.reads? = some name) :
    P Value F.value (lookup name)
  ofNative {r : NativeResult} (hr : ∀ v, r.2 = .ok v → F.value v)
    (hfail : ∀ e, r.2 = .error e → F.failure e) : P Value F.value (ofNative r)

/-- `P` holds of the effects of expressions and `Q` of the effects of statements. -/
structure StatementLaws {host : Host} (F : Fragment host) (P Q : Judgement) : Prop
    extends SequenceLaws F.failure Q where
  expressions : ExpressionLaws F P
  ofExpression {α : Type} {post : α → Prop} {x : EvalM α} (hx : P α post x) : Q α post x
  assign {name : String} {value : Expr} {v : Value} (hs : F.statement (.assign name value))
    (hv : F.value v) : Q Unit (fun _ ↦ True) (assign name v)
  defineNew {s : Statement Nat} {name : String} {v : Value} {α : Type} {post : α → Prop}
    {x y : EvalM α} (hs : F.statement s) (hname : s.declares? = some name) (hv : F.value v)
    (hx : Q α post x) (hy : Q α post y) :
    Q α post (do if ← isDefined name then x else define name v; y)
  within {f : UserFunction} {args : List Value} {post : Value → Prop} {body : EvalM Value}
    (hf : F.value (.function f)) (hargs : ∀ v ∈ args, F.value v) (hbody : Q Value post body) :
    P Value post (within (.ofPairs (f.params.zip args)) body)

/-- The judgement holds of calls of functions of the fragment. -/
def CallLaw {host : Host} (F : Fragment host) (P : Judgement)
    (call : UserFunction → List Value → EvalM Value) : Prop :=
  ∀ f args, F.value (.function f) → (∀ v ∈ args, F.value v) → P Value F.value (call f args)

variable {host : Host} {F : Fragment host} {P Q : Judgement}
  {call : UserFunction → List Value → EvalM Value}

/-! ## Expressions -/

namespace ExpressionLaws

theorem ofExcept (h : ExpressionLaws F P) {α : Type} {post : α → Prop}
    {r : Except RuntimeError α} (hr : ∀ a, r = .ok a → post a)
    (hfail : ∀ e, r = .error e → F.failure e) : P α post (ofExcept r) := by
  rcases r with e | a
  · exact h.fail (hfail e rfl)
  · exact h.pure (hr a rfl)

mutual

theorem expr (h : ExpressionLaws F P) (hcall : CallLaw F P call) :
    ∀ e : Expr, F.expression e → P Value F.value (expr host call e)
  | .number lexeme, he => by
    rw [Eval.expr]
    exact h.ofExcept (fun v hv ↦ F.plain (isCallable_of_literalValue hv)) fun e ↦ F.literal he
  | .string content, _ => by
    rw [Eval.expr]
    exact h.pure (F.plain rfl)
  | .boolean b, _ => by
    rw [Eval.expr]
    exact h.pure (F.plain rfl)
  | .name name, he => by
    rw [Eval.expr]
    exact h.lookup he rfl
  | .unary op operand, he => by
    unfold Eval.expr
    split
    · rename_i lexeme
      have hoperand := F.parts he (.number lexeme) (by simp [Expr.parts])
      refine h.bind (h.ofExcept (fun _ _ ↦ trivial) fun e ↦ F.literal hoperand) fun a _ ↦ ?_
      exact h.ofExcept (fun v hv ↦ F.plain (UnaryOp.isCallable_of_apply hv)) fun e hfail ↦
        F.ordinary (UnaryOp.isOrdinary_of_apply hfail)
    · exact h.fail (F.ordinary rfl)
  | .binary op left right, he => by
    have hparts := F.parts he
    rw [Eval.expr]
    refine h.bind (expr h hcall left (hparts left (by simp [Expr.parts]))) fun a _ ↦ ?_
    refine h.bind (expr h hcall right (hparts right (by simp [Expr.parts]))) fun b _ ↦ ?_
    exact h.ofExcept (fun v hv ↦ F.plain (BinaryOp.isCallable_of_apply hv)) fun e hfail ↦
      F.ordinary (BinaryOp.isOrdinary_of_apply hfail)
  | .call callee arguments, he => by
    rw [Eval.expr]
    refine h.bind (h.lookup he rfl) fun v hv ↦ ?_
    split
    · refine h.bind (exprs h hcall arguments (F.parts he)) fun args hargs ↦ ?_
      exact h.ofNative (fun r hr ↦ F.native hv hargs hr) fun e hfail ↦
        F.nativeFailure hv hargs hfail
    · split
      · exact h.bind (exprs h hcall arguments (F.parts he)) fun args hargs ↦ hcall _ args hv hargs
      · exact h.fail (F.ordinary rfl)
    · exact h.fail (F.ordinary rfl)

theorem exprs (h : ExpressionLaws F P) (hcall : CallLaw F P call) :
    ∀ es : List Expr, (∀ e ∈ es, F.expression e) →
      P (List Value) (fun vs ↦ ∀ v ∈ vs, F.value v) (exprs host call es)
  | [], _ => by
    rw [Eval.exprs]
    exact h.pure (by simp)
  | e :: rest, hes => by
    obtain ⟨he, hrest⟩ := List.forall_mem_cons.mp hes
    rw [Eval.exprs]
    refine h.bind (expr h hcall e he) fun v hv ↦ ?_
    refine h.bind (exprs h hcall rest hrest) fun vs hvs ↦ ?_
    exact h.pure (List.forall_mem_cons.mpr ⟨hv, hvs⟩)

end

end ExpressionLaws

/-! ## Statements -/

namespace StatementLaws

theorem exprOf (h : StatementLaws F P Q) (hcall : CallLaw F P call) {s : Statement Nat}
    (hs : F.statement s) {e : Expr} (he : e ∈ s.expressions) :
    Q Value F.value (expr host call e) :=
  h.ofExpression (h.expressions.expr hcall e (F.expressions hs e he))

mutual

theorem statement (h : StatementLaws F P Q) (hcall : CallLaw F P call) (taken : Bool) :
    ∀ s : Statement Nat, F.statement s →
      Q (Completion × Bool) (fun r ↦ F.value r.1.value) (statement host call taken s)
  | .declare name value, hs => by
    rw [Eval.statement]
    refine h.bind (h.exprOf hcall hs (by simp [Statement.expressions])) fun v hv ↦ ?_
    exact h.defineNew hs rfl hv (h.fail (F.ordinary rfl)) (h.pure (F.plain rfl))
  | .assign name value, hs => by
    rw [Eval.statement]
    refine h.bind (h.exprOf hcall hs (by simp [Statement.expressions])) fun v hv ↦ ?_
    exact h.bind (h.assign hs hv) fun _ _ ↦ h.pure (F.plain rfl)
  | .ifBranch condition body, hs => by
    rw [Eval.statement]
    refine h.bind (h.exprOf hcall hs (by simp [Statement.expressions])) fun v _ ↦ ?_
    dsimp only
    split
    · exact h.bind (statements h hcall false body (F.body hs)) fun c hc ↦ h.pure hc
    · exact h.pure (F.plain rfl)
  | .elifBranch condition body, hs => by
    rw [Eval.statement]
    split
    · exact h.pure (F.plain rfl)
    · refine h.bind (h.exprOf hcall hs (by simp [Statement.expressions])) fun v _ ↦ ?_
      dsimp only
      split
      · exact h.bind (statements h hcall false body (F.body hs)) fun c hc ↦ h.pure hc
      · exact h.pure (F.plain rfl)
  | .elseBranch body, hs => by
    rw [Eval.statement]
    split
    · exact h.pure (F.plain rfl)
    · exact h.bind (statements h hcall false body (F.body hs)) fun c hc ↦ h.pure hc
  | .returns value, hs => by
    rw [Eval.statement]
    refine h.bind (h.exprOf hcall hs (by simp [Statement.expressions])) fun v hv ↦ ?_
    split
    · exact h.fail (F.ordinary rfl)
    · exact h.pure hv
  | .function tag name params body, hs => by
    rw [Eval.statement]
    refine h.defineNew hs rfl ?_ (h.pure (F.plain rfl)) (h.pure (F.plain rfl))
    exact F.function.mpr hs
  | .block body, hs => by
    rw [Eval.statement]
    exact h.bind (statements h hcall false body (F.body hs)) fun c hc ↦ h.pure hc
  | .expression value, hs => by
    rw [Eval.statement]
    refine h.bind (h.exprOf hcall hs (by simp [Statement.expressions])) fun _ _ ↦ ?_
    exact h.pure (F.plain rfl)

theorem statements (h : StatementLaws F P Q) (hcall : CallLaw F P call) (taken : Bool) :
    ∀ body : List (Statement Nat), (∀ s ∈ body, F.statement s) →
      Q Completion (fun c ↦ F.value c.value) (statements host call taken body)
  | [], _ => by
    rw [Eval.statements]
    exact h.pure (F.plain rfl)
  | s :: rest, hbody => by
    obtain ⟨hs, hrest⟩ := List.forall_mem_cons.mp hbody
    rw [Eval.statements]
    refine h.bind (statement h hcall taken s hs) fun r hr ↦ ?_
    split
    · exact h.pure hr
    · exact statements h hcall _ rest hrest

end

/-! ## Calls and programs -/

/-- A call is a body inside a frame, and its body may call again, one level less deep. -/
theorem callWithin (h : StatementLaws F P Q)
    (hdeep : ∀ post : Value → Prop, P Value post (throw .tooDeep)) (depth : Nat) :
    CallLaw F P (callWithin host depth) := by
  induction depth with
  | zero => exact fun f args _ _ ↦ hdeep _
  | succ depth ih =>
    intro f args hf hargs
    rw [Eval.callWithin]
    refine h.within hf hargs ?_
    exact h.bind (h.statements ih false f.body (F.body (F.function.mp hf))) fun c hc ↦ h.pure hc

variable {depth : Nat}

theorem expression (h : StatementLaws F P Q) (hcall : CallLaw F P (Eval.callWithin host depth))
    {e : Expr} (he : F.expression e) : P Value F.value (expression host depth e) :=
  h.expressions.expr hcall e he

theorem block (h : StatementLaws F P Q) (hcall : CallLaw F P (Eval.callWithin host depth))
    {body : List (Statement Nat)} (hbody : ∀ s ∈ body, F.statement s) :
    Q Completion (fun c ↦ F.value c.value) (block host depth body) :=
  h.statements hcall false body hbody

theorem single (h : StatementLaws F P Q) (hcall : CallLaw F P (Eval.callWithin host depth))
    {s : Statement Nat} (hs : F.statement s) :
    Q Completion (fun c ↦ F.value c.value) (single host depth s) :=
  h.bind (h.statement hcall false s hs) fun _ hr ↦ h.pure hr

theorem program (h : StatementLaws F P Q) (hcall : CallLaw F P (Eval.callWithin host depth))
    {p : List (Statement Nat)} (hp : ∀ s ∈ p, F.statement s) :
    Q (Option Value) (fun result ↦ ∀ v, result = some v → F.value v) (program host depth p) := by
  refine h.bind (h.block hcall hp) fun completion hc ↦ ?_
  rcases completion with _ | v
  · exact h.pure fun v hv ↦ by cases hv
  · refine h.pure fun u hu ↦ ?_
    cases hu
    exact hc

end StatementLaws

end Eval

end Scriptlet
