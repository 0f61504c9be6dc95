import Scriptlet.Proofs.Eval.Fragment

/-!
# Evaluations by their effects

An evaluation is put together from a few effects: looking a name up, defining and assigning names,
printing, and running a body inside a frame of its own. A property of evaluations that holds of the
effects and is kept by sequencing holds of every evaluation.

Two properties are carried along, since expressions do less than statements. `P` is proved of
expressions and `Q` of statements. An expression is the simplest statement, so `P` implies `Q`; and
a call is an expression that runs statements, but in a frame that is dropped again, so there `Q` of
the body has to give `P` of the call.

This is the case of the whole language, in which nothing has to be known of results. A property is
made into a judgement by adding what the results are, so that the induction over fragments applies.
-/

namespace Scriptlet.Eval

/-- The property is kept by sequencing. -/
structure SequenceRules (P : ∀ α : Type, EvalM α → Prop) : Prop where
  pure {α : Type} (a : α) : P α (pure a)
  throw {α : Type} (h : Halt) : P α (throw h)
  bind {α β : Type} {x : EvalM α} {f : α → EvalM β} (hx : P α x) (hf : ∀ a, P β (f a)) :
    P β (x >>= f)

/-- The property holds of the effects of expressions other than calls. -/
structure ExpressionRules (P : ∀ α : Type, EvalM α → Prop) : Prop extends SequenceRules P where
  lookup (name : String) : P Value (lookup name)
  ofNative (r : NativeResult) : P Value (ofNative r)

/-- `P` holds of the effects of expressions and `Q` of the effects of statements. -/
structure StatementRules (P Q : ∀ α : Type, EvalM α → Prop) : Prop extends SequenceRules Q where
  expressions : ExpressionRules P
  ofExpression {α : Type} {x : EvalM α} (hx : P α x) : Q α x
  isDefined (name : String) : Q Bool (isDefined name)
  define (name : String) (v : Value) : Q Unit (define name v)
  assign (name : String) (v : Value) : Q Unit (assign name v)
  within {α : Type} (frame : Frame) {body : EvalM α} (hbody : Q α body) : P α (within frame body)

/-! ## Results -/

/-- Every result of the evaluation has the property. -/
def Yields {α : Type} (post : α → Prop) (act : EvalM α) : Prop :=
  ∀ w a w', act.run w = .ok a w' → post a

section Yields

variable {α β : Type} {mid : α → Prop} {post : β → Prop} {x : EvalM α} {f g : α → EvalM β}

theorem Yields.bind (hx : Yields mid x) (hf : ∀ a, mid a → Yields post (f a)) :
    Yields post (x >>= f) := by
  intro w b w' h
  rw [EStateM.run_bind] at h
  rcases hrun : x.run w with ⟨a, v⟩ | ⟨e, v⟩ <;> rw [hrun] at h
  · exact hf a (hx w a v hrun) v b w' h
  · cases h

theorem Yields.bind_congr (hx : Yields mid x) (h : ∀ a, mid a → f a = g a) :
    x >>= f = x >>= g := by
  funext w
  show (x >>= f).run w = (x >>= g).run w
  rw [EStateM.run_bind, EStateM.run_bind]
  rcases hrun : x.run w with ⟨a, v⟩ | ⟨e, v⟩
  · exact congrArg (fun act : EvalM β ↦ act.run v) (h a (hx w a v hrun))
  · rfl

theorem Yields.within {body : EvalM α} (h : Yields mid body) (frame : Frame) :
    Yields mid (within frame body) := by
  intro w a w' hrun
  rw [run_within] at hrun
  rcases hbody : body.run { w with scope := w.scope.push frame } with ⟨b, v⟩ | ⟨e, v⟩ <;>
    rw [hbody] at hrun
  · cases hrun
    exact h _ _ _ hbody
  · cases hrun

end Yields

/-- The judgement that a property holds of an evaluation and another one of its results. -/
def Judgement.of (P : ∀ α : Type, EvalM α → Prop) : Judgement :=
  fun α post act ↦ P α act ∧ Yields post act

variable {P Q : ∀ α : Type, EvalM α → Prop}

open Classical in
theorem SequenceRules.laws (hP : SequenceRules P) (failure : RuntimeError → Prop) :
    SequenceLaws failure (Judgement.of P) where
  pure ha := ⟨hP.pure _, fun w a w' h ↦ by cases h; exact ha⟩
  fail _ := ⟨hP.throw _, fun w a w' h ↦ by cases h⟩
  bind {α β mid post x f} hx hf := by
    refine ⟨?_, hx.2.bind fun a ha ↦ (hf a ha).2⟩
    -- only the results of `x` matter, so elsewhere any continuation that has the property will do
    let g : α → EvalM β := fun a ↦ if mid a then f a else MonadExcept.throw Halt.tooDeep
    have hsame : x >>= f = x >>= g := hx.2.bind_congr fun a ha ↦ (if_pos ha).symm
    rw [hsame]
    refine hP.bind hx.1 fun a ↦ ?_
    by_cases ha : mid a
    · simp only [g, if_pos ha]
      exact (hf a ha).1
    · simp only [g, if_neg ha]
      exact hP.throw _

theorem ExpressionRules.laws (hP : ExpressionRules P) (host : Host) :
    ExpressionLaws (Fragment.all host) (Judgement.of P) :=
  { hP.toSequenceRules.laws _ with
    lookup := fun _ _ ↦ ⟨hP.lookup _, fun _ _ _ _ ↦ trivial⟩
    ofNative := fun _ _ ↦ ⟨hP.ofNative _, fun _ _ _ _ ↦ trivial⟩ }

namespace StatementRules

theorem laws (h : StatementRules P Q) (host : Host) :
    StatementLaws (Fragment.all host) (Judgement.of P) (Judgement.of Q) := by
  have hsequence := h.toSequenceRules.laws (Fragment.all host).failure
  exact
    { hsequence with
      expressions := h.expressions.laws host
      ofExpression := fun hx ↦ ⟨h.ofExpression hx.1, hx.2⟩
      assign := fun _ _ ↦ ⟨h.assign _ _, fun _ _ _ _ ↦ trivial⟩
      defineNew := by
        intro s name v α post x y _ _ _ hx hy
        have hfind : Judgement.of Q Bool (fun _ ↦ True) (Eval.isDefined name) :=
          ⟨h.isDefined name, fun _ _ _ _ ↦ trivial⟩
        have hdefine : Judgement.of Q Unit (fun _ ↦ True) (Eval.define name v) :=
          ⟨h.define name v, fun _ _ _ _ ↦ trivial⟩
        refine hsequence.bind hfind fun defined _ ↦ ?_
        split
        · exact hx
        · exact hsequence.bind hdefine fun _ _ ↦ hy
      within := fun _ _ hbody ↦ ⟨h.within _ hbody.1, hbody.2.within _⟩ }

/-! ## Calls and programs -/

variable {host : Host} {call : UserFunction → List Value → EvalM Value}

theorem statements (h : StatementRules P Q) (hcall : ∀ f args, P Value (call f args))
    (taken : Bool) (body : List (Statement Nat)) :
    Q Completion (statements host call taken body) :=
  ((h.laws host).statements (fun f args _ _ ↦ ⟨hcall f args, fun _ _ _ _ ↦ trivial⟩) taken body
    fun _ _ ↦ trivial).1

theorem callLaw (h : StatementRules P Q) (depth : Nat) :
    CallLaw (Fragment.all host) (Judgement.of P) (callWithin host depth) :=
  (h.laws host).callWithin (fun _ ↦ ⟨h.expressions.throw _, fun _ _ _ hrun ↦ by cases hrun⟩) depth

theorem callWithin (h : StatementRules P Q) (depth : Nat) :
    ∀ f args, P Value (callWithin host depth f args) :=
  fun f args ↦ (h.callLaw depth f args trivial fun _ _ ↦ trivial).1

theorem expression (h : StatementRules P Q) (depth : Nat) (e : Expr) :
    P Value (expression host depth e) :=
  ((h.laws host).expression (h.callLaw depth) trivial).1

theorem block (h : StatementRules P Q) (depth : Nat) (body : List (Statement Nat)) :
    Q Completion (block host depth body) :=
  ((h.laws host).block (h.callLaw depth) fun _ _ ↦ trivial).1

theorem single (h : StatementRules P Q) (depth : Nat) (s : Statement Nat) :
    Q Completion (single host depth s) :=
  ((h.laws host).single (h.callLaw depth) trivial).1

theorem program (h : StatementRules P Q) (depth : Nat) (p : List (Statement Nat)) :
    Q (Option Value) (program host depth p) :=
  ((h.laws host).program (h.callLaw depth) fun _ _ ↦ trivial).1

end StatementRules

end Scriptlet.Eval
