import Scriptlet.Session
import Scriptlet.Proofs.Eval.Evolution
import Scriptlet.Proofs.Eval.Rules

/-!
# Functions are not results

A function is a value, but no statement returns one. The test stands in one place, the `return`
statement, and every other way in which a list of statements ends hands on what some `return`
statement inside it gave. So blocks, programs and calls of script functions give plain data.

Among expressions only two could give a function: a name, and the call of a builtin that hands one
out. An operator never does, not even one that yields one of its operands, since the logical
operators take no function (`BinaryOp.isCallable_of_apply`).
-/

namespace Scriptlet

def Builtin.GivesData (host : Host) (f : Builtin) : Prop :=
  ∀ args v, (f.invoke host args).2 = .ok v → v.isCallable = false

theorem givesData_print {host : Host} {f : Builtin} (hf : f.native = .print) :
    f.GivesData host := by
  intro args v h
  rcases Builtin.invoke_print hf args with hprint | ⟨_, _, _, hprint⟩ <;> rw [hprint] at h
  · cases h
    rfl
  · cases h

namespace Eval

variable {host : Host} {call : UserFunction → List Value → EvalM Value}

/-! ## Statements -/

theorem yields_pure {α : Type} {post : α → Prop} {a : α} (ha : post a) :
    Yields post (pure a : EvalM α) := by
  intro w b w' h
  cases h
  exact ha

theorem yields_fail {α : Type} {post : α → Prop} (e : RuntimeError) :
    Yields post (fail e : EvalM α) := by
  intro w a w' h
  cases h

theorem yields_any {α : Type} (act : EvalM α) : Yields (fun _ ↦ True) act :=
  fun _ _ _ _ ↦ trivial

mutual

theorem yields_statement_data (taken : Bool) : ∀ s : Statement Nat,
    Yields (fun r ↦ r.1.value.isCallable = false) (statement host call taken s)
  | .declare name value => by
    rw [statement]
    refine (yields_any _).bind fun v _ ↦ (yields_any _).bind fun defined _ ↦ ?_
    split
    · exact yields_fail _
    · exact (yields_any _).bind fun _ _ ↦ yields_pure rfl
  | .assign name value => by
    rw [statement]
    exact (yields_any _).bind fun v _ ↦ (yields_any _).bind fun _ _ ↦ yields_pure rfl
  | .ifBranch condition body => by
    rw [statement]
    refine (yields_any _).bind fun v _ ↦ ?_
    dsimp only
    split
    · exact (yields_statements_data false body).bind fun c hc ↦ yields_pure hc
    · exact yields_pure rfl
  | .elifBranch condition body => by
    rw [statement]
    split
    · exact yields_pure rfl
    · refine (yields_any _).bind fun v _ ↦ ?_
      dsimp only
      split
      · exact (yields_statements_data false body).bind fun c hc ↦ yields_pure hc
      · exact yields_pure rfl
  | .elseBranch body => by
    rw [statement]
    split
    · exact yields_pure rfl
    · exact (yields_statements_data false body).bind fun c hc ↦ yields_pure hc
  | .returns value => by
    rw [statement]
    refine (yields_any _).bind fun v _ ↦ ?_
    -- the one place where a value is tested
    split
    · exact yields_fail _
    · rename_i hv
      exact yields_pure (Bool.eq_false_iff.mpr hv)
  | .function tag name params body => by
    rw [statement]
    refine (yields_any _).bind fun defined _ ↦ ?_
    split
    · exact yields_pure rfl
    · exact (yields_any _).bind fun _ _ ↦ yields_pure rfl
  | .block body => by
    rw [statement]
    exact (yields_statements_data false body).bind fun c hc ↦ yields_pure hc
  | .expression value => by
    rw [statement]
    exact (yields_any _).bind fun _ _ ↦ yields_pure rfl

theorem yields_statements_data (taken : Bool) : ∀ body : List (Statement Nat),
    Yields (fun c ↦ c.value.isCallable = false) (statements host call taken body)
  | [] => by
    rw [statements]
    exact yields_pure rfl
  | s :: rest => by
    rw [statements]
    refine (yields_statement_data taken s).bind fun r hr ↦ ?_
    split
    · exact yields_pure hr
    · exact yields_statements_data _ rest

end

/-! ## Calls and programs -/

theorem yields_callWithin_data (depth : Nat) (f : UserFunction) (args : List Value) :
    Yields (fun v ↦ v.isCallable = false) (callWithin host depth f args) := by
  rcases depth with _ | depth
  · intro w v w' h
    cases h
  · rw [callWithin]
    refine Yields.within ?_ _
    exact (yields_statements_data false f.body).bind fun c hc ↦ yields_pure hc

theorem yields_program_data (depth : Nat) (p : List (Statement Nat)) :
    Yields (fun result ↦ ∀ v, result = some v → v.isCallable = false) (program host depth p) := by
  refine (yields_statements_data false p).bind fun completion hcompletion ↦ ?_
  rcases completion with _ | v
  · exact yields_pure fun v hv ↦ by cases hv
  · refine yields_pure fun u hu ↦ ?_
    cases hu
    exact hcompletion

/-! ## Expressions -/

theorem yields_ofExcept {α : Type} {post : α → Prop} {r : Except RuntimeError α}
    (hr : ∀ a, r = .ok a → post a) : Yields post (ofExcept r) := by
  rcases r with e | a
  · exact yields_fail e
  · exact yields_pure (hr a rfl)

theorem yields_ofNative {r : NativeResult} {post : Value → Prop}
    (hr : ∀ v, r.2 = .ok v → post v) : Yields post (ofNative r) :=
  (yields_any _).bind fun _ _ ↦ yields_ofExcept hr

/-- The callee is looked up before the arguments are evaluated, so only what it is where the call
starts decides whether the call can give a function. -/
theorem isCallable_of_run_call {depth : Nat} {callee : String} {arguments : List Expr}
    {w w' : World} {v : Value}
    (hbuiltin : ∀ f, w.scope.resolve callee = some (.builtin f) → f.GivesData host)
    (hrun : (expression host depth (.call callee arguments)).run w = .ok v w') :
    v.isCallable = false := by
  rw [expression, expr, EStateM.run_bind, run_lookup] at hrun
  rcases hcallee : w.scope.resolve callee with _ | u <;> rw [hcallee] at hrun
  · cases hrun
  · dsimp only at hrun
    split at hrun
    · rename_i f
      have hnative : Yields (fun v ↦ v.isCallable = false) (do
          let args ← exprs host (callWithin host depth) arguments
          ofNative (f.invoke host args)) :=
        (yields_any _).bind fun args _ ↦ yields_ofNative fun v hv ↦ hbuiltin f hcallee args v hv
      exact hnative w v w' hrun
    · rename_i f
      split at hrun
      · have hcall : Yields (fun v ↦ v.isCallable = false) (do
            let args ← exprs host (callWithin host depth) arguments
            callWithin host depth f args) :=
          (yields_any _).bind fun args _ ↦ yields_callWithin_data depth f args
        exact hcall w v w' hrun
      · cases hrun
    · cases hrun

/-- Any other expression that is no name gives no function in any case. -/
theorem yields_expression_data {depth : Nat} {e : Expr} (hread : e.reads? = none) :
    Yields (fun v ↦ v.isCallable = false) (expression host depth e) := by
  rw [expression]
  cases e with
  | number lexeme =>
    rw [expr]
    exact yields_ofExcept fun v hv ↦ isCallable_of_literalValue hv
  | string content =>
    rw [expr]
    exact yields_pure rfl
  | boolean b =>
    rw [expr]
    exact yields_pure rfl
  | unary op operand =>
    unfold expr
    split
    · exact (yields_any _).bind fun a _ ↦ yields_ofExcept fun v hv ↦ op.isCallable_of_apply hv
    · exact yields_fail _
  | binary op left right =>
    rw [expr]
    refine (yields_any _).bind fun a _ ↦ (yields_any _).bind fun b _ ↦ ?_
    exact yields_ofExcept fun v hv ↦ BinaryOp.isCallable_of_apply hv
  | name name => cases hread
  | call callee arguments => cases hread

/-- Where no visible builtin gives a function, no expression does but a name. -/
theorem exists_name_of_isCallable {depth : Nat} {e : Expr} {w w' : World} {v : Value}
    (hbuiltins : ∀ name f, w.scope.resolve name = some (.builtin f) → f.GivesData host)
    (hrun : (expression host depth e).run w = .ok v w') (hv : v.isCallable = true) :
    ∃ name, e = .name name := by
  rcases hread : e.reads? with _ | n
  · have hdata : v.isCallable = false := yields_expression_data hread w v w' hrun
    rw [hv] at hdata
    cases hdata
  · cases e with
    | name name => exact ⟨name, rfl⟩
    | call callee arguments =>
      have hdata := isCallable_of_run_call (hbuiltins callee) hrun
      rw [hv] at hdata
      cases hdata
    | number | string | boolean | unary | binary => cases hread

/-! ## Runs -/

/-- The result of a run that gives one is the result of evaluating the program that was read. -/
theorem exists_program_of_run {depth : Nat} {s : Session} {source : String} {result : Option Value}
    (h : (s.run host depth source).2.result = .ok result) :
    ∃ p w, (program host depth p).run { scope := s.scope } = .ok result w := by
  rw [Session.run] at h
  rcases hcompile : Session.compile source with e | p
  · rw [hcompile] at h
    cases h
  · rw [hcompile] at h
    simp only [Session.runProgram, Session.load, Session.evaluate] at h
    split at h
    · rename_i value w hrun
      cases h
      exact ⟨_, w, hrun⟩
    · cases h
    · cases h

/-- No evaluation returns a function: no statement, block or program completes with one, so that no
run gives one and no call of a script function does. If moreover no visible builtin gives one, an
expression gives a function only if it is a name. -/
theorem functions_are_never_returned (host : Host) (depth : Nat) :
    (∀ s w v w', (single host depth s).run w = .ok (.returned v) w' → v.isCallable = false) ∧
      (∀ taken body w v w',
        (statements host (callWithin host depth) taken body).run w = .ok (.returned v) w' →
        v.isCallable = false) ∧
      (∀ body w v w',
        (block host depth body).run w = .ok (.returned v) w' → v.isCallable = false) ∧
      (∀ p w v w', (program host depth p).run w = .ok (some v) w' → v.isCallable = false) ∧
      (∀ (s : Session) source v,
        (s.run host depth source).2.result = .ok (some v) → v.isCallable = false) ∧
      (∀ f args w v w',
        (callWithin host depth f args).run w = .ok v w' → v.isCallable = false) ∧
      (∀ callee arguments f w v w', w.scope.resolve callee = some (.function f) →
        (expression host depth (.call callee arguments)).run w = .ok v w' →
        v.isCallable = false) ∧
      ∀ w, (∀ name f, w.scope.resolve name = some (.builtin f) → f.GivesData host) →
        ∀ e v w', (expression host depth e).run w = .ok v w' → v.isCallable = true →
          ∃ name, e = .name name := by
  refine ⟨fun s w v w' h ↦ ?_, fun taken body w v w' h ↦ ?_, fun body w v w' h ↦ ?_,
    fun p w v w' h ↦ ?_, fun s source v h ↦ ?_, fun f args w v w' h ↦ ?_,
    fun callee arguments f w v w' hcallee h ↦ ?_, fun w hbuiltins e v w' h hv ↦ ?_⟩
  · have hsingle : Yields (fun c ↦ c.value.isCallable = false) (single host depth s) :=
      (yields_statement_data false s).bind fun r hr ↦ yields_pure hr
    exact hsingle w _ w' h
  · exact yields_statements_data taken body w _ w' h
  · exact yields_statements_data false body w _ w' h
  · exact yields_program_data depth p w _ w' h v rfl
  · obtain ⟨p, w, hrun⟩ := exists_program_of_run h
    exact yields_program_data depth p _ _ w hrun v rfl
  · exact yields_callWithin_data depth f args w v w' h
  · refine isCallable_of_run_call (fun g hg ↦ ?_) h
    rw [hcallee] at hg
    cases hg
  · exact exists_name_of_isCallable hbuiltins h hv

/-- A scope with `print` and two functions, of which `f` hands on what `again` returns. -/
def withFunctions : World where
  scope := .inner ⟨[("again", .function ⟨1, "again", ["x"], [.returns (.name "x")]⟩)]⟩ <| .root
    ⟨[("print", .builtin ⟨0, "print", 1, .print⟩),
      ("f", .function ⟨2, "f", ["x"], [.ifBranch (.name "x")
        [.block [.returns (.call "again" [.name "x"])]]]⟩)]⟩

/-- Here a call hands a string on through a block, a branch and another call, and fails when it is
to hand on a function; and the only builtin gives no function, so that only names do. -/
theorem only_names_give_functions :
    (∃ w, (program Host.none 2 [.returns (.call "f" [.string "data"])]).run withFunctions
        = .ok (some (.string "data")) w ∧ (Value.string "data").isCallable = false) ∧
      (∃ w, (expression Host.none 2 (.call "f" [.name "again"])).run withFunctions
        = .error (.error (.illegalReturn .function)) w) ∧
      (∃ v w, (expression Host.none 2 (.name "f")).run withFunctions = .ok v w ∧
        v.isCallable = true) ∧
      ∀ e v w, (expression Host.none 2 e).run withFunctions = .ok v w → v.isCallable = true →
        ∃ name, e = .name name := by
  have h := functions_are_never_returned Host.none 2
  have hrun : ∃ w, (program Host.none 2 [.returns (.call "f" [.string "data"])]).run withFunctions
      = .ok (some (.string "data")) w := ⟨_, rfl⟩
  obtain ⟨w, hw⟩ := hrun
  refine ⟨⟨w, hw, h.2.2.2.1 _ _ _ _ hw⟩, ⟨_, rfl⟩, ⟨_, _, rfl, rfl⟩, ?_⟩
  refine h.2.2.2.2.2.2.2 withFunctions fun name f hf ↦ ?_
  have hheld : withFunctions.scope.Holds fun v ↦ ∀ f, v = .builtin f → f.native = .print :=
    Scope.holds_of_forall_bindings (by simp [withFunctions, Scope.bindings])
  obtain ⟨level, hlevel⟩ := Scope.exists_valueAt_of_resolve hf
  exact givesData_print (hheld level name _ hlevel f rfl)

end Eval

end Scriptlet
