import Scriptlet.Proofs.Eval.Evolution

/-!
# Evaluation from worlds of a fragment

Some properties of evaluations hold only from certain worlds, namely those whose scope holds nothing
but values of a fragment. Such a property is stated of an evaluation together with the world it
starts from. To prove it one needs to know that the worlds in between are of the same sort, and this
is what `Evolving` says; so the two are carried through the induction together (`Throughout`), and
for the property itself one law for each effect remains (`PointwiseLaws`).

The rule for sequences is the one to note: the second part need have the property only where the
first part ends. Errors are an instance: in a fragment, evaluation fails only as the fragment
says.
-/

namespace Scriptlet.Eval

open Scope (Evolves)

variable {host : Host} {F : Fragment host}

/-- A property of evaluations in the worlds from which they start. -/
abbrev Pointwise := ∀ α : Type, EvalM α → World → Prop

/-- The property holds of every effect, so far as evaluation of the fragment has it. -/
structure PointwiseLaws (F : Fragment host) (P : Pointwise) : Prop where
  pure {α : Type} (a : α) (w : World) : P α (pure a) w
  fail {α : Type} {e : RuntimeError} (he : F.failure e) (w : World) : P α (fail e) w
  bind {α β : Type} {x : EvalM α} {f : α → EvalM β} {w : World} (hx : P α x w)
    (hf : ∀ a v, x.run w = .ok a v → P β (f a) v) : P β (x >>= f) w
  lookup {e : Expr} {name : String} (he : F.expression e) (hname : e.reads? = some name)
    (w : World) : P Value (lookup name) w
  ofNative {r : NativeResult} (hfail : ∀ e, r.2 = .error e → F.failure e) (w : World) :
    P Value (ofNative r) w
  assign {name : String} {value : Expr} (hs : F.statement (.assign name value)) (v : Value)
    (w : World) : P Unit (assign name v) w
  isDefined {s : Statement Nat} {name : String} (hs : F.statement s)
    (hname : s.declares? = some name) (w : World) : P Bool (isDefined name) w
  define {s : Statement Nat} {name : String} (hs : F.statement s)
    (hname : s.declares? = some name) (v : Value) (w : World) : P Unit (define name v) w
  within {f : UserFunction} {args : List Value} {body : EvalM Value} {w : World}
    (hf : F.value (.function f))
    (hbody : P Value body { w with scope := w.scope.push (.ofPairs (f.params.zip args)) }) :
    P Value (within (.ofPairs (f.params.zip args)) body) w

/-- The evaluation makes changes of the fragment, and has the property wherever it can start. -/
def Throughout (F : Fragment host) (P : Pointwise) (defining : Bool) : Judgement :=
  fun α post act ↦
    Evolving F defining α post act ∧ ∀ w, w.scope.Holds F.value → P α act w

variable {P : Pointwise}

theorem Evolving.of_ok {defining : Bool} {α : Type} {post : α → Prop} {x : EvalM α}
    (hx : Evolving F defining α post x) {w v : World} {a : α} (hw : w.scope.Holds F.value)
    (hrun : x.run w = .ok a v) : post a ∧ v.scope.Holds F.value := by
  have hends := hx w hw
  rw [hrun] at hends
  exact ⟨hends.1, hends.2.holds hw⟩

section Laws

variable (h : PointwiseLaws F P) {defining : Bool}

include h

theorem throughout_bind {α β : Type} {mid : α → Prop} {post : β → Prop} {x : EvalM α}
    {f : α → EvalM β} (hx : Throughout F P defining α mid x)
    (hf : ∀ a, mid a → Throughout F P defining β post (f a)) :
    Throughout F P defining β post (x >>= f) := by
  refine ⟨evolving_bind hx.1 fun a ha ↦ (hf a ha).1, fun w hw ↦ ?_⟩
  refine h.bind (hx.2 w hw) fun a v hrun ↦ ?_
  obtain ⟨ha, hv⟩ := hx.1.of_ok hw hrun
  exact (hf a ha).2 v hv

theorem throughout_defineNew {s : Statement Nat} {name : String} {v : Value} {α : Type}
    {post : α → Prop} {x y : EvalM α} (hs : F.statement s) (hname : s.declares? = some name)
    (hv : F.value v) (hx : Throughout F P true α post x) (hy : Throughout F P true α post y) :
    Throughout F P true α post (do if ← isDefined name then x else define name v; y) := by
  refine ⟨evolving_defineNew hv hx.1 hy.1, fun w hw ↦ ?_⟩
  refine h.bind (h.isDefined hs hname w) fun defined u hrun ↦ ?_
  cases hrun
  split
  · exact hx.2 w hw
  · rename_i hnew
    rw [Bool.not_eq_true] at hnew
    refine h.bind (h.define hs hname v w) fun _ u hrun ↦ ?_
    cases hrun
    have hdefine : Evolves F true w.scope (w.scope.define name v) := .define hnew hv .done
    exact hy.2 _ (hdefine.holds hw)

theorem throughout_within {f : UserFunction} {args : List Value} {post : Value → Prop}
    {body : EvalM Value} (hf : F.value (.function f)) (hargs : ∀ v ∈ args, F.value v)
    (hbody : Throughout F P true Value post body) :
    Throughout F P false Value post (within (.ofPairs (f.params.zip args)) body) := by
  refine ⟨evolving_within hargs hbody.1, fun w hw ↦ h.within hf (hbody.2 _ (hw.push ?_))⟩
  exact fun name v hget ↦ hargs v (Frame.mem_of_get?_ofPairs_zip hget)

theorem throughout_laws : StatementLaws F (Throughout F P false) (Throughout F P true) := by
  have hevolving := evolving_laws F
  have hsequence : ∀ defining, SequenceLaws F.failure (Throughout F P defining) := fun defining ↦
    { pure := fun ha ↦ ⟨fun w _ ↦ ⟨ha, .done⟩, fun w _ ↦ h.pure _ w⟩
      fail := fun he ↦ ⟨fun w _ ↦ .done, fun w _ ↦ h.fail he w⟩
      bind := throughout_bind h }
  exact
    { hsequence true with
      expressions :=
        { hsequence false with
          lookup := fun he hname ↦ ⟨hevolving.expressions.lookup he hname,
            fun w _ ↦ h.lookup he hname w⟩
          ofNative := fun hr hfail ↦ ⟨hevolving.expressions.ofNative hr hfail,
            fun w _ ↦ h.ofNative hfail w⟩ }
      ofExpression := fun hx ↦ ⟨hevolving.ofExpression hx.1, hx.2⟩
      assign := fun hs hv ↦ ⟨hevolving.assign hs hv, fun w _ ↦ h.assign hs _ w⟩
      defineNew := throughout_defineNew h
      within := throughout_within h }

theorem callLaw_throughout (hdeep : ∀ w, P Value (throw .tooDeep) w) (depth : Nat) :
    CallLaw F (Throughout F P false) (callWithin host depth) :=
  (throughout_laws h).callWithin (fun _ ↦ ⟨evolving_tooDeep, fun w _ ↦ hdeep w⟩) depth

end Laws

/-! ## Blocks and programs -/

section Programs

variable (h : PointwiseLaws F P) (hdeep : ∀ w, P Value (throw .tooDeep) w) (depth : Nat)
  {p : List (Statement Nat)} (hp : ∀ s ∈ p, F.statement s) {w : World}
  (hw : w.scope.Holds F.value)

include h hdeep hp hw

theorem PointwiseLaws.of_block : P Completion (block host depth p) w :=
  ((throughout_laws h).block (callLaw_throughout h hdeep depth) hp).2 w hw

theorem PointwiseLaws.of_program : P (Option Value) (program host depth p) w :=
  ((throughout_laws h).program (callLaw_throughout h hdeep depth) hp).2 w hw

end Programs

/-! ## Failures -/

/-- If the evaluation stops early, then for a reason of the given sort. -/
def StopsOnlyFor (reason : Halt → Prop) : Pointwise :=
  fun _ act w ↦ ∀ halt v, act.run w = .error halt v → reason halt

/-- Evaluation of a fragment stops for the errors of the fragment, if calls do. -/
theorem stopsOnlyFor_laws {reason : Halt → Prop} (hreason : ∀ e, F.failure e → reason (.error e)) :
    PointwiseLaws F (StopsOnlyFor reason) where
  pure _ _ halt v h := by cases h
  fail he w halt v h := by
    cases h
    exact hreason _ he
  bind := by
    intro α β x f w hx hf halt v h
    rw [EStateM.run_bind] at h
    rcases hrun : x.run w with ⟨a, u⟩ | ⟨first, u⟩ <;> rw [hrun] at h
    · exact hf a u hrun halt v h
    · cases h
      exact hx halt v hrun
  lookup _ _ w halt v h := by
    rw [run_lookup] at h
    split at h <;> cases h
    exact hreason _ (F.ordinary rfl)
  ofNative := by
    rintro ⟨text, result⟩ hfail w halt v h
    rcases result with e | a <;> cases h
    exact hreason e (hfail e rfl)
  assign _ _ w halt v h := by
    rw [run_assign] at h
    split at h <;> cases h
    exact hreason _ (F.ordinary rfl)
  isDefined _ _ w halt v h := by cases h
  define _ _ _ w halt v h := by cases h
  within := by
    intro f args body w _ hbody halt v h
    rw [run_within] at h
    split at h <;> cases h
    rename_i u hrun
    exact hbody halt u hrun

/-- If the evaluation fails with an error, the error is of the given sort. -/
def FailsOnlyWith (failure : RuntimeError → Prop) : Pointwise :=
  fun _ act w ↦ ∀ e v, act.run w = .error (.error e) v → failure e

theorem failsOnlyWith_laws (F : Fragment host) : PointwiseLaws F (FailsOnlyWith F.failure) := by
  have hstops : FailsOnlyWith F.failure = StopsOnlyFor fun halt ↦
      ∀ e, halt = .error e → F.failure e := by
    funext α act w
    refine propext ⟨fun h halt v hrun e hhalt ↦ ?_, fun h e v hrun ↦ h _ v hrun e rfl⟩
    rw [hhalt] at hrun
    exact h e v hrun
  rw [hstops]
  refine stopsOnlyFor_laws fun e he e' heq ↦ ?_
  cases heq
  exact he

end Scriptlet.Eval
