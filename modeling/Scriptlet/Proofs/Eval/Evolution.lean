import Scriptlet.Proofs.Eval.Fragment
import Scriptlet.Proofs.Scope.Bindings

/-!
# How evaluation changes a scope

Whatever is evaluated, and however it ends, the scope changes in three ways only: a name that is not
visible is defined in the innermost frame, a visible name is assigned, and a frame is pushed for a
call, changed in the same three ways, and dropped. `Evolves` is the relation between the scopes
before and after a series of such changes. Its flag says whether names may be defined outside of
calls: statements define names, but expressions do not.

The relation is indexed by a fragment, which limits the assignments and the values. What holds of a
scope before and after each change holds before and after evaluation, so properties of scopes are
proved by induction over `Evolves` and need not mention the evaluator again.
-/

namespace Scriptlet

variable {host : Host} {F : Fragment host}

namespace Scope

/-- Every value that is bound anywhere in the scope has the property. -/
def Holds (ok : Value → Prop) (s : Scope) : Prop :=
  ∀ level name v, s.valueAt level name = some v → ok v

theorem holds_of_forall_bindings {ok : Value → Prop} {s : Scope} (h : ∀ p ∈ s.bindings, ok p.2) :
    s.Holds ok :=
  fun _ _ _ hv ↦ h _ (mem_bindings_of_valueAt hv)

theorem Holds.push {ok : Value → Prop} {s : Scope} (h : s.Holds ok) {frame : Frame}
    (hframe : ∀ name v, frame.get? name = some v → ok v) : (s.push frame).Holds ok := by
  intro level name v hv
  rw [valueAt_push] at hv
  split at hv
  · exact hframe name v hv
  · exact h level name v hv

/-- The second scope comes from the first by changes that evaluation in the fragment makes. Names
are defined outside of calls only if `defining`. -/
inductive Evolves (F : Fragment host) : Bool → Scope → Scope → Prop
  | done {defining : Bool} {s : Scope} : Evolves F defining s s
  | define {s t : Scope} {name : String} {v : Value} (hnew : s.isDefined name = false)
      (hv : F.value v) (hrest : Evolves F true (s.define name v) t) : Evolves F true s t
  | assign {defining : Bool} {s s' t : Scope} {name : String} {value : Expr} {v : Value}
      (hs : F.statement (.assign name value)) (hv : F.value v) (h : s.assign? name v = some s')
      (hrest : Evolves F defining s' t) : Evolves F defining s t
  | call {defining : Bool} {s t u : Scope} {frame : Frame}
      (hframe : ∀ name v, frame.get? name = some v → F.value v)
      (hbody : Evolves F true (s.push frame) t) (hrest : Evolves F defining t.pop u) :
      Evolves F defining s u

namespace Evolves

variable {defining : Bool} {s t u : Scope}

theorem trans (h : Evolves F defining s t) (h' : Evolves F defining t u) :
    Evolves F defining s u := by
  induction h with
  | done => exact h'
  | define hnew hv _ ih => exact .define hnew hv (ih h')
  | assign hs hv h _ ih => exact .assign hs hv h (ih h')
  | call hframe hbody _ _ ih => exact .call hframe hbody (ih h')

/-- Fewer changes are allowed to expressions than to statements. -/
theorem loosen (h : Evolves F false s t) : Evolves F true s t := by
  generalize hflag : false = defining at h
  induction h with
  | done => exact .done
  | define => cases hflag
  | assign hs hv h _ ih => exact .assign hs hv h (ih hflag)
  | call hframe hbody _ _ ih => exact .call hframe hbody (ih hflag)

theorem depth_eq (h : Evolves F defining s t) : t.depth = s.depth := by
  induction h with
  | done => rfl
  | define _ _ _ ih => rw [ih, depth_define]
  | assign _ _ h _ ih => rw [ih, depth_of_assign? h]
  | call _ _ _ ihbody ihrest => rw [ihrest, depth_pop ihbody]

theorem holds (h : Evolves F defining s t) (hs : s.Holds F.value) : t.Holds F.value := by
  induction h with
  | done => exact hs
  | @define s t name v _ hv _ ih =>
    refine ih fun level other u hu ↦ ?_
    rw [valueAt_define] at hu
    split at hu
    · rw [← Option.some.inj hu]
      exact hv
    · exact hs level other u hu
  | assign _ hv h _ ih =>
    obtain ⟨holder, -, -, htable⟩ := exists_rebinds_of_assign? h
    refine ih fun level other u hu ↦ ?_
    rw [htable] at hu
    split at hu
    · rw [← Option.some.inj hu]
      exact hv
    · exact hs level other u hu
  | call hframe hbody _ ihbody ihrest =>
    refine ihrest fun level name v hv ↦ ?_
    rw [valueAt_pop hbody.depth_eq] at hv
    split at hv
    · exact ihbody (hs.push hframe) level name v hv
    · cases hv

end Evolves

end Scope

namespace Eval

open Scope (Evolves)

/-! ## Evaluation -/

/-- The scope after an evaluation, whether it succeeds or fails. -/
def scopeAfter {α : Type} (act : EvalM α) (w : World) : Scope :=
  match act.run w with
  | .ok _ v => v.scope
  | .error _ v => v.scope

/-- How an evaluation ends: with a result that has the property, if any, and in such a scope. -/
def Ends {α : Type} (post : α → Prop) (R : Scope → Prop) : EStateM.Result Halt World α → Prop
  | .ok a w => post a ∧ R w.scope
  | .error _ w => R w.scope

/-- From every scope with values of the fragment, the evaluation makes changes of the fragment. -/
def Evolving (F : Fragment host) (defining : Bool) : Judgement :=
  fun _ post act ↦ ∀ w, w.scope.Holds F.value → Ends post (Evolves F defining w.scope) (act.run w)

theorem Ends.scopeAfter {α : Type} {post : α → Prop} {R : Scope → Prop} {act : EvalM α}
    {w : World} (h : Ends post R (act.run w)) : R (scopeAfter act w) := by
  rw [Eval.scopeAfter]
  rcases hrun : act.run w with ⟨a, v⟩ | ⟨e, v⟩ <;> rw [hrun] at h
  · exact h.2
  · exact h

theorem Ends.imp {α : Type} {post : α → Prop} {R R' : Scope → Prop}
    {r : EStateM.Result Halt World α} (h : Ends post R r) (himp : ∀ s, R s → R' s) :
    Ends post R' r := by
  rcases r with ⟨a, v⟩ | ⟨e, v⟩
  · exact ⟨h.1, himp _ h.2⟩
  · exact himp _ h

section Laws

variable {defining : Bool}

theorem evolving_bind {α β : Type} {mid : α → Prop} {post : β → Prop} {x : EvalM α}
    {f : α → EvalM β} (hx : Evolving F defining α mid x)
    (hf : ∀ a, mid a → Evolving F defining β post (f a)) :
    Evolving F defining β post (x >>= f) := by
  intro w hw
  have hfirst := hx w hw
  rw [EStateM.run_bind]
  rcases hrun : x.run w with ⟨a, v⟩ | ⟨e, v⟩ <;> rw [hrun] at hfirst
  · obtain ⟨ha, hv⟩ := hfirst
    exact (hf a ha v (hv.holds hw)).imp fun _ h ↦ hv.trans h
  · exact hfirst

theorem evolving_lookup (name : String) : Evolving F defining Value F.value (lookup name) := by
  intro w hw
  rw [run_lookup]
  split
  · rename_i v hv
    obtain ⟨level, hlevel⟩ := Scope.exists_valueAt_of_resolve hv
    exact ⟨hw level name v hlevel, .done⟩
  · exact .done

theorem evolving_ofNative {r : NativeResult} (hr : ∀ v, r.2 = .ok v → F.value v) :
    Evolving F defining Value F.value (ofNative r) := by
  intro w _
  obtain ⟨text, result⟩ := r
  rcases result with e | v
  · exact .done
  · exact ⟨hr v rfl, .done⟩

theorem evolving_assign {name : String} {value : Expr} {v : Value}
    (hs : F.statement (.assign name value)) (hv : F.value v) :
    Evolving F defining Unit (fun _ ↦ True) (assign name v) := by
  intro w _
  rw [run_assign]
  split
  · rename_i s hassign
    exact ⟨trivial, .assign hs hv hassign .done⟩
  · exact .done

theorem evolving_defineNew {name : String} {v : Value} (hv : F.value v) {α : Type}
    {post : α → Prop} {x y : EvalM α} (hx : Evolving F true α post x)
    (hy : Evolving F true α post y) :
    Evolving F true α post (do if ← isDefined name then x else define name v; y) := by
  intro w hw
  show Ends _ _ ((if w.scope.isDefined name = true then x else
    (do define name v; y : EvalM α)).run w)
  split
  · exact hx w hw
  · rename_i hnew
    rw [Bool.not_eq_true] at hnew
    -- the rest starts where the definition ends
    have hdefine : Evolves F true w.scope (w.scope.define name v) := .define hnew hv .done
    have hrest := hy { w with scope := w.scope.define name v } (hdefine.holds hw)
    exact hrest.imp fun _ h ↦ hdefine.trans h

theorem evolving_within {f : UserFunction} {args : List Value} {α : Type} {post : α → Prop}
    {body : EvalM α} (hargs : ∀ v ∈ args, F.value v) (hbody : Evolving F true α post body) :
    Evolving F false α post (within (.ofPairs (f.params.zip args)) body) := by
  intro w hw
  generalize hpairs : Frame.ofPairs (f.params.zip args) = frame
  have hframe : ∀ name v, frame.get? name = some v → F.value v := by
    intro name v hget
    rw [← hpairs] at hget
    exact hargs v (Frame.mem_of_get?_ofPairs_zip hget)
  have hrun := hbody { w with scope := w.scope.push frame } (hw.push hframe)
  rw [run_within]
  rcases hend : body.run { w with scope := w.scope.push frame } with ⟨a, u⟩ | ⟨e, u⟩ <;>
    rw [hend] at hrun
  · exact ⟨hrun.1, .call hframe hrun.2 .done⟩
  · exact .call hframe hrun .done

theorem evolving_tooDeep {post : Value → Prop} :
    Evolving F false Value post (throw .tooDeep) := fun _ _ ↦ .done

theorem evolving_laws (F : Fragment host) :
    StatementLaws F (Evolving F false) (Evolving F true) := by
  have hsequence : ∀ defining, SequenceLaws F.failure (Evolving F defining) := fun defining ↦
    { pure := fun ha w _ ↦ ⟨ha, .done⟩
      fail := fun _ w _ ↦ .done
      bind := evolving_bind }
  exact
    { hsequence true with
      expressions :=
        { hsequence false with
          lookup := fun _ _ ↦ evolving_lookup _
          ofNative := fun hr _ ↦ evolving_ofNative hr }
      ofExpression := fun hx w hw ↦ (hx w hw).imp fun _ h ↦ h.loosen
      assign := evolving_assign
      defineNew := fun _ _ hv hx hy ↦ evolving_defineNew hv hx hy
      within := fun _ hargs hbody ↦ evolving_within hargs hbody }

end Laws

/-! ## The whole language -/

section All

variable (host : Host) (depth : Nat) (w : World)

theorem holds_all (s : Scope) : s.Holds (Fragment.all host).value := fun _ _ _ _ ↦ trivial

theorem callLaw_evolving (F : Fragment host) :
    CallLaw F (Evolving F false) (callWithin host depth) :=
  (evolving_laws F).callWithin (fun _ ↦ evolving_tooDeep) depth

theorem evolves_expression (e : Expr) :
    Evolves (.all host) false w.scope (scopeAfter (expression host depth e) w) :=
  ((evolving_laws (.all host)).expression (callLaw_evolving host depth _) trivial w
    (holds_all host _)).scopeAfter

theorem evolves_call (f : UserFunction) (args : List Value) :
    Evolves (.all host) false w.scope (scopeAfter (callWithin host depth f args) w) :=
  (callLaw_evolving host depth (.all host) f args trivial (fun _ _ ↦ trivial) w
    (holds_all host _)).scopeAfter

theorem evolves_statements (taken : Bool) (body : List (Statement Nat)) :
    Evolves (.all host) true w.scope
      (scopeAfter (statements host (callWithin host depth) taken body) w) :=
  ((evolving_laws (.all host)).statements (callLaw_evolving host depth _) taken body
    (fun _ _ ↦ trivial) w (holds_all host _)).scopeAfter

theorem evolves_single (s : Statement Nat) :
    Evolves (.all host) true w.scope (scopeAfter (single host depth s) w) :=
  ((evolving_laws (.all host)).single (callLaw_evolving host depth _) trivial w
    (holds_all host _)).scopeAfter

theorem evolves_program (p : List (Statement Nat)) :
    Evolves (.all host) true w.scope (scopeAfter (program host depth p) w) :=
  ((evolving_laws (.all host)).program (callLaw_evolving host depth _) (fun _ _ ↦ trivial) w
    (holds_all host _)).scopeAfter

end All

end Eval

end Scriptlet
