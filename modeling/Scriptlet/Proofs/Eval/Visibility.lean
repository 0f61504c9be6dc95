import Scriptlet.Proofs.Eval.Rules
import Scriptlet.Proofs.Scope.Bindings

/-!
# What a script can see of its scope

Two scopes are visibly equal if every name has the same value in both. They may differ in the number
of frames, in which frame binds a name, and in bindings that others hide. Evaluation does not see
these differences: it ends the same way in both, prints the same text, and leaves scopes that are
visibly equal again.

Visible equality alone is not kept by calls. A call evaluates its body inside a frame, and when the
frame is dropped the bindings under it come to light; that these agree does not follow from what was
visible inside. So inside a call the two scopes are *alike*: they agree in each frame that was
pushed since, and what is around those frames is visibly equal. A definition goes to the innermost
of the pushed frames, or, where none is left, to the innermost frame of scopes that are merely
visibly equal; an assignment reaches a pushed frame in both scopes or in neither.
-/

namespace Scriptlet

namespace Scope

/-! ## Assignment and resolution -/

theorem isSome_assign? (s : Scope) (name : String) (v : Value) :
    (s.assign? name v).isSome = s.isDefined name := by
  induction s with
  | root f =>
    rw [assign?, isDefined]
    cases f.contains name <;> rfl
  | inner f outer ih =>
    rw [assign?, isDefined]
    cases f.contains name with
    | true => rfl
    | false => rw [if_neg Bool.false_ne_true, Option.isSome_map, ih, Bool.false_or]

theorem resolve_of_assign? {s s' : Scope} {name : String} {v : Value}
    (h : s.assign? name v = some s') (other : String) :
    s'.resolve other = if other = name then some v else s.resolve other := by
  obtain ⟨holder, hrebinds⟩ := exists_rebinds_of_assign? h
  exact hrebinds.resolve_eq other

/-! ## Visible equality -/

/-- Every name has the same value in both scopes. -/
def VisiblyEqual (s t : Scope) : Prop := ∀ name, s.resolve name = t.resolve name

namespace VisiblyEqual

variable {s t : Scope}

theorem isDefined (h : VisiblyEqual s t) (name : String) : s.isDefined name = t.isDefined name := by
  rw [isDefined_eq_isSome_resolve, isDefined_eq_isSome_resolve, h name]

theorem define (h : VisiblyEqual s t) (name : String) (v : Value) :
    VisiblyEqual (s.define name v) (t.define name v) := by
  intro other
  rw [resolve_define, resolve_define, h other]

theorem assign? (h : VisiblyEqual s t) {s' t' : Scope} {name : String} {v : Value}
    (hs : s.assign? name v = some s') (ht : t.assign? name v = some t') : VisiblyEqual s' t' := by
  intro other
  rw [resolve_of_assign? hs, resolve_of_assign? ht, h other]

end VisiblyEqual

/-- The scope of a single frame in which the same names are visible. -/
def flatten (s : Scope) : Scope := root ⟨s.bindings⟩

theorem visiblyEqual_flatten (s : Scope) : VisiblyEqual s s.flatten := by
  intro name
  rw [flatten, resolve, Frame.get?]
  induction s with
  | root f => rfl
  | inner f outer ih =>
    rw [resolve, ih, bindings, List.lookup_append, Frame.get?]
    cases f.bindings.lookup name <;> rfl

/-! ## Alike under pushed frames -/

/-- The scopes agree in their `k` innermost frames, and what is around those is visibly equal. -/
inductive Alike : Nat → Scope → Scope → Prop
  | base {s t : Scope} (h : VisiblyEqual s t) : Alike 0 s t
  | inner {k : Nat} {f g : Frame} {s t : Scope} (hframe : ∀ name, f.get? name = g.get? name)
      (h : Alike k s t) : Alike (k + 1) (.inner f s) (.inner g t)

namespace Alike

variable {k : Nat} {s t : Scope}

theorem visiblyEqual (h : Alike k s t) : VisiblyEqual s t := by
  induction h with
  | base h => exact h
  | inner hframe _ ih =>
    intro name
    rw [resolve, resolve, hframe name, ih name]

theorem define (h : Alike k s t) (name : String) (v : Value) :
    Alike k (s.define name v) (t.define name v) := by
  cases h with
  | base h => exact .base (h.define name v)
  | inner hframe h =>
    refine .inner (fun other ↦ ?_) h
    rw [Frame.get?_insert, Frame.get?_insert, hframe other]

/-- An assignment that succeeds in both scopes changes corresponding frames. -/
theorem assign? (h : Alike k s t) {s' t' : Scope} {name : String} {v : Value}
    (hs : s.assign? name v = some s') (ht : t.assign? name v = some t') : Alike k s' t' := by
  induction h generalizing s' t' with
  | base h => exact .base (h.assign? hs ht)
  | @inner k f g s t hframe h ih =>
    -- the frames bind the same names, so both assignments change this frame or neither does
    have hcontains : f.contains name = g.contains name := by
      rw [f.contains_eq_isSome_get?, g.contains_eq_isSome_get?, hframe name]
    rw [Scope.assign?] at hs ht
    rw [← hcontains] at ht
    cases hc : f.contains name with
    | true =>
      rw [hc, if_pos rfl] at hs ht
      cases hs
      cases ht
      refine .inner (fun other ↦ ?_) h
      rw [Frame.get?_insert, Frame.get?_insert, hframe other]
    | false =>
      rw [hc, if_neg Bool.false_ne_true] at hs ht
      obtain ⟨outer, houter, rfl⟩ := Option.map_eq_some_iff.mp hs
      obtain ⟨outer', houter', rfl⟩ := Option.map_eq_some_iff.mp ht
      exact .inner hframe (ih houter houter')

theorem push (h : Alike k s t) (f : Frame) : Alike (k + 1) (s.push f) (t.push f) :=
  .inner (fun _ ↦ rfl) h

theorem pop (h : Alike (k + 1) s t) : Alike k s.pop t.pop := by
  cases h with
  | inner _ h => exact h

end Alike

end Scope

/-! ## Evaluation -/

namespace Eval

/-- Both evaluations end in the same way, with the same result, and in related worlds. -/
def SameOutcome {α : Type} (R : World → World → Prop) :
    EStateM.Result Halt World α → EStateM.Result Halt World α → Prop
  | .ok a w, .ok b w' => a = b ∧ R w w'
  | .error e w, .error e' w' => e = e' ∧ R w w'
  | _, _ => False

/-- The worlds cannot be told apart: the same names are visible, with the same values, and the same
text has been printed. -/
def Indistinct (w w' : World) : Prop :=
  w.scope.VisiblyEqual w'.scope ∧ w.printed = w'.printed

/-- The worlds cannot be told apart inside `k` frames, nor after dropping them. -/
def IndistinctWithin (k : Nat) (w w' : World) : Prop :=
  w.scope.Alike k w'.scope ∧ w.printed = w'.printed

/-- The evaluation keeps worlds that cannot be told apart so. -/
def SeesOnlyNames {α : Type} (act : EvalM α) : Prop :=
  ∀ w w', Indistinct w w' → SameOutcome Indistinct (act.run w) (act.run w')

/-- The same inside any number of frames. -/
def SeesOnlyNamesWithin (α : Type) (act : EvalM α) : Prop :=
  ∀ k w w', IndistinctWithin k w w' → SameOutcome (IndistinctWithin k) (act.run w) (act.run w')

section Rules

variable {α β : Type} {R S : World → World → Prop}

theorem SameOutcome.imp {r r' : EStateM.Result Halt World α} (h : SameOutcome R r r')
    (himp : ∀ w w', R w w' → S w w') : SameOutcome S r r' := by
  cases r <;> cases r'
  · exact ⟨h.1, himp _ _ h.2⟩
  · exact h
  · exact h
  · exact ⟨h.1, himp _ _ h.2⟩

theorem SameOutcome.bind {x : EvalM α} {f : α → EvalM β} {w w' : World}
    (hx : SameOutcome R (x.run w) (x.run w'))
    (hf : ∀ a v v', x.run w = .ok a v → R v v' → SameOutcome R ((f a).run v) ((f a).run v')) :
    SameOutcome R ((x >>= f).run w) ((x >>= f).run w') := by
  rw [EStateM.run_bind, EStateM.run_bind]
  cases hr : x.run w <;> cases hr' : x.run w' <;> rw [hr, hr'] at hx
  · obtain ⟨rfl, hw⟩ := hx
    exact hf _ _ _ hr hw
  · exact False.elim hx
  · exact False.elim hx
  · exact hx

theorem sameOutcome_within {frame : Frame} {body : EvalM α} {w w' : World}
    (hbody : SameOutcome S (body.run { w with scope := w.scope.push frame })
      (body.run { w' with scope := w'.scope.push frame }))
    (hpop : ∀ v v', S v v' →
      R { v with scope := v.scope.pop } { v' with scope := v'.scope.pop }) :
    SameOutcome R ((within frame body).run w) ((within frame body).run w') := by
  rw [run_within, run_within]
  cases hr : body.run { w with scope := w.scope.push frame } <;>
    cases hr' : body.run { w' with scope := w'.scope.push frame } <;> rw [hr, hr'] at hbody
  · exact ⟨hbody.1, hpop _ _ hbody.2⟩
  · exact hbody
  · exact hbody
  · exact ⟨hbody.1, hpop _ _ hbody.2⟩

theorem sameOutcome_lookup {name : String} {w w' : World} (h : R w w')
    (hresolve : w.scope.resolve name = w'.scope.resolve name) :
    SameOutcome R ((lookup name).run w) ((lookup name).run w') := by
  rw [run_lookup, run_lookup, hresolve]
  split
  · exact ⟨rfl, h⟩
  · exact ⟨rfl, h⟩

/-- Where the same names are visible, an assignment succeeds in both scopes or in neither. -/
theorem sameOutcome_assign {name : String} {v : Value} {w w' : World} (h : R w w')
    (hdefined : w.scope.isDefined name = w'.scope.isDefined name)
    (hassign : ∀ s t, w.scope.assign? name v = some s → w'.scope.assign? name v = some t →
      R { w with scope := s } { w' with scope := t }) :
    SameOutcome R ((assign name v).run w) ((assign name v).run w') := by
  have hsome : (w.scope.assign? name v).isSome = (w'.scope.assign? name v).isSome := by
    rw [Scope.isSome_assign?, Scope.isSome_assign?, hdefined]
  rw [run_assign, run_assign]
  cases hs : w.scope.assign? name v <;> cases ht : w'.scope.assign? name v <;> rw [hs, ht] at hsome
  · exact ⟨rfl, h⟩
  · cases hsome
  · cases hsome
  · exact ⟨rfl, hassign _ _ hs ht⟩

theorem sameOutcome_ofNative {r : NativeResult} {w w' : World}
    (h : R { w with printed := w.printed ++ r.1 } { w' with printed := w'.printed ++ r.1 }) :
    SameOutcome R ((ofNative r).run w) ((ofNative r).run w') := by
  obtain ⟨text, result⟩ := r
  rcases result with v | e
  · exact ⟨rfl, h⟩
  · exact ⟨rfl, h⟩

theorem seesOnlyNames_within (frame : Frame) {body : EvalM α}
    (hbody : SeesOnlyNamesWithin α body) : SeesOnlyNamesWithin α (within frame body) := by
  intro k w w' ⟨hscope, hprinted⟩
  -- the body runs under one frame more, in which the scopes agree because it is the same frame
  have h := hbody (k + 1) { w with scope := w.scope.push frame }
    { w' with scope := w'.scope.push frame } ⟨hscope.push frame, hprinted⟩
  exact sameOutcome_within h fun v v' hv ↦ ⟨hv.1.pop, hv.2⟩

theorem seesOnlyNames_lookup (name : String) : SeesOnlyNamesWithin Value (lookup name) := by
  intro k w w' h
  exact sameOutcome_lookup h (h.1.visiblyEqual name)

theorem seesOnlyNames_isDefined (name : String) : SeesOnlyNamesWithin Bool (isDefined name) := by
  intro k w w' h
  exact ⟨h.1.visiblyEqual.isDefined name, h⟩

theorem seesOnlyNames_define (name : String) (v : Value) :
    SeesOnlyNamesWithin Unit (define name v) := by
  intro k w w' h
  exact ⟨rfl, h.1.define name v, h.2⟩

theorem seesOnlyNames_assign (name : String) (v : Value) :
    SeesOnlyNamesWithin Unit (assign name v) := by
  intro k w w' h
  exact sameOutcome_assign h (h.1.visiblyEqual.isDefined name) fun s t hs ht ↦
    ⟨h.1.assign? hs ht, h.2⟩

theorem seesOnlyNames_ofNative (r : NativeResult) : SeesOnlyNamesWithin Value (ofNative r) := by
  intro k w w' h
  exact sameOutcome_ofNative ⟨h.1, by rw [h.2]⟩

theorem seesOnlyNames_rules : StatementRules SeesOnlyNamesWithin SeesOnlyNamesWithin := by
  have hsequence : SequenceRules SeesOnlyNamesWithin :=
    { pure := fun a k w w' h ↦ ⟨rfl, h⟩
      throw := fun e k w w' h ↦ ⟨rfl, h⟩
      bind := fun hx hf k w w' h ↦ (hx k w w' h).bind fun a v v' _ hv ↦ hf a k v v' hv }
  exact
    { hsequence with
      expressions :=
        { hsequence with
          lookup := seesOnlyNames_lookup
          ofNative := seesOnlyNames_ofNative }
      ofExpression := fun hx ↦ hx
      isDefined := seesOnlyNames_isDefined
      define := seesOnlyNames_define
      assign := seesOnlyNames_assign
      within := seesOnlyNames_within }

theorem SeesOnlyNamesWithin.seesOnlyNames {act : EvalM α} (h : SeesOnlyNamesWithin α act) :
    SeesOnlyNames act := by
  intro w w' hw
  exact (h 0 w w' ⟨.base hw.1, hw.2⟩).imp fun v v' hv ↦ ⟨hv.1.visiblyEqual, hv.2⟩

end Rules

/-- Evaluation sees the scope only through the values of names: it cannot tell visibly equal scopes
apart, whatever it evaluates and however it ends. So in particular it cannot tell a chain of frames
from the single frame with the same visible names. -/
theorem evaluation_sees_only_names (host : Host) (depth : Nat) :
    (∀ e, SeesOnlyNames (expression host depth e)) ∧
      (∀ s, SeesOnlyNames (single host depth s)) ∧
      (∀ taken body, SeesOnlyNames (statements host (callWithin host depth) taken body)) ∧
      (∀ body, SeesOnlyNames (block host depth body)) ∧
      (∀ f args, SeesOnlyNames (callWithin host depth f args)) ∧
      (∀ p, SeesOnlyNames (program host depth p)) ∧
      ∀ s : Scope, s.flatten.depth = 1 ∧ s.VisiblyEqual s.flatten := by
  have h := seesOnlyNames_rules
  refine ⟨fun e ↦ ?_, fun s ↦ ?_, fun taken body ↦ ?_, fun body ↦ ?_, fun f args ↦ ?_, fun p ↦ ?_,
    fun s ↦ ⟨rfl, s.visiblyEqual_flatten⟩⟩
  · exact (h.expression depth e).seesOnlyNames
  · exact (h.single depth s).seesOnlyNames
  · exact (h.statements (h.callWithin depth) taken body).seesOnlyNames
  · exact (h.block depth body).seesOnlyNames
  · exact (h.callWithin depth f args).seesOnlyNames
  · exact (h.program depth p).seesOnlyNames

end Eval

end Scriptlet
