import Scriptlet.Proofs.Eval.Evolution
import Scriptlet.Proofs.Eval.Visibility

/-!
# What evaluation leaves as it was

Three laws of scopes, each proved of one change first and then, by induction over `Evolves`, of
whole evaluations, whatever they call and however they end.

* Names: an expression binds no name and unbinds none, in no frame. A statement may bind further
  names, but in the innermost frame only, and none that was visible before.
* Shielding: a name that the innermost frame binds keeps its values in all the frames around it.
  The frame may be anywhere in the chain when this is proved, since calls push further frames inside
  it; the innermost binding of the name can then never lie outside that frame.
* Constancy: a visible name to which no statement assigns keeps its values in all frames. Functions
  are values, so this takes an invariant: no function that can be reached assigns to the name
  either.
-/

namespace Scriptlet

variable {host : Host} {F : Fragment host}

/-! ## Names -/

namespace Scope

def BoundAt (s : Scope) (level : Nat) (name : String) : Prop := (s.valueAt level name).isSome

/-- The scopes have as many frames, and those at the same level bind the same names. -/
structure SameNames (s t : Scope) : Prop where
  depth : t.depth = s.depth
  bound : ∀ level name, t.BoundAt level name ↔ s.BoundAt level name

/-- In the second scope the innermost frame binds the names that it binds in the first, and further
ones that no frame binds there. In all other frames the names are the same. -/
structure GainsNames (s t : Scope) : Prop where
  depth : t.depth = s.depth
  outer : ∀ level name, level + 1 < s.depth → (t.BoundAt level name ↔ s.BoundAt level name)
  kept : ∀ level name, s.BoundAt level name → t.BoundAt level name
  new : ∀ level name, t.BoundAt level name → ¬ s.BoundAt level name → s.isDefined name = false

/-- All that the first scope binds is bound to the same values in the second. -/
def ExtendedBy (s t : Scope) : Prop :=
  ∀ level name v, s.valueAt level name = some v → t.valueAt level name = some v

variable {s t u : Scope} {name : String} {v : Value}

theorem SameNames.gainsNames (h : SameNames s t) : GainsNames s t where
  depth := h.depth
  outer level name _ := h.bound level name
  kept level name := (h.bound level name).mpr
  new level name ht hs := absurd ((h.bound level name).mp ht) hs

theorem SameNames.trans (h : SameNames s t) (h' : SameNames t u) : SameNames s u where
  depth := h'.depth.trans h.depth
  bound level name := (h'.bound level name).trans (h.bound level name)

theorem GainsNames.isDefined (h : GainsNames s t) (hs : s.isDefined name = true) :
    t.isDefined name = true := by
  obtain ⟨level, hlevel⟩ := isDefined_iff.mp hs
  exact isDefined_iff.mpr ⟨level, h.kept level name hlevel⟩

theorem GainsNames.trans (h : GainsNames s t) (h' : GainsNames t u) : GainsNames s u where
  depth := h'.depth.trans h.depth
  outer level name hlevel :=
    (h'.outer level name (by rw [h.depth]; exact hlevel)).trans (h.outer level name hlevel)
  kept level name hs := h'.kept level name (h.kept level name hs)
  new level name hu hs := by
    by_cases ht : t.BoundAt level name
    · exact h.new level name ht hs
    · have hnew := h'.new level name hu ht
      rw [Bool.eq_false_iff] at hnew ⊢
      exact fun hdefined ↦ hnew (h.isDefined hdefined)

theorem extendedBy_define (hnew : s.isDefined name = false) (v : Value) :
    ExtendedBy s (s.define name v) := by
  intro level other u hu
  have hother : other ≠ name := by
    rintro rfl
    rw [valueAt_of_not_isDefined hnew] at hu
    cases hu
  rw [valueAt_define, if_neg fun h ↦ hother h.2, hu]

theorem gainsNames_define (hnew : s.isDefined name = false) (v : Value) :
    GainsNames s (s.define name v) where
  depth := s.depth_define name v
  outer level other hlevel := by
    have hinner : level + 1 ≠ s.depth := by omega
    simp [BoundAt, valueAt_define, hinner]
  kept level other hs := by
    obtain ⟨u, hu⟩ := Option.isSome_iff_exists.mp hs
    exact Option.isSome_iff_exists.mpr ⟨u, extendedBy_define hnew v level other u hu⟩
  new level other ht hs := by
    rw [BoundAt, valueAt_define] at ht
    split at ht
    · rename_i hentry
      rw [hentry.2, hnew]
    · exact absurd ht hs

theorem sameNames_of_assign? (h : s.assign? name v = some t) : SameNames s t where
  depth := depth_of_assign? h
  bound level other := by
    obtain ⟨holder, hbound, -, htable⟩ := exists_rebinds_of_assign? h
    rw [BoundAt, BoundAt, htable]
    split
    · rename_i hentry
      rw [hentry.1, hentry.2, hbound, Option.isSome_some]
    · rfl

/-- What a call binds is bound in the frame that is dropped with it. -/
theorem sameNames_of_call {frame : Frame} (h : GainsNames (s.push frame) t) :
    SameNames s t.pop where
  depth := depth_pop h.depth
  bound level name := by
    rw [BoundAt, valueAt_pop h.depth]
    by_cases hlevel : level < s.depth
    · have houter := h.outer level name (by rw [depth_push]; omega)
      rw [BoundAt, BoundAt, valueAt_push, if_neg (Nat.ne_of_lt hlevel)] at houter
      rw [if_pos hlevel]
      exact houter
    · rw [if_neg hlevel, BoundAt, valueAt_of_depth_le (Nat.le_of_not_lt hlevel)]

theorem Evolves.gainsNames {defining : Bool} (h : Evolves F defining s t) : GainsNames s t := by
  induction h with
  | done => exact SameNames.gainsNames ⟨rfl, fun _ _ ↦ Iff.rfl⟩
  | define hnew _ _ ih => exact (gainsNames_define hnew _).trans ih
  | assign _ _ h _ ih => exact (sameNames_of_assign? h).gainsNames.trans ih
  | call _ _ _ ihbody ihrest => exact (sameNames_of_call ihbody).gainsNames.trans ihrest

theorem Evolves.sameNames (h : Evolves F false s t) : SameNames s t := by
  generalize hflag : false = defining at h
  induction h with
  | done => exact ⟨rfl, fun _ _ ↦ Iff.rfl⟩
  | define => cases hflag
  | assign _ _ h _ ih => exact (sameNames_of_assign? h).trans (ih hflag)
  | call _ hbody _ _ ihrest => exact (sameNames_of_call hbody.gainsNames).trans (ihrest hflag)

end Scope

namespace Eval

open Scope (SameNames GainsNames ExtendedBy)

theorem scopeAfter_bind_pure {α β : Type} (x : EvalM α) (f : α → β) (w : World) :
    scopeAfter (x >>= fun a ↦ pure (f a)) w = scopeAfter x w := by
  rw [scopeAfter, scopeAfter, EStateM.run_bind]
  rcases x.run w with ⟨a, v⟩ | ⟨e, v⟩ <;> rfl

section Names

variable (host : Host) (depth : Nat) (w : World)

/-- A name is defined only where it is not visible, and then nothing is lost. -/
theorem extendedBy_defineNew {α : Type} {x y : EvalM α} {name : String} {v : Value}
    (hx : ∀ w, scopeAfter x w = w.scope) (hy : ∀ w, scopeAfter y w = w.scope) :
    ExtendedBy w.scope (scopeAfter (do if ← isDefined name then x else define name v; y) w) := by
  show ExtendedBy w.scope (scopeAfter
    (if w.scope.isDefined name = true then x else (do define name v; y : EvalM α)) w)
  split
  · rw [hx]
    exact fun _ _ _ h ↦ h
  · rename_i hnew
    have hafter := hy { w with scope := w.scope.define name v }
    show ExtendedBy w.scope (scopeAfter y { w with scope := w.scope.define name v })
    rw [hafter]
    exact Scope.extendedBy_define (Bool.not_eq_true _ ▸ hnew) v

theorem extendedBy_declare (name : String) (e : Expr) :
    ExtendedBy (scopeAfter (expression host depth e) w)
      (scopeAfter (single host depth (.declare name e)) w) := by
  rw [single, scopeAfter_bind_pure, statement, expression, scopeAfter, scopeAfter, EStateM.run_bind]
  rcases (expr host (callWithin host depth) e).run w with ⟨v, u⟩ | ⟨halt, u⟩
  · exact extendedBy_defineNew u (fun _ ↦ rfl) fun _ ↦ rfl
  · exact fun _ _ _ h ↦ h

theorem extendedBy_function (tag : Nat) (name : String) (params : List String)
    (body : List (Statement Nat)) :
    ExtendedBy w.scope (scopeAfter (single host depth (.function tag name params body)) w) := by
  rw [single, scopeAfter_bind_pure, statement]
  exact extendedBy_defineNew w (fun _ ↦ rfl) fun _ ↦ rfl

/-- Expressions and calls bind the same names in every frame as before. Statements, blocks and
programs gain names in the innermost frame only, and none that was visible. So declarations and
functions neither hide a binding nor replace one, nor do they outlive the call in which they
stand. Native functions are part of the evaluations: they are given their arguments and no scope, so
that they bind nothing, and this is taken from the type of `Host`. -/
theorem only_innermost_gains_names :
    (∀ e, SameNames w.scope (scopeAfter (expression host depth e) w)) ∧
      (∀ f args, SameNames w.scope (scopeAfter (callWithin host depth f args) w)) ∧
      (∀ s, GainsNames w.scope (scopeAfter (single host depth s) w)) ∧
      (∀ body, GainsNames w.scope (scopeAfter (block host depth body) w)) ∧
      (∀ p, GainsNames w.scope (scopeAfter (program host depth p) w)) ∧
      (∀ name e, ExtendedBy (scopeAfter (expression host depth e) w)
        (scopeAfter (single host depth (.declare name e)) w)) ∧
      ∀ tag name params body,
        ExtendedBy w.scope (scopeAfter (single host depth (.function tag name params body)) w) := by
  refine ⟨fun e ↦ ?_, fun f args ↦ ?_, fun s ↦ ?_, fun body ↦ ?_, fun p ↦ ?_,
    extendedBy_declare host depth w, extendedBy_function host depth w⟩
  · exact (evolves_expression host depth w e).sameNames
  · exact (evolves_call host depth w f args).sameNames
  · exact (evolves_single host depth w s).gainsNames
  · exact (evolves_statements host depth w false body).gainsNames
  · exact (evolves_program host depth w p).gainsNames

end Names

end Eval

/-! ## Shielding -/

namespace Scope

/-- All frames but the innermost bind the name as before. -/
def SameOuter (name : String) (s t : Scope) : Prop :=
  ∀ level, level + 1 < s.depth → t.valueAt level name = s.valueAt level name

variable {s t : Scope} {defining : Bool} {name : String}

/-- A frame that binds a name keeps all changes of it away from the frames further out. -/
theorem Evolves.valueAt_eq_of_boundAt (h : Evolves F defining s t) {holder level : Nat}
    (hbound : s.BoundAt holder name) (hlevel : level < holder) :
    t.valueAt level name = s.valueAt level name := by
  induction h with
  | done => rfl
  | define hnew _ _ ih =>
    have hinner : level + 1 ≠ _ := Nat.ne_of_lt
      (Nat.lt_of_le_of_lt hlevel (lt_depth_of_isSome hbound))
    rw [ih ((gainsNames_define hnew _).kept holder name hbound), valueAt_define,
      if_neg fun hentry ↦ hinner hentry.1]
  | assign _ _ h _ ih =>
    obtain ⟨nearest, -, hinnermost, htable⟩ := exists_rebinds_of_assign? h
    rw [ih (((sameNames_of_assign? h).bound holder name).mpr hbound), htable, if_neg]
    -- the assignment would have reached the frame at `holder` before that at `level`
    rintro ⟨rfl, rfl⟩
    rw [BoundAt, hinnermost holder hlevel] at hbound
    cases hbound
  | @call _ s t u frame _ hbody _ ihbody ihrest =>
    have hdepth : holder < s.depth := lt_depth_of_isSome hbound
    have hpushed : (s.push frame).BoundAt holder name := by
      rw [BoundAt, valueAt_push, if_neg (Nat.ne_of_lt hdepth)]
      exact hbound
    have hpopped := ((sameNames_of_call hbody.gainsNames).bound holder name).mpr hbound
    rw [ihrest hpopped]
    exact valueAt_pop_of_push hbody.depth_eq fun _ ↦ ihbody hpushed

theorem Evolves.sameOuter (h : Evolves F defining s t) (hlocal : s.isLocal name = true) :
    SameOuter name s t := by
  intro level hlevel
  rw [isLocal_eq_isSome_valueAt] at hlocal
  exact h.valueAt_eq_of_boundAt hlocal (by omega)

end Scope

namespace Eval

open Scope (SameOuter)

section Shielding

variable (host : Host) (depth : Nat) (w : World)

theorem yields_exprs_length (call : UserFunction → List Value → EvalM Value) (es : List Expr) :
    Yields (fun args ↦ args.length = es.length) (exprs host call es) := by
  induction es with
  | nil =>
    rw [exprs]
    intro w args w' h
    cases h
    rfl
  | cons e es ih =>
    have hfirst : Yields (fun _ ↦ True) (expr host call e) := fun _ _ _ _ ↦ trivial
    rw [exprs]
    refine hfirst.bind fun v _ ↦ ih.bind fun args hargs w result w' h ↦ ?_
    cases h
    rw [List.length_cons, List.length_cons, hargs]

theorem scopeAfter_within {α : Type} (frame : Frame) (body : EvalM α) :
    scopeAfter (within frame body) w
      = (scopeAfter body { w with scope := w.scope.push frame }).pop := by
  rw [scopeAfter, scopeAfter, run_within]
  rcases body.run { w with scope := w.scope.push frame } with ⟨a, v⟩ | ⟨e, v⟩ <;> rfl

/-- A call changes no binding of a parameter outside of its own frame. -/
theorem valueAt_scopeAfter_callWithin {f : UserFunction} {args : List Value}
    (hlength : args.length = f.params.length) {x : String} (hx : x ∈ f.params) (level : Nat) :
    (scopeAfter (callWithin host depth f args) w).valueAt level x = w.scope.valueAt level x := by
  rcases depth with _ | depth
  · rfl
  rw [callWithin, scopeAfter_within, scopeAfter_bind_pure]
  generalize hframe : Frame.ofPairs (f.params.zip args) = frame
  have hbody := evolves_statements host depth { w with scope := w.scope.push frame } false f.body
  have hbound : (w.scope.push frame).BoundAt w.scope.depth x := by
    rw [Scope.BoundAt, Scope.valueAt_push, if_pos rfl, ← hframe]
    exact Frame.isSome_get?_ofPairs_zip hlength hx
  exact Scope.valueAt_pop_of_push hbody.depth_eq fun hlevel ↦
    hbody.valueAt_eq_of_boundAt hbound hlevel

theorem scopeAfter_call {callee : String} {arguments : List Expr} {f : UserFunction}
    {args : List Value} {u : World} (hcallee : w.scope.resolve callee = some (.function f))
    (hlength : arguments.length = f.params.length)
    (hargs : (exprs host (callWithin host depth) arguments).run w = .ok args u) :
    scopeAfter (expression host depth (.call callee arguments)) w
      = scopeAfter (callWithin host depth f args) u := by
  rw [scopeAfter, scopeAfter, expression, expr, EStateM.run_bind, run_lookup, hcallee]
  dsimp only
  rw [if_pos hlength, EStateM.run_bind, hargs]

/-- A name that the innermost frame binds keeps its values in all frames around it, whatever is
evaluated. So the call of a function with a parameter `x` leaves every binding of `x` outside as it
was when the arguments had been evaluated. That a native function assigns to no name is not proved
here but comes with the type of `Host`, whose functions are given their arguments only. -/
theorem local_binding_shields_outer (x : String) :
    (w.scope.isLocal x = true →
      (∀ e, SameOuter x w.scope (scopeAfter (expression host depth e) w)) ∧
      (∀ s, SameOuter x w.scope (scopeAfter (single host depth s) w)) ∧
      (∀ taken body, SameOuter x w.scope
        (scopeAfter (statements host (callWithin host depth) taken body) w)) ∧
      ∀ p, SameOuter x w.scope (scopeAfter (program host depth p) w)) ∧
    ∀ callee arguments f args u, w.scope.resolve callee = some (.function f) → x ∈ f.params →
      arguments.length = f.params.length →
      (exprs host (callWithin host depth) arguments).run w = .ok args u →
      ∀ level, (scopeAfter (expression host depth (.call callee arguments)) w).valueAt level x
        = u.scope.valueAt level x := by
  refine ⟨fun hlocal ↦ ⟨fun e ↦ ?_, fun s ↦ ?_, fun taken body ↦ ?_, fun p ↦ ?_⟩, ?_⟩
  · exact (evolves_expression host depth w e).sameOuter hlocal
  · exact (evolves_single host depth w s).sameOuter hlocal
  · exact (evolves_statements host depth w taken body).sameOuter hlocal
  · exact (evolves_program host depth w p).sameOuter hlocal
  · intro callee arguments f args u hcallee hx hlength hargs level
    have harity : args.length = f.params.length :=
      (yields_exprs_length host _ arguments w args u hargs).trans hlength
    rw [scopeAfter_call host depth w hcallee hlength hargs]
    exact valueAt_scopeAfter_callWithin host depth u harity hx level

/-- A frame that binds `x`, inside one that binds `x` too. Of the functions there, `set` assigns to
`x` and `own` assigns to a parameter of that name. -/
def nestedFrames : World where
  scope := .inner ⟨[("x", .string "inner")]⟩ <| .root
    ⟨[("x", .string "outer"),
      ("set", .function ⟨0, "set", [], [.assign "x" (.string "changed")]⟩),
      ("own", .function ⟨1, "own", ["x"], [.expression (.call "set" [])]⟩)]⟩

/-- In nested frames `set` changes the inner `x` and not the outer one, and `own` changes
neither. -/
theorem outer_survives_assignment :
    nestedFrames.scope.isLocal "x" = true ∧
      (scopeAfter (program Host.none 1 [.expression (.call "set" [])]) nestedFrames).valueAt 1 "x"
        = some (.string "changed") ∧
      (scopeAfter (program Host.none 1 [.expression (.call "set" [])]) nestedFrames).valueAt 0 "x"
        = some (.string "outer") ∧
      ∀ level, (scopeAfter (expression Host.none 2 (.call "own" [.string "argument"]))
        nestedFrames).valueAt level "x" = nestedFrames.scope.valueAt level "x" := by
  have h := local_binding_shields_outer Host.none 1 nestedFrames "x"
  have h' := local_binding_shields_outer Host.none 2 nestedFrames "x"
  refine ⟨by decide, rfl, ?_, ?_⟩
  · exact (h.1 (by decide)).2.2.2 _ 0 (by decide)
  · exact h'.2 "own" _ _ _ _ rfl (by decide) rfl rfl

end Shielding

end Eval

/-! ## Constancy -/

namespace Statement

variable {ι : Type}

mutual

/-- The names to which a statement assigns, or a statement inside it, at whatever depth. -/
def targets : Statement ι → List String
  | assign name _ => [name]
  | ifBranch _ body | elifBranch _ body | elseBranch body | function _ _ _ body | block body =>
    targetsAll body
  | declare .. | returns _ | expression _ => []

def targetsAll : List (Statement ι) → List String
  | [] => []
  | s :: rest => targets s ++ targetsAll rest

end

theorem targetsAll_eq_flatMap (p : List (Statement ι)) : targetsAll p = p.flatMap targets := by
  induction p with
  | nil => rfl
  | cons s rest ih => rw [targetsAll, ih, List.flatMap_cons]

theorem not_mem_targetsAll {x : String} {p : List (Statement ι)} :
    x ∉ targetsAll p ↔ ∀ s ∈ p, x ∉ s.targets := by
  simp [targetsAll_eq_flatMap]

theorem not_mem_targets_of_mem_body {x : String} {s : Statement ι} (h : x ∉ s.targets) :
    ∀ t ∈ s.body, x ∉ t.targets := by
  cases s with
  | declare | assign | returns | expression => simp [body]
  | ifBranch | elifBranch | elseBranch | function | block => exact not_mem_targetsAll.mp h

end Statement

/-- The names to which a call of the value assigns; builtins assign to none. -/
def Value.targets : Value → List String
  | .function f => Statement.targetsAll f.body
  | _ => []

/-- The native functions return no script function but those among their arguments. -/
def Host.HandsBack (host : Host) : Prop :=
  ∀ key args f, (host key args).2 = .ok (.function f) → .function f ∈ args

theorem Host.HandsBack.of_invoke (h : host.HandsBack) {builtin : Builtin} {args : List Value}
    {f : UserFunction} (hinvoke : (builtin.invoke host args).2 = .ok (.function f)) :
    .function f ∈ args := by
  rcases hnative : builtin.native with _ | key
  · rcases Builtin.invoke_print hnative args with hprint | ⟨_, _, _, hprint⟩ <;>
      rw [hprint] at hinvoke <;> cases hinvoke
  · rw [Builtin.invoke] at hinvoke
    split at hinvoke
    · rw [hnative, Native.run] at hinvoke
      exact h key args f hinvoke
    · cases hinvoke

/-- A property of all values but script functions is one of the results of builtins, so far as it is
one of their arguments. -/
theorem Host.HandsBack.forall_invoke (h : host.HandsBack) {ok : Value → Prop}
    (hother : ∀ v, (∀ f, v ≠ .function f) → ok v) {builtin : Builtin} {args : List Value}
    (hargs : ∀ a ∈ args, ok a) {v : Value} (hinvoke : (builtin.invoke host args).2 = .ok v) :
    ok v := by
  by_cases hv : ∃ f, v = .function f
  · obtain ⟨f, rfl⟩ := hv
    exact hargs _ (h.of_invoke hinvoke)
  · exact hother v fun f hf ↦ hv ⟨f, hf⟩

/-- What assigns to `x` nowhere. -/
def Fragment.unassigned (hhost : host.HandsBack) (x : String) : Fragment host where
  expression _ := True
  statement s := x ∉ s.targets
  value v := x ∉ v.targets
  parts _ _ _ := trivial
  expressions _ _ _ := trivial
  body := Statement.not_mem_targets_of_mem_body
  plain := by
    rintro (_ | _ | _ | _ | _ | _) hv <;> first | exact List.not_mem_nil | cases hv
  function := Iff.rfl
  native _ hargs hinvoke := by
    refine hhost.forall_invoke (fun v hv ↦ ?_) hargs hinvoke
    cases v with
    | function f => exact absurd rfl (hv f)
    | _ => exact List.not_mem_nil

namespace Scope

variable {s t : Scope} {defining : Bool} {x : String}

theorem Evolves.valueAt_eq_of_unassigned (h : Evolves F defining s t)
    (hF : ∀ name value, F.statement (.assign name value) → name ≠ x)
    (hx : s.isDefined x = true) (level : Nat) : t.valueAt level x = s.valueAt level x := by
  induction h with
  | done => rfl
  | define hnew _ _ ih =>
    rw [ih ((gainsNames_define hnew _).isDefined hx), valueAt_define, if_neg]
    rintro ⟨-, rfl⟩
    rw [hnew] at hx
    cases hx
  | assign hs _ h _ ih =>
    obtain ⟨holder, -, -, htable⟩ := exists_rebinds_of_assign? h
    rw [ih ((sameNames_of_assign? h).gainsNames.isDefined hx), htable, if_neg]
    rintro ⟨-, rfl⟩
    exact hF _ _ hs rfl
  | @call _ s t u frame _ hbody _ ihbody ihrest =>
    -- the name stays visible in the frame of the call, so that it cannot be declared there either
    have hpushed : (s.push frame).isDefined x = true := by
      rw [push, isDefined, hx, Bool.or_true]
    rw [ihrest ((sameNames_of_call hbody.gainsNames).gainsNames.isDefined hx)]
    exact valueAt_pop_of_push hbody.depth_eq fun _ ↦ ihbody hpushed

end Scope

namespace Eval

/-- A visible name to which nothing assigns, neither the program nor a function that the scope
holds, is bound in every frame after the program as it was before. -/
theorem unassigned_name_is_constant (hhost : host.HandsBack) (depth : Nat) {x : String}
    {p : List (Statement Nat)} {w : World} (hx : w.scope.isDefined x = true)
    (hp : x ∉ Statement.targetsAll p) (hstored : w.scope.Holds fun v ↦ x ∉ v.targets) :
    (scopeAfter (program host depth p) w).depth = w.scope.depth ∧
      ∀ level, (scopeAfter (program host depth p) w).valueAt level x
        = w.scope.valueAt level x := by
  have hevolves := (((evolving_laws (.unassigned hhost x)).program
    (callLaw_evolving host depth _) (Statement.not_mem_targetsAll.mp hp)) w hstored).scopeAfter
  refine ⟨hevolves.depth_eq, hevolves.valueAt_eq_of_unassigned (fun name value hs ↦ ?_) hx⟩
  rintro rfl
  exact hs (List.mem_singleton.mpr rfl)

theorem handsBack_stock : Host.stock.HandsBack := by
  intro key args f h
  rw [Host.stock.eq_def] at h
  split at h
  · cases h
  · rcases args with _ | ⟨v, args⟩
    · cases h
    · cases h
      exact List.mem_cons_self
  · cases h
  · rcases hnumber : (args.head?.getD .undefined).asNumber "double" with e | x <;>
      rw [hnumber] at h <;> cases h
  · cases h
  · cases h

/-- An `x` around a frame that binds `y`, and a builtin that returns its argument. -/
def constantOutside : World where
  scope := .inner ⟨[("y", .string "old")]⟩ <| .root
    ⟨[("x", .string "kept"), ("pick", .builtin ⟨0, "pick", 1, .host "first"⟩)]⟩

/-- A function with a parameter `x` is defined, handed through a builtin to another name and called,
and then `x` is declared again, which fails. -/
def aliased : List (Statement Nat) :=
  [.function 1 "set" ["x"] [.assign "y" (.name "x")],
    .declare "other" (.call "pick" [.name "set"]),
    .expression (.call "other" [.string "new"]),
    .declare "x" (.string "again")]

theorem constant_through_alias :
    (scopeAfter (program Host.stock 1 aliased) constantOutside).valueAt 1 "y"
        = some (.string "new") ∧
      ∀ level, (scopeAfter (program Host.stock 1 aliased) constantOutside).valueAt level "x"
        = constantOutside.scope.valueAt level "x" := by
  refine ⟨by rfl, ?_⟩
  have hstored : constantOutside.scope.Holds fun v ↦ "x" ∉ v.targets :=
    Scope.holds_of_forall_bindings (by decide)
  exact (unassigned_name_is_constant handsBack_stock 1 (by decide) (by decide) hstored).2

end Eval

end Scriptlet
