import Scriptlet.Proofs.Eval.Persistence
import Scriptlet.Proofs.Eval.Pointwise

/-!
# Bindings that nothing mentions

A name that occurs neither in a program nor in a function that the program can reach may be bound
to anything, in any frame, and the program takes no notice: it ends in the same way, prints the same
text and leaves the same bindings, with the additional one among them as it was.

The two runs are compared frame by frame, so that bindings that others hide are compared too. What
is looked up, declared and assigned is always another name, and for other names the scopes agree in
every frame; in particular an assignment reaches the same frame in both. The functions that a run
can reach are those that the program defines and those that the scope holds, which is what a
fragment keeps track of.
-/

namespace Scriptlet

variable {host : Host} {y : String}

/-! ## Names in trees -/

theorem Expr.not_mem_names {e : Expr} (h : y ∉ e.names) :
    e.reads? ≠ some y ∧ ∀ part ∈ e.parts, y ∉ part.names := by
  rw [names, mem_collect, not_or, Option.mem_toList] at h
  exact ⟨h.1, fun part hpart hy ↦ h.2 ⟨part, hpart, hy⟩⟩

theorem Statement.not_mem_names {s : Statement Nat} (h : y ∉ s.names) :
    y ∉ s.ownNames ∧ (∀ e ∈ s.expressions, y ∉ e.names) ∧ ∀ r ∈ s.body, y ∉ r.names := by
  rw [names, mem_collect, not_or, not_or] at h
  obtain ⟨hown, hexpressions, hbody⟩ := h
  exact ⟨hown, fun e he hy ↦ hexpressions ⟨e, he, hy⟩, fun r hr hy ↦ hbody ⟨r, hr, hy⟩⟩

theorem Statement.declares?_ne {s : Statement Nat} (h : y ∉ s.names) : s.declares? ≠ some y := by
  have hown := (not_mem_names h).1
  cases s with
  | declare name e =>
    rw [ownNames, List.mem_singleton] at hown
    exact fun hname ↦ hown (Option.some.inj hname).symm
  | function tag name params body =>
    rw [ownNames, List.mem_cons, not_or] at hown
    exact fun hname ↦ hown.1 (Option.some.inj hname).symm
  | _ => simp [declares?]

/-- The names that occur in a value. Only script functions have any. -/
def Value.names : Value → List String
  | .function f => (Statement.function f.tag f.name f.params f.body).names
  | _ => []

/-- What mentions `y` nowhere. -/
def Fragment.without (hhost : host.HandsBack) (y : String) : Fragment host where
  expression e := y ∉ e.names
  statement s := y ∉ s.names
  value v := y ∉ v.names
  parts h := (Expr.not_mem_names h).2
  expressions h := (Statement.not_mem_names h).2.1
  body h := (Statement.not_mem_names h).2.2
  plain := by
    rintro (_ | _ | _ | _ | _ | _) hv <;> first | exact List.not_mem_nil | cases hv
  function := Iff.rfl
  native _ hargs hinvoke := by
    refine hhost.forall_invoke (fun v hv ↦ ?_) hargs hinvoke
    cases v with
    | function f => exact absurd rfl (hv f)
    | _ => exact List.not_mem_nil

/-! ## One binding more -/

namespace Scope

/-- The scope with the name bound in the frame at the level. -/
def bindAt (level : Nat) (name : String) (v : Value) : Scope → Scope
  | root f => if level = 0 then root (f.insert name v) else root f
  | inner f outer =>
    if level = outer.depth then inner (f.insert name v) outer
    else inner f (outer.bindAt level name v)

/-- The second scope has the bindings of the first, but for `y` in the frame at the level, which it
binds to `u`. -/
structure Adds (level : Nat) (y : String) (u : Value) (s t : Scope) : Prop where
  depth : t.depth = s.depth
  table : ∀ l other, t.valueAt l other
    = if l = level ∧ other = y then some u else s.valueAt l other

variable {level : Nat} {u : Value} {s t : Scope}

theorem depth_bindAt (level : Nat) (name : String) (v : Value) (s : Scope) :
    (s.bindAt level name v).depth = s.depth := by
  induction s with
  | root f => rw [bindAt]; split <;> rfl
  | inner f outer ih =>
    rw [bindAt]
    split
    · rfl
    · rw [depth, depth, ih]

theorem adds_bindAt (h : level < s.depth) (y : String) (u : Value) :
    Adds level y u s (s.bindAt level y u) := by
  refine ⟨s.depth_bindAt level y u, fun l other ↦ ?_⟩
  induction s with
  | root f =>
    obtain rfl : level = 0 := Nat.lt_one_iff.mp h
    by_cases hl : l = 0 <;> simp [bindAt, valueAt, f.get?_insert, hl]
  | inner f outer ih =>
    rw [bindAt]
    split
    · rename_i hlevel
      by_cases hl : l = outer.depth <;> simp [valueAt, f.get?_insert, hl, hlevel]
    · rename_i hlevel
      rw [depth] at h
      rw [valueAt, valueAt, depth_bindAt, ih (by omega)]
      by_cases hl : l = outer.depth
      · simp [hl, Ne.symm hlevel]
      · simp [hl]

namespace Adds

variable {name : String} {v : Value}

theorem lt_depth (h : Adds level y u s t) : level < s.depth := by
  rw [← h.depth]
  have hbound : t.valueAt level y = some u := by rw [h.table, if_pos ⟨rfl, rfl⟩]
  exact lt_depth_of_isSome (by rw [hbound]; rfl)

theorem valueAt_eq (h : Adds level y u s t) (hname : name ≠ y) (l : Nat) :
    s.valueAt l name = t.valueAt l name := by
  rw [h.table, if_neg fun hentry ↦ hname hentry.2]

theorem resolve (h : Adds level y u s t) (hname : name ≠ y) : s.resolve name = t.resolve name :=
  resolve_congr (h.valueAt_eq hname)

theorem isDefined (h : Adds level y u s t) (hname : name ≠ y) :
    s.isDefined name = t.isDefined name := by
  rw [isDefined_eq_isSome_resolve, isDefined_eq_isSome_resolve, h.resolve hname]

theorem define (h : Adds level y u s t) (hname : name ≠ y) (v : Value) :
    Adds level y u (s.define name v) (t.define name v) := by
  refine ⟨by rw [depth_define, depth_define, h.depth], fun l other ↦ ?_⟩
  rw [valueAt_define, valueAt_define, h.table, h.depth]
  grind

/-- The innermost frame that binds another name is at the same level in both scopes. -/
theorem assign? (h : Adds level y u s t) (hname : name ≠ y) {s' t' : Scope}
    (hs : s.assign? name v = some s') (ht : t.assign? name v = some t') :
    Adds level y u s' t' := by
  obtain ⟨holder, hsbound, hsinnermost, hstable⟩ := exists_rebinds_of_assign? hs
  obtain ⟨holder', htbound, htinnermost, httable⟩ := exists_rebinds_of_assign? ht
  have hholder : holder = holder' := by
    rw [← h.valueAt_eq hname] at htbound
    rcases Nat.lt_trichotomy holder holder' with hlt | heq | hlt
    · simp [hsinnermost _ hlt] at htbound
    · exact heq
    · rw [h.valueAt_eq hname, htinnermost _ hlt] at hsbound
      cases hsbound
  refine ⟨by rw [depth_of_assign? ht, depth_of_assign? hs, h.depth], fun l other ↦ ?_⟩
  rw [httable, hstable, h.table, hholder]
  grind

theorem push (h : Adds level y u s t) (frame : Frame) :
    Adds level y u (s.push frame) (t.push frame) := by
  have hlevel := Nat.ne_of_lt h.lt_depth
  refine ⟨by rw [depth_push, depth_push, h.depth], fun l other ↦ ?_⟩
  rw [valueAt_push, valueAt_push, h.table, h.depth]
  grind

/-- The frame that is dropped is not the one with the additional binding. -/
theorem pop {around : Scope} (h : Adds level y u s t) (hdepth : s.depth = around.depth + 1)
    (hlevel : level < around.depth) : Adds level y u s.pop t.pop := by
  have hdepth' : t.depth = around.depth + 1 := h.depth.trans hdepth
  refine ⟨by rw [depth_pop hdepth', depth_pop hdepth], fun l other ↦ ?_⟩
  rw [valueAt_pop hdepth', valueAt_pop hdepth, h.table]
  grind

end Adds

end Scope

namespace Eval

/-! ## Two runs -/

def AddsBinding (level : Nat) (y : String) (u : Value) (w w' : World) : Prop :=
  w.scope.Adds level y u w'.scope ∧ w.printed = w'.printed

/-- The evaluation ends in the same way with the additional binding as without it, and in worlds
that differ in that binding again. These have as many frames as the world at the start. -/
def Overlooks (level : Nat) (y : String) (u : Value) : Pointwise :=
  fun _ act w ↦ ∀ w', AddsBinding level y u w w' →
    SameOutcome (fun v v' ↦ v.scope.depth = w.scope.depth ∧ AddsBinding level y u v v')
      (act.run w) (act.run w')

section Laws

variable {level : Nat} {u : Value}

theorem overlooks_bind {α β : Type} {x : EvalM α} {f : α → EvalM β} {w : World}
    (hx : Overlooks level y u α x w)
    (hf : ∀ a v, x.run w = .ok a v → Overlooks level y u β (f a) v) :
    Overlooks level y u β (x >>= f) w := by
  intro w' h
  refine (hx w' h).bind fun a v v' hrun hv ↦ ?_
  exact (hf a v hrun v' hv.2).imp fun _ _ hend ↦ ⟨hend.1.trans hv.1, hend.2⟩

theorem overlooks_assign {name : String} (hname : name ≠ y) (v : Value) (w : World) :
    Overlooks level y u Unit (assign name v) w := by
  intro w' h
  refine sameOutcome_assign ⟨rfl, h⟩ (h.1.isDefined hname) fun s t hs ht ↦ ?_
  exact ⟨Scope.depth_of_assign? hs, h.1.assign? hname hs ht, h.2⟩

theorem overlooks_define {name : String} (hname : name ≠ y) (v : Value) (w : World) :
    Overlooks level y u Unit (define name v) w := by
  intro w' h
  exact ⟨rfl, w.scope.depth_define name v, h.1.define hname v, h.2⟩

theorem overlooks_within {frame : Frame} {body : EvalM Value} {w : World}
    (hbody : Overlooks level y u Value body { w with scope := w.scope.push frame }) :
    Overlooks level y u Value (within frame body) w := by
  intro w' h
  have hpush := hbody { w' with scope := w'.scope.push frame } ⟨h.1.push frame, h.2⟩
  refine sameOutcome_within hpush fun v v' hv ↦ ?_
  obtain ⟨hdepth, hadds, hprinted⟩ := hv
  exact ⟨Scope.depth_pop hdepth, hadds.pop hdepth h.1.lt_depth, hprinted⟩

theorem overlooks_laws (hhost : host.HandsBack) :
    PointwiseLaws (.without hhost y) (Overlooks level y u) where
  pure _ _ _ h := ⟨rfl, rfl, h⟩
  fail _ _ _ h := ⟨rfl, rfl, h⟩
  bind := overlooks_bind
  lookup he hname w w' h := by
    refine sameOutcome_lookup ⟨rfl, h⟩ (h.1.resolve ?_)
    rintro rfl
    exact (Expr.not_mem_names he).1 hname
  ofNative _ w w' h := sameOutcome_ofNative ⟨rfl, h.1, by rw [h.2]⟩
  assign hs := by
    refine overlooks_assign ?_
    rintro rfl
    exact (Statement.not_mem_names hs).1 (List.mem_singleton.mpr rfl)
  isDefined hs hname w w' h := by
    refine ⟨h.1.isDefined ?_, rfl, h⟩
    rintro rfl
    exact Statement.declares?_ne hs hname
  define hs hname := by
    refine overlooks_define ?_
    rintro rfl
    exact Statement.declares?_ne hs hname
  within _ hbody := overlooks_within hbody

end Laws

/-- A binding of a name that occurs neither in the program nor in a function of the scope does not
matter. With it, in whichever frame and whatever its value, the statements complete as they do
without it, the program ends with the same value or error and prints the same, and afterwards the
scopes differ in that binding again and in nothing else. -/
theorem unmentioned_binding_is_inert (hhost : host.HandsBack) (depth : Nat) {y : String}
    {p : List (Statement Nat)} {w : World} {level : Nat} (hp : ∀ s ∈ p, y ∉ s.names)
    (hstored : w.scope.Holds fun v ↦ y ∉ v.names) (hlevel : level < w.scope.depth) (u : Value) :
    SameOutcome (AddsBinding level y u) ((block host depth p).run w)
        ((block host depth p).run { w with scope := w.scope.bindAt level y u }) ∧
      SameOutcome (AddsBinding level y u) ((program host depth p).run w)
        ((program host depth p).run { w with scope := w.scope.bindAt level y u }) := by
  have hlaws : PointwiseLaws (.without hhost y) (Overlooks level y u) := overlooks_laws hhost
  have hdeep : ∀ w, Overlooks level y u Value (throw .tooDeep) w := fun _ _ h ↦ ⟨rfl, rfl, h⟩
  have hadds : AddsBinding level y u w { w with scope := w.scope.bindAt level y u } :=
    ⟨Scope.adds_bindAt hlevel y u, rfl⟩
  constructor
  · exact (hlaws.of_block hdeep depth hp hstored _ hadds).imp fun _ _ h ↦ h.2
  · exact (hlaws.of_program hdeep depth hp hstored _ hadds).imp fun _ _ h ↦ h.2

/-- Two frames with a function `keep` in the outer one, which prints its argument and assigns it to
the nearest `kept`, and builtins beside it. -/
def keepingFrames : World where
  scope := .inner ⟨[("kept", .string "inner")]⟩ <| .root
    ⟨[("print", .builtin ⟨0, "print", 1, .print⟩), ("pick", .builtin ⟨1, "pick", 1, .host "first"⟩),
      ("kept", .string "outer"),
      ("keep", .function ⟨2, "keep", ["x"],
        [.expression (.call "print" [.name "x"]), .assign "kept" (.name "x")]⟩)]⟩

/-- `keep` is handed through a builtin to another name and called, and what it kept is returned. -/
def keeping : List (Statement Nat) :=
  [.declare "other" (.call "pick" [.name "keep"]), .expression (.call "other" [.string "this"]),
    .returns (.name "kept")]

/-- Whether or not the outer frame binds `y`, here to a function that calls `y`, the program prints
and returns the same. -/
theorem keeping_overlooks_y :
    (∃ v, (program Host.stock 1 keeping).run keepingFrames = .ok (some (.string "this")) v) ∧
      SameOutcome (AddsBinding 0 "y" (.function ⟨7, "y", [], [.expression (.call "y" [])]⟩))
        ((program Host.stock 1 keeping).run keepingFrames)
        ((program Host.stock 1 keeping).run { keepingFrames with
          scope := keepingFrames.scope.bindAt 0 "y"
            (.function ⟨7, "y", [], [.expression (.call "y" [])]⟩) }) := by
  have hstored : keepingFrames.scope.Holds fun v ↦ "y" ∉ v.names :=
    Scope.holds_of_forall_bindings (by decide)
  refine ⟨⟨_, rfl⟩, ?_⟩
  exact (unmentioned_binding_is_inert handsBack_stock 1 (by decide) hstored (by decide) _).2

end Eval

end Scriptlet
