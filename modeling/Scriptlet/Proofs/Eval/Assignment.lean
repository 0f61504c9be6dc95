import Scriptlet.Proofs.Eval.Visibility
import Scriptlet.Proofs.Scope.Bindings

/-!
# What an assignment writes and what resolution reads

Looking a name up and assigning it are separate walks along the chain, one by values and one by
names. They stop at the same frame, the *holder*: an assignment writes the binding that resolution
reads, and nothing else.

The scopes of a chain are its parts `upTo level`. The holder is the innermost frame that binds the
name, so all of them from the innermost out to the holder resolve it there. After an assignment these
see the new value, and those further out see what they saw before.
-/

namespace Scriptlet

namespace Scope

variable {s t : Scope} {name : String} {v : Value} {level holder : Nat}

/-! ## The scopes of a chain -/

/-- The scope of the chain whose innermost frame is at the level. It is the chain itself if the level
is that of the innermost frame of all. -/
def upTo : Scope → Nat → Scope
  | root f, _ => root f
  | inner f outer, level => if level < outer.depth then outer.upTo level else inner f outer

/-- A scope of the chain has the bindings of the levels up to its own. -/
theorem valueAt_upTo (s : Scope) (level l : Nat) (name : String) :
    (s.upTo level).valueAt l name = if l ≤ level then s.valueAt l name else none := by
  induction s with
  | root f =>
    by_cases hl : l ≤ level
    · rw [if_pos hl, upTo]
    · rw [if_neg hl, upTo, valueAt, if_neg (by omega)]
  | inner f outer ih =>
    rw [upTo]
    by_cases hlevel : level < outer.depth
    · rw [if_pos hlevel, ih]
      by_cases hl : l ≤ level
      · rw [if_pos hl, if_pos hl, valueAt, if_neg (by omega)]
      · rw [if_neg hl, if_neg hl]
    · rw [if_neg hlevel]
      by_cases hl : l ≤ level
      · rw [if_pos hl]
      · rw [if_neg hl, valueAt_of_depth_le (by rw [depth]; omega)]

/-! ## Reading and writing -/

namespace Rebinds

variable (h : Rebinds s t name v holder)

include h

/-- The name is rebound alike in every scope from the innermost out to the holder. -/
theorem upTo (hlevel : holder ≤ level) : Rebinds (s.upTo level) (t.upTo level) name v holder := by
  refine ⟨?_, fun l hl ↦ ?_, fun l other ↦ ?_⟩
  · rw [valueAt_upTo, if_pos hlevel]
    exact h.bound
  · rw [valueAt_upTo, h.innermost l hl, ite_self]
  · rw [valueAt_upTo, valueAt_upTo, h.table]
    by_cases hl : l ≤ level
    · rw [if_pos hl, if_pos hl]
    · have hne : ¬ (l = holder ∧ other = name) := by
        rintro ⟨rfl, -⟩
        exact hl hlevel
      rw [if_neg hl, if_neg hl, if_neg hne]

theorem resolve_before : s.resolve name = s.valueAt holder name := by
  obtain ⟨u, hu⟩ := Option.isSome_iff_exists.mp h.bound
  rw [hu]
  exact resolve_eq_some_iff.mpr ⟨holder, hu, h.innermost⟩

theorem isSome_valueAt (level : Nat) (other : String) :
    (t.valueAt level other).isSome = (s.valueAt level other).isSome := by
  rw [h.table]
  split
  · rename_i heq
    rw [heq.1, heq.2, h.bound]
    rfl
  · rfl

end Rebinds

/-- The name has been assigned in the frame at the level `holder`: the innermost entry of the name
is set, and all others stay (`Rebinds`). -/
structure AssignedAt (s t : Scope) (name : String) (v : Value) (holder : Nat) : Prop
    extends Rebinds s t name v holder where
  depth_eq : t.depth = s.depth
  /-- The entry is the one that was read. -/
  read : s.resolve name = s.valueAt holder name
  /-- The scopes from the innermost out to the holder see the new value. -/
  written : ∀ level, holder ≤ level → (t.upTo level).resolve name = some v
  /-- No frame has gained or lost a name. -/
  names : ∀ level other, (t.valueAt level other).isSome = (s.valueAt level other).isSome

theorem exists_assignedAt (h : s.assign? name v = some t) :
    ∃ holder, AssignedAt s t name v holder := by
  obtain ⟨holder, hrebinds⟩ := exists_rebinds_of_assign? h
  exact ⟨holder,
    { hrebinds with
      depth_eq := depth_of_assign? h
      read := hrebinds.resolve_before
      written := fun _ hlevel ↦ by rw [(hrebinds.upTo hlevel).resolve_eq, if_pos rfl]
      names := hrebinds.isSome_valueAt }⟩

end Scope

/-- Assignment writes what resolution reads. A name is visible exactly if it resolves, and exactly
the visible names can be assigned. Assigning a name that is not visible fails and leaves every scope
as it was; assigning one that is changes the binding that was read and no other. -/
theorem assignment_writes_what_is_read (w : World) (name : String) (v : Value) :
    (w.scope.isDefined name = true ↔ (w.scope.resolve name).isSome = true) ∧
      (w.scope.assign? name v).isSome = w.scope.isDefined name ∧
      (w.scope.isDefined name = false →
        (Eval.assign name v).run w = .error (.error (.undefinedName name)) w) ∧
      (w.scope.isDefined name = true → ∃ t holder,
        (Eval.assign name v).run w = .ok () { w with scope := t } ∧
          w.scope.assign? name v = some t ∧ Scope.AssignedAt w.scope t name v holder) := by
  have hsome := w.scope.isSome_assign? name v
  refine ⟨?_, hsome, fun hhidden ↦ ?_, fun hvisible ↦ ?_⟩
  · rw [Scope.isDefined_eq_isSome_resolve]
  · rw [hhidden, Option.isSome_eq_false_iff, Option.isNone_iff_eq_none] at hsome
    rw [Eval.run_assign, hsome]
  · rw [hvisible] at hsome
    obtain ⟨t, ht⟩ := Option.isSome_iff_exists.mp hsome
    obtain ⟨holder, hassigned⟩ := Scope.exists_assignedAt ht
    exact ⟨t, holder, by rw [Eval.run_assign, ht], ht, hassigned⟩

end Scriptlet
