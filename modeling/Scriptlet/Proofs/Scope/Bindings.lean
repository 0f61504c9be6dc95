import Scriptlet.Scope

/-!
# The bindings of a scope, frame by frame

Resolution sees one binding of a name. Here a scope is looked at as the table of all its bindings,
hidden ones included: `valueAt level name` is what the frame at the level binds the name to. Levels
are counted from the outermost frame, which is at level zero, so a frame keeps its level while
others are pushed inside it and dropped again.

Each operation on scopes is an equation for the table. A definition sets an entry of the innermost
frame. An assignment sets an entry that is there already, and of those for its name the innermost.
Pushing and popping add and remove the entries of one level.
-/

namespace Scriptlet

namespace Frame

theorem mem_of_get? {f : Frame} {name : String} {v : Value} (h : f.get? name = some v) :
    (name, v) ∈ f.bindings := by
  obtain ⟨before, after, hsplit, -⟩ := List.lookup_eq_some_iff.mp h
  simp [hsplit]

/-! ## Frames of pairs -/

/-- The values of a frame that binds pairs on top of `f` are those of `f` and of the pairs. -/
theorem mem_of_get?_foldl_insert {pairs : List (String × Value)} {f : Frame} {name : String}
    {v : Value} (h : (pairs.foldl (fun f p ↦ f.insert p.1 p.2) f).get? name = some v) :
    f.get? name = some v ∨ (name, v) ∈ pairs := by
  induction pairs generalizing f with
  | nil => exact Or.inl h
  | cons p pairs ih =>
    rcases ih h with hget | hmem
    · rw [get?_insert] at hget
      split at hget
      · rename_i hname
        refine Or.inr (List.mem_cons.mpr (Or.inl ?_))
        rw [hname, ← Option.some.inj hget]
      · exact Or.inl hget
    · exact Or.inr (List.mem_cons_of_mem p hmem)

/-- The names of a frame that binds pairs on top of `f` are those of `f` and of the pairs. -/
theorem isSome_get?_foldl_insert (pairs : List (String × Value)) (f : Frame) (name : String) :
    ((pairs.foldl (fun f p ↦ f.insert p.1 p.2) f).get? name).isSome ↔
      (f.get? name).isSome ∨ name ∈ pairs.map Prod.fst := by
  induction pairs generalizing f with
  | nil => simp
  | cons p pairs ih =>
    rw [List.foldl_cons, ih, get?_insert, List.map_cons, List.mem_cons]
    by_cases hname : name = p.1 <;> simp [hname]

theorem mem_of_get?_ofPairs {pairs : List (String × Value)} {name : String} {v : Value}
    (h : (ofPairs pairs).get? name = some v) : (name, v) ∈ pairs := by
  rcases mem_of_get?_foldl_insert h with hempty | hmem
  · cases hempty
  · exact hmem

theorem mem_of_get?_ofPairs_zip {names : List String} {values : List Value} {name : String}
    {v : Value} (h : (ofPairs (names.zip values)).get? name = some v) : v ∈ values :=
  (List.of_mem_zip (mem_of_get?_ofPairs h)).2

theorem isSome_get?_ofPairs_zip {names : List String} {values : List Value}
    (hlength : values.length = names.length) {name : String} (h : name ∈ names) :
    ((ofPairs (names.zip values)).get? name).isSome := by
  rw [ofPairs, isSome_get?_foldl_insert, List.map_fst_zip (Nat.le_of_eq hlength.symm)]
  exact Or.inr h

end Frame

namespace Scope

/-! ## The table of bindings -/

/-- The value of a name in the frame at the level; the outermost frame is at level zero. -/
def valueAt : Scope → Nat → String → Option Value
  | root f, level, name => if level = 0 then f.get? name else none
  | inner f outer, level, name =>
    if level = outer.depth then f.get? name else outer.valueAt level name

variable {s t : Scope} {name other : String} {v : Value} {level : Nat}

theorem depth_pos (s : Scope) : 0 < s.depth := by
  cases s <;> simp [depth]

/-- There are as many levels as frames. -/
theorem valueAt_of_depth_le (h : s.depth ≤ level) : s.valueAt level name = none := by
  induction s with
  | root f =>
    have hlevel : level ≠ 0 := by rw [depth] at h; omega
    rw [valueAt, if_neg hlevel]
  | inner f outer ih =>
    rw [depth] at h
    have hlevel : level ≠ outer.depth := by omega
    rw [valueAt, if_neg hlevel]
    exact ih (by omega)

theorem lt_depth_of_isSome (h : (s.valueAt level name).isSome) : level < s.depth := by
  apply Nat.lt_of_not_le
  intro hdepth
  simp [valueAt_of_depth_le hdepth] at h

theorem isLocal_eq_isSome_valueAt (s : Scope) (name : String) :
    s.isLocal name = (s.valueAt (s.depth - 1) name).isSome := by
  cases s <;> simp [isLocal, frame, depth, valueAt, Frame.contains_eq_isSome_get?]

/-- A name resolves to its value in the innermost frame that binds it. -/
theorem resolve_eq_some_iff : s.resolve name = some v ↔
    ∃ level, s.valueAt level name = some v ∧ ∀ l, level < l → s.valueAt l name = none := by
  induction s with
  | root f =>
    constructor
    · intro h
      exact ⟨0, by rw [valueAt, if_pos rfl]; exact h, fun l hl ↦ if_neg (Nat.ne_of_gt hl)⟩
    · rintro ⟨level, hlevel, -⟩
      rw [valueAt] at hlevel
      split at hlevel
      · exact hlevel
      · cases hlevel
  | inner f outer ih =>
    rw [resolve]
    split
    · rename_i u hget
      have hinner : (inner f outer).valueAt outer.depth name = some u := by
        rw [valueAt, if_pos rfl, hget]
      constructor
      · intro h
        exact ⟨outer.depth, hinner.trans h, fun l hl ↦ valueAt_of_depth_le hl⟩
      · rintro ⟨level, hlevel, hinnermost⟩
        -- no level lies further in, and this frame would be bound if the level lay further out
        have hlt : level < outer.depth + 1 := lt_depth_of_isSome (by rw [hlevel]; rfl)
        rcases Nat.lt_succ_iff_lt_or_eq.mp hlt with hlt | rfl
        · rw [hinnermost _ hlt] at hinner
          cases hinner
        · exact hinner.symm.trans hlevel
    · rename_i hget
      have houter : ∀ l, (inner f outer).valueAt l name = outer.valueAt l name := by
        intro l
        rw [valueAt]
        split
        · rename_i hl
          rw [hget, hl, valueAt_of_depth_le (Nat.le_refl _)]
        · rfl
      simp only [ih, houter]

theorem exists_valueAt_of_resolve (h : s.resolve name = some v) :
    ∃ level, s.valueAt level name = some v := by
  obtain ⟨level, hlevel, -⟩ := resolve_eq_some_iff.mp h
  exact ⟨level, hlevel⟩

theorem resolve_congr (h : ∀ level, s.valueAt level name = t.valueAt level name) :
    s.resolve name = t.resolve name := by
  ext v
  rw [resolve_eq_some_iff, resolve_eq_some_iff]
  simp only [h]

theorem isDefined_iff : s.isDefined name = true ↔ ∃ level, (s.valueAt level name).isSome := by
  constructor
  · intro h
    rw [isDefined_eq_isSome_resolve] at h
    obtain ⟨v, hv⟩ := Option.isSome_iff_exists.mp h
    obtain ⟨level, hlevel⟩ := exists_valueAt_of_resolve hv
    exact ⟨level, by rw [hlevel]; rfl⟩
  · rintro ⟨level, hlevel⟩
    induction s with
    | root f =>
      rw [valueAt] at hlevel
      split at hlevel
      · rw [isDefined, f.contains_eq_isSome_get?, hlevel]
      · cases hlevel
    | inner f outer ih =>
      rw [valueAt] at hlevel
      rw [isDefined, f.contains_eq_isSome_get?, Bool.or_eq_true]
      split at hlevel
      · exact Or.inl hlevel
      · exact Or.inr (ih hlevel)

theorem valueAt_of_not_isDefined (h : s.isDefined name = false) (level : Nat) :
    s.valueAt level name = none := by
  rw [← Option.not_isSome_iff_eq_none]
  intro hsome
  rw [isDefined_iff.mpr ⟨level, hsome⟩] at h
  cases h

/-- All bindings of the chain, the innermost first. -/
def bindings : Scope → List (String × Value)
  | root f => f.bindings
  | inner f outer => f.bindings ++ outer.bindings

theorem mem_bindings_of_valueAt (h : s.valueAt level name = some v) : (name, v) ∈ s.bindings := by
  induction s with
  | root f =>
    rw [valueAt] at h
    split at h
    · exact Frame.mem_of_get? h
    · cases h
  | inner f outer ih =>
    rw [valueAt] at h
    split at h
    · exact List.mem_append_left _ (Frame.mem_of_get? h)
    · exact List.mem_append_right _ (ih h)

/-! ## Operations on the table -/

@[simp]
theorem depth_define (s : Scope) (name : String) (v : Value) :
    (s.define name v).depth = s.depth := by
  cases s <;> rfl

theorem valueAt_define (s : Scope) (name other : String) (v : Value) (level : Nat) :
    (s.define name v).valueAt level other
      = if level + 1 = s.depth ∧ other = name then some v else s.valueAt level other := by
  cases s with
  | root f => by_cases hlevel : level = 0 <;> simp [define, valueAt, depth, f.get?_insert, hlevel]
  | inner f outer =>
    by_cases hlevel : level = outer.depth <;>
      simp [define, valueAt, depth, f.get?_insert, hlevel]

theorem depth_of_assign? (h : s.assign? name v = some t) : t.depth = s.depth := by
  induction s generalizing t with
  | root f =>
    rw [assign?] at h
    split at h
    · cases h
      rfl
    · cases h
  | inner f outer ih =>
    rw [assign?] at h
    split at h
    · cases h
      rfl
    · obtain ⟨outer', houter, rfl⟩ := Option.map_eq_some_iff.mp h
      rw [depth, depth, ih houter]

/-- In `t` the entry of the name at the level `holder` is set, and all else is as in `s`. The entry
is one that `s` has, and its innermost for the name. -/
structure Rebinds (s t : Scope) (name : String) (v : Value) (holder : Nat) : Prop where
  bound : (s.valueAt holder name).isSome
  innermost : ∀ level, holder < level → s.valueAt level name = none
  table : ∀ level other, t.valueAt level other
    = if level = holder ∧ other = name then some v else s.valueAt level other

/-- To define a name again in the frame that binds it is to rebind it there. -/
theorem rebinds_define (h : s.isLocal name = true) (v : Value) :
    Rebinds s (s.define name v) name v (s.depth - 1) := by
  have hdepth := s.depth_pos
  refine ⟨?_, fun level hlevel ↦ valueAt_of_depth_le (by omega), fun level other ↦ ?_⟩
  · rw [← isLocal_eq_isSome_valueAt, h]
  · have hlevel : level + 1 = s.depth ↔ level = s.depth - 1 := by omega
    rw [valueAt_define]
    simp only [hlevel]

/-- An assignment sets one entry, the innermost of those that its name has. -/
theorem exists_rebinds_of_assign? (h : s.assign? name v = some t) :
    ∃ holder, Rebinds s t name v holder := by
  induction s generalizing t with
  | root f =>
    rw [assign?] at h
    split at h
    · rename_i hlocal
      cases h
      exact ⟨_, rebinds_define (s := root f) hlocal v⟩
    · cases h
  | inner f outer ih =>
    rw [assign?] at h
    split at h
    · rename_i hlocal
      cases h
      exact ⟨_, rebinds_define (s := inner f outer) hlocal v⟩
    · rename_i hlocal
      obtain ⟨outer', houter, rfl⟩ := Option.map_eq_some_iff.mp h
      obtain ⟨holder, hbound, hinnermost, htable⟩ := ih houter
      have hlt : holder < outer.depth := lt_depth_of_isSome hbound
      rw [f.contains_eq_isSome_get?, Option.not_isSome_iff_eq_none] at hlocal
      refine ⟨holder, ?_, fun level hlevel ↦ ?_, fun level other ↦ ?_⟩
      · rw [valueAt, if_neg (Nat.ne_of_lt hlt)]
        exact hbound
      · rw [valueAt, hlocal, hinnermost level hlevel, ite_self]
      · rw [valueAt, valueAt, htable, depth_of_assign? houter]
        by_cases hlevel : level = outer.depth
        · simp [hlevel, Nat.ne_of_gt hlt]
        · simp [hlevel]

/-- To rebind a name is to change what it resolves to, and no other name. -/
theorem Rebinds.resolve_eq {holder : Nat} (h : Rebinds s t name v holder) (other : String) :
    t.resolve other = if other = name then some v else s.resolve other := by
  by_cases hname : other = name
  · rw [if_pos hname, hname]
    refine resolve_eq_some_iff.mpr ⟨holder, ?_, fun level hlevel ↦ ?_⟩
    · rw [h.table, if_pos ⟨rfl, rfl⟩]
    · rw [h.table, if_neg (fun heq ↦ Nat.ne_of_gt hlevel heq.1), h.innermost level hlevel]
  · rw [if_neg hname]
    refine resolve_congr fun level ↦ ?_
    rw [h.table, if_neg (fun heq ↦ hname heq.2)]

@[simp]
theorem depth_push (s : Scope) (f : Frame) : (s.push f).depth = s.depth + 1 := rfl

theorem valueAt_push (s : Scope) (f : Frame) (level : Nat) (name : String) :
    (s.push f).valueAt level name
      = if level = s.depth then f.get? name else s.valueAt level name := rfl

theorem depth_pop (h : t.depth = s.depth + 1) : t.pop.depth = s.depth := by
  cases t with
  | root f => exact absurd (Nat.succ.inj h) (Nat.ne_of_lt s.depth_pos)
  | inner f outer => exact Nat.succ.inj h

/-- Dropping a frame keeps the entries of the levels below it. -/
theorem valueAt_pop (h : t.depth = s.depth + 1) (level : Nat) (name : String) :
    t.pop.valueAt level name = if level < s.depth then t.valueAt level name else none := by
  cases t with
  | root f => exact absurd (Nat.succ.inj h) (Nat.ne_of_lt s.depth_pos)
  | inner f outer =>
    have hdepth : outer.depth = s.depth := Nat.succ.inj h
    rw [pop, valueAt, hdepth]
    by_cases hlevel : level < s.depth
    · rw [if_pos hlevel, if_neg (Nat.ne_of_lt hlevel)]
    · rw [if_neg hlevel, valueAt_of_depth_le (by omega)]

/-- A frame that is pushed and dropped leaves a binding further out as it was, if it is so while the
frame is there. -/
theorem valueAt_pop_of_push {frame : Frame} (hdepth : t.depth = (s.push frame).depth)
    (h : level < s.depth → t.valueAt level name = (s.push frame).valueAt level name) :
    t.pop.valueAt level name = s.valueAt level name := by
  rw [valueAt_pop hdepth]
  split
  · rename_i hlevel
    rw [h hlevel, valueAt_push, if_neg (Nat.ne_of_lt hlevel)]
  · rename_i hlevel
    rw [valueAt_of_depth_le (Nat.le_of_not_lt hlevel)]

end Scope

end Scriptlet
