import Scriptlet.Value.Basic

/-!
# Scopes

A scope is a chain of frames, the innermost first; there is always one. A frame binds names to
values, each at most once as far as `get?` can tell. Names are looked up from the inside out,
defined in the innermost frame and assigned where they are bound.
-/

namespace Scriptlet

structure Frame where
  bindings : List (String × Value) := []

namespace Frame

def get? (f : Frame) (name : String) : Option Value := f.bindings.lookup name

def contains (f : Frame) (name : String) : Bool := f.bindings.any fun p ↦ p.1 = name

/-- Replaces the first binding of the name, or adds one at the end. -/
def insertIn (name : String) (v : Value) : List (String × Value) → List (String × Value)
  | [] => [(name, v)]
  | (other, w) :: rest =>
    if name = other then (name, v) :: rest else (other, w) :: insertIn name v rest

def insert (f : Frame) (name : String) (v : Value) : Frame := ⟨insertIn name v f.bindings⟩

/-- The frame that binds names to values in order, so that of equal names the last one counts. -/
def ofPairs (pairs : List (String × Value)) : Frame :=
  pairs.foldl (fun f p ↦ f.insert p.1 p.2) {}

theorem get?_insert (f : Frame) (name other : String) (v : Value) :
    (f.insert name v).get? other = if other = name then some v else f.get? other := by
  obtain ⟨bindings⟩ := f
  simp only [get?, insert]
  induction bindings with
  | nil => grind [insertIn]
  | cons p rest ih =>
    obtain ⟨bound, w⟩ := p
    grind [insertIn]

theorem contains_eq_isSome_get? (f : Frame) (name : String) :
    f.contains name = (f.get? name).isSome := by
  obtain ⟨bindings⟩ := f
  simp only [contains, get?]
  induction bindings with
  | nil => rfl
  | cons p rest ih =>
    obtain ⟨bound, w⟩ := p
    grind

end Frame

/-- A chain of frames. -/
inductive Scope where
  /-- The outermost frame. -/
  | root (frame : Frame)
  /-- A frame inside a scope. -/
  | inner (frame : Frame) (outer : Scope)

instance : Inhabited Scope := ⟨.root {}⟩

namespace Scope

def frame : Scope → Frame
  | root f | inner f _ => f

def depth : Scope → Nat
  | root _ => 1
  | inner _ outer => outer.depth + 1

/-- The value of a name in the innermost frame that binds it. -/
def resolve : Scope → String → Option Value
  | root f, name => f.get? name
  | inner f outer, name =>
    match f.get? name with
    | some v => some v
    | none => outer.resolve name

def isDefined : Scope → String → Bool
  | root f, name => f.contains name
  | inner f outer, name => f.contains name || outer.isDefined name

def isLocal (s : Scope) (name : String) : Bool := s.frame.contains name

def define (s : Scope) (name : String) (v : Value) : Scope :=
  match s with
  | root f => root (f.insert name v)
  | inner f outer => inner (f.insert name v) outer

/-- Gives the name a new value in the innermost frame that binds it; `none` if no frame does. -/
def assign? : Scope → String → Value → Option Scope
  | root f, name, v => if f.contains name then some (root (f.insert name v)) else none
  | inner f outer, name, v =>
    if f.contains name then some (inner (f.insert name v) outer)
    else (outer.assign? name v).map (inner f)

def push (s : Scope) (f : Frame) : Scope := inner f s

/-- Drops the innermost frame, but never the outermost. -/
def pop : Scope → Scope
  | root f => root f
  | inner _ outer => outer

@[simp]
theorem pop_push (s : Scope) (f : Frame) : (s.push f).pop = s := rfl

theorem isDefined_eq_isSome_resolve (s : Scope) (name : String) :
    s.isDefined name = (s.resolve name).isSome := by
  induction s with
  | root f => exact f.contains_eq_isSome_get? name
  | inner f outer ih =>
    rw [isDefined, resolve, f.contains_eq_isSome_get?, ih]
    cases f.get? name <;> rfl

theorem resolve_define (s : Scope) (name other : String) (v : Value) :
    (s.define name v).resolve other = if other = name then some v else s.resolve other := by
  cases s with
  | root f => exact f.get?_insert name other v
  | inner f outer =>
    rw [define, resolve, resolve, f.get?_insert]
    by_cases h : other = name <;> simp [h]

end Scope

end Scriptlet
