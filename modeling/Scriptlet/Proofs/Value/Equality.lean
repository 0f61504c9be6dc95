import Scriptlet.Eval.Operation
import Scriptlet.Proofs.Number.Doubles

/-!
# The three equalities

Strict equality holds within a type, and there it is equality of what the values hold, with numbers
compared as numbers and functions by identity. So it is symmetric and transitive, and the only value
that does not equal itself is the number that is not one. Sameness adds that value and nothing else,
which makes it an equivalence. Loose equality is strict equality within a type and equality of
numbers across types, so it is symmetric too.

A script compares by `==`, which is loose equality, and by `!=`, which is the negation of the strict
one. Each pair of values is told equal or unequal by one of them, but they are not opposites: values
of different types that are loosely equal are told both.
-/

namespace Scriptlet.Value

variable {a b c : Value}

/-! ## Strict equality -/

/-- What strict equality decides. -/
inductive StrictlyEqual : Value → Value → Prop
  | number {x y : Float} (h : (x == y) = true) : StrictlyEqual (number x) (number y)
  | string {content : String} : StrictlyEqual (string content) (string content)
  | boolean {b : Bool} : StrictlyEqual (boolean b) (boolean b)
  | undefined : StrictlyEqual undefined undefined
  | function {f g : UserFunction} (h : f.tag = g.tag) : StrictlyEqual (function f) (function g)
  | builtin {f g : Builtin} (h : f.tag = g.tag) : StrictlyEqual (builtin f) (builtin g)

theorem strictEq_iff : strictEq a b = true ↔ StrictlyEqual a b := by
  constructor
  · intro h
    cases a <;> cases b
    case number.number x y => exact .number h
    case string.string s t => exact of_decide_eq_true h ▸ .string
    case boolean.boolean p q => exact of_decide_eq_true h ▸ .boolean
    case undefined.undefined => exact .undefined
    case function.function f g => exact .function (of_decide_eq_true h)
    case builtin.builtin f g => exact .builtin (of_decide_eq_true h)
    all_goals cases h
  · intro h
    cases h with
    | number h => exact h
    | undefined => rfl
    | function h => exact decide_eq_true h
    | builtin h => exact decide_eq_true h
    | _ => exact decide_eq_true rfl

namespace StrictlyEqual

theorem symm : StrictlyEqual a b → StrictlyEqual b a
  | number h => .number ((Number.beq_comm _ _).trans h)
  | string => .string
  | boolean => .boolean
  | undefined => .undefined
  | function h => .function h.symm
  | builtin h => .builtin h.symm

theorem trans : StrictlyEqual a b → StrictlyEqual b c → StrictlyEqual a c
  | number h, number h' => .number (Number.beq_trans h h')
  | string, string => .string
  | boolean, boolean => .boolean
  | undefined, undefined => .undefined
  | function h, function h' => .function (h.trans h')
  | builtin h, builtin h' => .builtin (h.trans h')

theorem type_eq (h : StrictlyEqual a b) : a.type = b.type := by
  cases h <;> rfl

end StrictlyEqual

theorem strictEq_comm (a b : Value) : strictEq a b = strictEq b a := by
  rw [Bool.eq_iff_iff, strictEq_iff, strictEq_iff]
  exact ⟨.symm, .symm⟩

def isNaN : Value → Bool
  | number x => x.isNaN
  | _ => false

theorem strictEq_self_iff : strictEq a a = true ↔ a.isNaN = false := by
  rw [strictEq_iff]
  constructor
  · intro h
    cases h with
    | number h => exact (Number.beq_iff.mp h).1
    | _ => rfl
  · intro h
    cases a with
    | number x => exact .number (Number.beq_self h)
    | string s => exact .string
    | boolean p => exact .boolean
    | undefined => exact .undefined
    | function f => exact .function rfl
    | builtin f => exact .builtin rfl

/-- What equals something equals itself. -/
theorem isNaN_of_strictEq (h : strictEq a b = true) : a.isNaN = false := by
  rw [strictEq_iff] at h
  rw [← strictEq_self_iff, strictEq_iff]
  exact h.trans h.symm

/-! ## Sameness -/

theorem same_iff : same a b = true ↔ strictEq a b = true ∨ a.isNaN = true ∧ b.isNaN = true := by
  cases a with
  | number x =>
    cases b with
    | number y => simp only [same, strictEq, isNaN, Bool.or_eq_true, Bool.and_eq_true]
    | _ => simp [same, strictEq, isNaN]
  | _ => simp [same, isNaN]

/-- What is the same without being strictly equal is the number that is not one, on both sides. -/
theorem same_and_not_strictEq_iff :
    same a b = true ∧ strictEq a b = false ↔ a.isNaN = true ∧ b.isNaN = true := by
  rw [same_iff]
  constructor
  · rintro ⟨hstrict | hnan, hnot⟩
    · rw [hstrict] at hnot
      cases hnot
    · exact hnan
  · intro hnan
    refine ⟨.inr hnan, ?_⟩
    rw [Bool.eq_false_iff]
    intro hstrict
    rw [isNaN_of_strictEq hstrict] at hnan
    cases hnan.1

theorem same_equivalence : Equivalence fun a b : Value ↦ same a b = true where
  refl a := by
    rw [same_iff, strictEq_self_iff]
    cases a.isNaN
    · exact .inl rfl
    · exact .inr ⟨rfl, rfl⟩
  symm {a b} h := by
    rw [same_iff, strictEq_comm, and_comm]
    exact same_iff.mp h
  trans {a b c} hab hbc := by
    rw [same_iff] at hab hbc ⊢
    -- if only one of the two is strict, its operand in the middle is and is not a number
    rcases hab with hab | ⟨ha, hb⟩ <;> rcases hbc with hbc | ⟨hb', hc⟩
    · rw [strictEq_iff] at hab hbc ⊢
      exact .inl (hab.trans hbc)
    · rw [strictEq_comm] at hab
      rw [isNaN_of_strictEq hab] at hb'
      cases hb'
    · rw [isNaN_of_strictEq hbc] at hb
      cases hb
    · exact .inr ⟨ha, hc⟩

/-! ## Loose equality -/

/-- The number that a value stands for in comparisons with values of other types. -/
def numeric? : Value → Option Float
  | number x => some x
  | string content => some (Number.ofText content)
  | boolean b => some (numberOfBool b)
  | undefined | function _ | builtin _ => none

/-- Values of different types are equal when both stand for a number and the numbers are equal. -/
theorem looseEq_eq (a b : Value) : looseEq a b =
    if a.type = b.type then strictEq a b
    else match a.numeric?, b.numeric? with
      | some x, some y => x == y
      | _, _ => false := by
  cases a <;> cases b <;> simp [looseEq, strictEq, type, numeric?]

theorem looseEq_of_type_eq (h : a.type = b.type) : looseEq a b = strictEq a b := by
  rw [looseEq_eq, if_pos h]

theorem looseEq_of_strictEq (h : strictEq a b = true) : looseEq a b = true := by
  rw [looseEq_of_type_eq (strictEq_iff.mp h).type_eq, h]

theorem looseEq_comm (a b : Value) : looseEq a b = looseEq b a := by
  by_cases h : a.type = b.type
  · rw [looseEq_of_type_eq h, looseEq_of_type_eq h.symm, strictEq_comm]
  · rw [looseEq_eq, looseEq_eq, if_neg h, if_neg (Ne.symm h)]
    rcases a.numeric? with _ | x <;> rcases b.numeric? with _ | y
    · rfl
    · rfl
    · rfl
    · exact Number.beq_comm x y

/-! ## Comparison in scripts -/

theorem apply_equal_iff : BinaryOp.equal.apply a b = .ok (.boolean true) ↔ looseEq a b = true := by
  rw [BinaryOp.apply, Except.ok.injEq, boolean.injEq]

theorem apply_notEqual_iff :
    BinaryOp.notEqual.apply a b = .ok (.boolean true) ↔ strictEq a b = false := by
  rw [BinaryOp.apply, Except.ok.injEq, boolean.injEq, Bool.not_eq_true']

/-- The three equalities are consistent. Sameness is an equivalence, and the other two are symmetric.
Strict equality implies both others. It differs from sameness only for the number that is not one on
both sides, and within a type it does not differ from loose equality. So of any two values `==` or
`!=` holds, and both hold exactly if the values are loosely equal and of different types. -/
theorem equalities_are_consistent :
    (Equivalence fun a b : Value ↦ same a b = true) ∧ ∀ a b : Value,
      looseEq a b = looseEq b a ∧ strictEq a b = strictEq b a ∧
      (strictEq a b = true → looseEq a b = true ∧ same a b = true) ∧
      (same a b = true ∧ strictEq a b = false ↔ a.isNaN = true ∧ b.isNaN = true) ∧
      (a.type = b.type → looseEq a b = strictEq a b) ∧
      (BinaryOp.equal.apply a b = .ok (.boolean true) ∨
        BinaryOp.notEqual.apply a b = .ok (.boolean true)) ∧
      (BinaryOp.equal.apply a b = .ok (.boolean true) ∧
          BinaryOp.notEqual.apply a b = .ok (.boolean true) ↔
        looseEq a b = true ∧ a.type ≠ b.type) := by
  refine ⟨same_equivalence, fun a b ↦ ⟨looseEq_comm a b, strictEq_comm a b, fun h ↦ ?_,
    same_and_not_strictEq_iff, looseEq_of_type_eq, ?_, ?_⟩⟩
  · exact ⟨looseEq_of_strictEq h, same_iff.mpr (.inl h)⟩
  · rw [apply_equal_iff, apply_notEqual_iff]
    cases h : strictEq a b
    · exact .inr rfl
    · exact .inl (looseEq_of_strictEq h)
  · rw [apply_equal_iff, apply_notEqual_iff]
    constructor
    · rintro ⟨hloose, hstrict⟩
      refine ⟨hloose, fun htype ↦ ?_⟩
      rw [looseEq_of_type_eq htype, hstrict] at hloose
      cases hloose
    · rintro ⟨hloose, htype⟩
      refine ⟨hloose, Bool.eq_false_iff.mpr fun hstrict ↦ htype ?_⟩
      exact (strictEq_iff.mp hstrict).type_eq

end Scriptlet.Value
