import Scriptlet.Number.Basic
import Scriptlet.Tree.Basic

/-!
# Values

What expressions evaluate to. Functions are values: those written in scripts carry their statement,
those provided from outside carry the name of a native operation. Both carry a tag, and the tag is
their identity.

A script function does not remember where it was defined. Its body sees the names visible where it
is called.

There are three equalities. Strict equality holds within a type only, compares numbers as numbers,
so that the number that is not one differs from itself, and functions by identity. Loose equality
also compares across types, when both values stand for numbers. Sameness is strict equality made
reflexive.
-/

namespace Scriptlet

/-- A function written in a script. -/
structure UserFunction where
  /-- The identity, which is that of the statement the function comes from. -/
  tag : Nat
  name : String
  params : List String
  body : List (Statement Nat)

/-- The operation behind a builtin. -/
inductive Native where
  /-- Writes its argument on a line of its own. -/
  | print
  /-- An operation of the embedding program, which gives it its meaning. -/
  | host (key : String)
deriving DecidableEq, Repr

/-- A function provided from outside the script. -/
structure Builtin where
  /-- The identity. -/
  tag : Nat
  name : String
  arity : Nat
  native : Native
deriving DecidableEq, Repr

inductive Value where
  | number (x : Float)
  | string (content : String)
  | boolean (b : Bool)
  | undefined
  | function (f : UserFunction)
  | builtin (f : Builtin)

instance : Inhabited Value := ⟨.undefined⟩

/-- The types that messages speak of. -/
inductive ValueType where
  | number
  | string
  | boolean
  | undefined
  | function
  | builtin
deriving DecidableEq, Repr, Inhabited

def ValueType.name : ValueType → String
  | number => "number"
  | string => "string"
  | boolean => "boolean"
  | undefined => "undefined"
  | function => "function"
  | builtin => "builtin function"

namespace Value

def type : Value → ValueType
  | number _ => .number
  | string _ => .string
  | boolean _ => .boolean
  | undefined => .undefined
  | function _ => .function
  | builtin _ => .builtin

/-- Whether the value is a function of either sort. -/
def isCallable : Value → Bool
  | function _ | builtin _ => true
  | _ => false

/-- Whether a condition with this value holds. Zero, the number that is not one, the empty string,
`false` and `undefined` do not. -/
def isTruthy : Value → Bool
  | number x => !(x == 0.0) && !x.isNaN
  | string content => content ≠ ""
  | boolean b => b
  | undefined => false
  | function _ | builtin _ => true

def display : Value → String
  | number x => Number.display x
  | string content => content
  | boolean true => "true"
  | boolean false => "false"
  | undefined => "undefined"
  | function f => "<function " ++ f.name ++ "(" ++ ", ".intercalate f.params ++ ")>"
  | builtin f => "<builtin " ++ f.name ++ ">"

/-! ## Equality -/

def numberOfBool (b : Bool) : Float := if b then 1.0 else 0.0

/-- Equality within a type. -/
def strictEq : Value → Value → Bool
  | number x, number y => x == y
  | string s, string t => s = t
  | boolean a, boolean b => a = b
  | undefined, undefined => true
  | function f, function g => f.tag = g.tag
  | builtin f, builtin g => f.tag = g.tag
  | _, _ => false

/-- Equality across types: a string compared with a number is read as one, and a boolean compared
with either becomes a number first. -/
def looseEq : Value → Value → Bool
  | number x, string t => x == Number.ofText t
  | string s, number y => Number.ofText s == y
  | boolean a, number y => looseEq (number (numberOfBool a)) (number y)
  | boolean a, string t => looseEq (number (numberOfBool a)) (string t)
  | number x, boolean b => looseEq (number x) (number (numberOfBool b))
  | string s, boolean b => looseEq (string s) (number (numberOfBool b))
  | a, b => strictEq a b
-- each round leaves one boolean less
termination_by a b => [a, b].countP fun v ↦ v.type = .boolean
decreasing_by all_goals exact Nat.zero_lt_one

/-- Strict equality, except that the number that is not one is the same as itself. -/
def same : Value → Value → Bool
  | number x, number y => x == y || (x.isNaN && y.isNaN)
  | a, b => strictEq a b

end Value

end Scriptlet
