import Scriptlet.Number.Decimal

/-!
# Numerals

The written form of a decimal: an optional sign, digits with an optional point, and an optional
exponent. There is at least one digit before or after the point, and at least one in an exponent.
-/

namespace Scriptlet

/-- A numeral taken apart. -/
structure Numeral where
  negative : Bool := false
  /-- The digits before the point. -/
  whole : List Char
  /-- The digits after the point. -/
  fraction : List Char := []
  exponent : Int := 0
deriving DecidableEq, Repr

namespace Numeral

/-- Whether a character may stand in a numeral. -/
def isNumeralChar (c : Char) : Bool := c.isDigit || "+-.eE".toList.contains c

/-- Takes off a sign; the first part says whether it is a minus. -/
def splitSign : List Char → Bool × List Char
  | '-' :: rest => (true, rest)
  | '+' :: rest => (false, rest)
  | text => (false, text)

def splitDigits (text : List Char) : List Char × List Char :=
  (text.takeWhile Char.isDigit, text.dropWhile Char.isDigit)

/-- Takes off a point and the digits after it, if there is a point. -/
def splitFraction : List Char → List Char × List Char
  | '.' :: rest => splitDigits rest
  | text => ([], text)

/-- The number that digits spell, found from the two halves of the digits, and so on `halvings`
times. -/
def valueByHalves : Nat → List Char → Nat
  | 0, digits => Nat.ofDigitChars 10 digits 0
  | halvings + 1, digits =>
    let (front, back) := digits.splitAt (digits.length / 2)
    valueByHalves halvings front * Nat.pow 10 back.length + valueByHalves halvings back

/-- The number that digits spell. Long runs of digits are halved until about a hundred are left. -/
def value (digits : List Char) : Nat := valueByHalves (digits.length.log2 - 6) digits

theorem valueByHalves_eq (halvings : Nat) (digits : List Char) :
    valueByHalves halvings digits = Nat.ofDigitChars 10 digits 0 := by
  induction halvings generalizing digits with
  | zero => rfl
  | succ halvings ih =>
    simp only [valueByHalves, List.splitAt_eq, ih, Nat.pow_eq]
    conv => rhs; rw [← List.take_append_drop (digits.length / 2) digits, Nat.ofDigitChars_append,
      Nat.ofDigitChars_eq_ofDigitChars_zero, Nat.mul_comm]

/-- Halving does not change the number: it is the one that reading from the front gives. -/
theorem value_eq (digits : List Char) : value digits = Nat.ofDigitChars 10 digits 0 :=
  valueByHalves_eq ..

/-- The number that the digits of an exponent spell, read from the front. Once it has reached
`2 ^ 16` further digits do not count. -/
def exponentValue (digits : List Char) : Nat :=
  digits.foldl (fun n c ↦ if n < Nat.pow 2 16 then Nat.ofDigitChars 10 [c] n else n) 0

/-- Reads what follows the digits: nothing, or an exponent. -/
def readExponent? (text : List Char) : Option Int :=
  let signed (rest : List Char) : Option Int :=
    let (negative, digits) := splitSign rest
    if digits.isEmpty || !digits.all Char.isDigit then none
    else if negative then some (-(exponentValue digits : Int))
    else some (exponentValue digits)
  match text with
  | [] => some 0
  | 'e' :: rest => signed rest
  | 'E' :: rest => signed rest
  | _ => none

def read? (text : List Char) : Option Numeral :=
  let (negative, text) := splitSign text
  let (whole, text) := splitDigits text
  let (fraction, text) := splitFraction text
  if whole.isEmpty && fraction.isEmpty then none
  else (readExponent? text).map fun exponent ↦ { negative, whole, fraction, exponent }

/-- The number a numeral stands for, without its sign. -/
def decimal (n : Numeral) : Decimal :=
  ⟨value (n.whole ++ n.fraction), n.exponent - n.fraction.length⟩

end Numeral

end Scriptlet
