import Scriptlet.Number.Numeral

/-!
# Numbers of scripts

Numbers are doubles. This module gives their two readings and their written form.

* `Number.ofLiteral?` reads a number literal of a program.
* `Number.ofText` reads any text, as comparisons between numbers and strings do; a text that is no
  number gives the number that is not one.
* `Number.display` writes a number with the fewest digits that read back.
-/

namespace Scriptlet

/-! ## Blanks

The characters with the Unicode property `White_Space`. There are twenty-five; the zero-width space
and the byte order mark are not among them. -/

/-- The inclusive ranges of the blank characters, in ascending order. -/
def blankRanges : List (Nat × Nat) :=
  [(0x0009, 0x000d), (0x0020, 0x0020), (0x0085, 0x0085), (0x00a0, 0x00a0), (0x1680, 0x1680),
    (0x2000, 0x200a), (0x2028, 0x2029), (0x202f, 0x202f), (0x205f, 0x205f), (0x3000, 0x3000)]

def isBlank (c : Char) : Bool := blankRanges.any fun r ↦ r.1 ≤ c.toNat && c.toNat ≤ r.2

def trimBlanks (text : List Char) : List Char :=
  ((text.dropWhile isBlank).reverse.dropWhile isBlank).reverse

example : (blankRanges.map fun r ↦ r.2 + 1 - r.1).sum = 25 := by decide

namespace Number

/-! ## Parts of a double -/

/-- The double with the given sign and magnitude pattern. -/
def ofParts (negative : Bool) (pattern : Nat) : Float :=
  Float.ofBits (UInt64.ofNat (if negative then Nat.pow 2 63 + pattern else pattern))

/-- Whether the sign bit is set. -/
def isNegative (x : Float) : Bool := Nat.pow 2 63 ≤ x.toBits.toNat

/-- The bit pattern without the sign. -/
def magnitude (x : Float) : Nat := x.toBits.toNat % Nat.pow 2 63

/-- The number that is not one. -/
def nan : Float := 0.0 / 0.0

def infinity : Float := ofParts false Binary64.infinity

/-- The double nearest to a numeral. -/
def ofNumeral (n : Numeral) : Float := ofParts n.negative n.decimal.pattern

/-! ## Reading -/

/-- Reads a whole text: a numeral, or a word for infinity or for what is no number. Words may have a
sign, and capital letters do not matter in them. -/
def parse? (text : List Char) : Option Float :=
  let (negative, word) := Numeral.splitSign text
  match String.ofList (word.map Char.toLower) with
  | "inf" | "infinity" => some (ofParts negative Binary64.infinity)
  | "nan" => some nan
  | _ => (Numeral.read? text).map ofNumeral

/-- Reads a number literal: digits and points, of which one at the end is dropped, that form a
numeral. -/
def ofLiteral? (lexeme : String) : Option Float :=
  let text := lexeme.toList
  let body := if text.getLast? = some '.' then text.dropLast else text
  if body.isEmpty || !body.all (fun c ↦ c.isDigit || c = '.') then none
  else parse? body

/-- Reads a text without blanks at its ends. It is not one of the words if all its characters are
those of numerals. -/
def ofCore (core : List Char) : Float :=
  if core.all Numeral.isNumeralChar then (parse? core).getD nan else nan

/-- Reads a text as a number, blanks at both ends aside. The empty text is zero, and infinity has a
name. -/
def ofText (text : String) : Float :=
  match String.ofList (trimBlanks text.toList) with
  | "" => 0.0
  | "Infinity" | "+Infinity" => infinity
  | "-Infinity" => -infinity
  | trimmed => ofCore trimmed.toList

/-! ## Writing -/

/-- The digits of a decimal without the zeros at its end, and the number of places from the front
of the digits to the point. -/
def digitsAndPoint (d : Decimal) : List Char × Int :=
  let digits := Nat.toDigits 10 d.digits
  ((digits.reverse.dropWhile (· = '0')).reverse, digits.length + d.exponent)

/-- Digits with the point after `point` places, filled up with zeros. -/
def positional (digits : List Char) (point : Int) : List Char :=
  if point ≤ 0 then '0' :: '.' :: List.replicate (-point).toNat '0' ++ digits
  else if point.toNat < digits.length then
    digits.take point.toNat ++ '.' :: digits.drop point.toNat
  else digits ++ List.replicate (point.toNat - digits.length) '0'

/-- Digits with the point after the first one, if there are more. -/
def mantissa : List Char → List Char
  | first :: second :: rest => first :: '.' :: second :: rest
  | digits => digits

/-- The mantissa and the power of ten that makes up for the place of its point. Only a negative
exponent has a sign. -/
def exponential (digits : List Char) (point : Int) : List Char :=
  let exponent := point - 1
  let sign := if exponent < 0 then ['-'] else []
  mantissa digits ++ 'e' :: (sign ++ Nat.toDigits 10 exponent.natAbs)

/-- Puts a plus in front of an exponent that has no sign. -/
def signExponent (text : List Char) : List Char :=
  match text.dropWhile (· ≠ 'e') with
  | 'e' :: exponent =>
    if exponent.head? = some '-' then text
    else text.takeWhile (· ≠ 'e') ++ 'e' :: '+' :: exponent
  | _ => text

/-- The form with an exponent that always has a sign. -/
def scientific (digits : List Char) (point : Int) : List Char :=
  signExponent (exponential digits point)

/-- Whether a number is written with an exponent: below `10 ^ -6` and from `10 ^ 21` on. -/
def isExtreme (x : Float) : Bool := x.abs < 1e-6 || 1e21 ≤ x.abs

/-- The written form of a number. Zero has no sign. -/
def display (x : Float) : String :=
  let sign := if isNegative x then "-" else ""
  if x.isNaN then "NaN"
  else if x.isInf then sign ++ "Infinity"
  else if x == 0.0 then "0"
  else
    let (digits, point) := digitsAndPoint (Decimal.shortest (magnitude x))
    let body := if isExtreme x then scientific digits point else positional digits point
    sign ++ String.ofList body

end Number

end Scriptlet
