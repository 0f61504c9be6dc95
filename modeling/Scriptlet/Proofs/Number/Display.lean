import Scriptlet.Value.Basic
import Scriptlet.Proofs.Number.Doubles
import Scriptlet.Proofs.Number.Reading
import Scriptlet.Proofs.Token.RawText

/-!
# Displayed numbers read back

The written form of a number is read as the same number again. Its digits are those of a decimal
that is rounded to the number, without the zeros at the end. With the point set among them, or with
zeros up to the point, or with an exponent, they are numerals of the same value.

The two zeros are written alike, and read as the positive one. Every other number is read back bit
by bit, apart from those that are not numbers.
-/

namespace Scriptlet

open Numeral

theorem exists_zeros (text : List Char) :
    ∃ k, text = (text.reverse.dropWhile (· = '0')).reverse ++ List.replicate k '0' := by
  refine ⟨(text.reverse.takeWhile (· = '0')).length, ?_⟩
  have hzeros : text.reverse.takeWhile (· = '0')
      = List.replicate (text.reverse.takeWhile (· = '0')).length '0' :=
    List.eq_replicate_of_mem fun c hc ↦ by
      simpa using List.all_eq_true.mp List.all_takeWhile c hc
  rw [← List.reverse_inj, List.reverse_append, List.reverse_replicate, List.reverse_reverse,
    ← hzeros, List.takeWhile_append_dropWhile]

theorem isDigit_of_mem_zeros {k : Nat} {c : Char} (hc : c ∈ List.replicate k '0') :
    c.isDigit = true := by
  rw [List.eq_of_mem_replicate hc]
  rfl

namespace Number

variable {digits text : List Char} {point : Int} {d : Decimal} {x : Float}

/-! ## Digits and point -/

theorem exists_toDigits_eq (d : Decimal) :
    ∃ k, Nat.toDigits 10 d.digits = (digitsAndPoint d).1 ++ List.replicate k '0' :=
  exists_zeros _

theorem isDigit_of_mem_digitsAndPoint {c : Char} (hc : c ∈ (digitsAndPoint d).1) :
    c.isDigit = true := by
  obtain ⟨k, hk⟩ := exists_toDigits_eq d
  have hmem : c ∈ Nat.toDigits 10 d.digits := hk ▸ List.mem_append_left _ hc
  exact Nat.isDigit_of_mem_toDigits (by decide) (by decide) hmem

theorem point_digitsAndPoint (d : Decimal) :
    (digitsAndPoint d).2 = digitCount d.digits + d.exponent := by
  rw [digitCount_eq]
  rfl

theorem exists_digits_eq_value (d : Decimal) :
    ∃ k, d.digits = value (digitsAndPoint d).1 * Nat.pow 10 k ∧
      (digitsAndPoint d).2 = (digitsAndPoint d).1.length + k + d.exponent := by
  obtain ⟨k, hk⟩ := exists_toDigits_eq d
  refine ⟨k, ?_, ?_⟩
  · have hvalue := value_toDigits d.digits
    rw [hk, value_append, value_replicate_zero, List.length_replicate] at hvalue
    exact hvalue.symm
  · rw [point_digitsAndPoint, digitCount_eq, hk, List.length_append, List.length_replicate,
      Int.natCast_add]

theorem digitsAndPoint_ne_nil (h : 0 < d.digits) : (digitsAndPoint d).1 ≠ [] := by
  obtain ⟨k, hk, -⟩ := exists_digits_eq_value d
  intro hnil
  have hzero : value [] = 0 := rfl
  rw [hk, hnil, hzero, Nat.zero_mul] at h
  exact Nat.lt_irrefl 0 h

/-- The digits, with the point where it belongs, are rounded as the decimal they come from. -/
theorem pattern_digitsAndPoint (d : Decimal) :
    Decimal.pattern ⟨value (digitsAndPoint d).1, (digitsAndPoint d).2 - (digitsAndPoint d).1.length⟩
      = d.pattern := by
  obtain ⟨k, hk, hpoint⟩ := exists_digits_eq_value d
  have hexponent : (digitsAndPoint d).2 - (digitsAndPoint d).1.length = d.exponent + k := by omega
  rw [hexponent, ← Decimal.pattern_mul_pow, ← hk]

/-! ## The two notations -/

/-- With the point set among them digits are a whole part and a fraction, which may both have zeros
of their own, and are worth the same. -/
theorem exists_parts_positional (hne : digits ≠ []) (h : ∀ c ∈ digits, c.isDigit = true)
    (point : Int) :
    ∃ whole fraction, whole ≠ [] ∧ (∀ c ∈ whole, c.isDigit = true) ∧
      (∀ c ∈ fraction, c.isDigit = true) ∧
      (positional digits point = whole ∧ fraction = [] ∨
        positional digits point = whole ++ '.' :: fraction) ∧
      Decimal.pattern ⟨value (whole ++ fraction), 0 - fraction.length⟩
        = Decimal.pattern ⟨value digits, point - digits.length⟩ := by
  unfold positional
  split
  · -- zeros in front of the digits are worth nothing
    refine ⟨['0'], List.replicate (-point).toNat '0' ++ digits, List.cons_ne_nil _ _,
      List.forall_mem_singleton.mpr rfl,
      fun c hc ↦ (List.mem_append.mp hc).elim isDigit_of_mem_zeros (h c), .inr rfl, ?_⟩
    have hzero : value ['0'] = 0 := rfl
    have hvalue : value (['0'] ++ (List.replicate (-point).toNat '0' ++ digits))
        = value digits := by
      rw [value_append, value_append, value_replicate_zero, hzero, Nat.zero_mul, Nat.zero_mul,
        Nat.zero_add, Nat.zero_add]
    have hlength : 0 - ((List.replicate (-point).toNat '0' ++ digits).length : Int)
        = point - digits.length := by
      rw [List.length_append, List.length_replicate]
      omega
    rw [hvalue, hlength]
  · split
    · have hwhole : digits.take point.toNat ≠ [] := by
        rw [ne_eq, List.take_eq_nil_iff, not_or]
        exact ⟨by omega, hne⟩
      refine ⟨digits.take point.toNat, digits.drop point.toNat, hwhole,
        fun c hc ↦ h c (List.mem_of_mem_take hc), fun c hc ↦ h c (List.mem_of_mem_drop hc),
        .inr rfl, ?_⟩
      have hlength : 0 - ((digits.drop point.toNat).length : Int) = point - digits.length := by
        rw [List.length_drop]
        omega
      rw [List.take_append_drop, hlength]
    · -- zeros behind the digits are a power of ten
      refine ⟨digits ++ List.replicate (point.toNat - digits.length) '0', [], by simp [hne],
        fun c hc ↦ (List.mem_append.mp hc).elim (h c) isDigit_of_mem_zeros, by simp,
        .inl ⟨rfl, rfl⟩, ?_⟩
      have hexponent : point - digits.length = 0 + (point.toNat - digits.length : Nat) := by omega
      rw [List.append_nil, value_append, value_replicate_zero, Nat.add_zero, List.length_replicate,
        hexponent, ← Decimal.pattern_mul_pow]
      rfl

theorem isNumberText_positional (hne : digits ≠ []) (h : ∀ c ∈ digits, c.isDigit = true)
    (point : Int) : IsNumberText (positional digits point) := by
  obtain ⟨whole, fraction, hwhole, hdigits, hfraction, ⟨htext, -⟩ | htext, -⟩ :=
    exists_parts_positional hne h point
  · exact ⟨whole, hwhole, hdigits, .inl htext⟩
  · exact ⟨whole, hwhole, hdigits, .inr ⟨fraction, hfraction, htext⟩⟩

/-- The text has no sign, and is read as a numeral that is rounded to the pattern. -/
structure ReadsAs (text : List Char) (p : Nat) : Prop where
  unsigned : splitSign text = (false, text)
  read : ∃ n, read? text = some n ∧ n.negative = false ∧ n.decimal.pattern = p

theorem splitSign_of_isNumberText (h : IsNumberText text) : splitSign text = (false, text) := by
  obtain ⟨whole, hne, hwhole, rfl | ⟨fraction, -, rfl⟩⟩ := h
  · have hsplit := splitSign_append hne hwhole []
    rwa [List.append_nil] at hsplit
  · exact splitSign_append hne hwhole _

theorem readsAs_positional (hne : digits ≠ []) (h : ∀ c ∈ digits, c.isDigit = true)
    (point : Int) : ReadsAs (positional digits point)
      (Decimal.pattern ⟨value digits, point - digits.length⟩) := by
  obtain ⟨whole, fraction, hwhole, hdigits, hfraction, htext, hpattern⟩ :=
    exists_parts_positional hne h point
  refine ⟨splitSign_of_isNumberText (isNumberText_positional hne h point),
    { whole, fraction }, ?_, rfl, hpattern⟩
  rcases htext with ⟨htext, rfl⟩ | htext
  · rw [htext, read?_digits hwhole hdigits]
  · rw [htext, read?_point hwhole hdigits hfraction]

theorem ne_of_mem_mantissa (h : ∀ c ∈ digits, c.isDigit = true) :
    ∀ c ∈ mantissa digits, c ≠ 'e' := by
  have hdigit : ∀ c ∈ digits, c ≠ 'e' := by
    rintro c hc rfl
    exact absurd (h _ hc) (by decide)
  match digits with
  | first :: second :: rest =>
    obtain ⟨hfirst, hrest⟩ := List.forall_mem_cons.mp hdigit
    exact List.forall_mem_cons.mpr ⟨hfirst, List.forall_mem_cons.mpr ⟨by decide, hrest⟩⟩
  | [] | [_] => exact hdigit

theorem signExponent_append {front : List Char} (h : ∀ c ∈ front, c ≠ 'e')
    (exponent : List Char) :
    signExponent (front ++ 'e' :: exponent)
      = if exponent.head? = some '-' then front ++ 'e' :: exponent
        else front ++ 'e' :: '+' :: exponent := by
  have htest : ∀ c ∈ front, decide (c ≠ 'e') = true := fun c hc ↦ decide_eq_true (h c hc)
  rw [signExponent, List.dropWhile_append_of_pos htest, List.takeWhile_append_of_pos htest]
  simp

/-- The exponent has its own sign if it is negative, and is given a plus if it is not. -/
theorem scientific_eq (h : ∀ c ∈ digits, c.isDigit = true) (point : Int) :
    scientific digits point = mantissa digits
      ++ 'e' :: (if point - 1 < 0 then '-' else '+') :: Nat.toDigits 10 (point - 1).natAbs := by
  rw [scientific, exponential, signExponent_append (ne_of_mem_mantissa h)]
  by_cases hnegative : point - 1 < 0
  · simp [hnegative]
  · have hhead : (Nat.toDigits 10 (point - 1).natAbs).head? ≠ some '-' := by
      intro hminus
      have hdigit := Nat.isDigit_of_mem_toDigits (by decide) (by decide)
        (List.mem_of_mem_head? hminus)
      exact absurd hdigit (by decide)
    simp [hnegative, hhead]

theorem readsAs_scientific (hne : digits ≠ []) (h : ∀ c ∈ digits, c.isDigit = true)
    (hpoint : (point - 1).natAbs < Nat.pow 2 16) :
    ReadsAs (scientific digits point) (Decimal.pattern ⟨value digits, point - digits.length⟩) := by
  have htail := readExponent?_toDigits hpoint
  rw [scientific_eq h]
  match digits, hne with
  | [first], hne =>
    refine ⟨splitSign_append hne h _, _, read?_digits_append hne h htail, rfl, ?_⟩
    simp [Numeral.decimal, mantissa]
  | first :: second :: rest, _ =>
    rw [List.forall_mem_cons] at h
    have hfirst : ∀ c ∈ [first], c.isDigit = true := List.forall_mem_singleton.mpr h.1
    have hcons : [first] ≠ [] := List.cons_ne_nil _ _
    refine ⟨splitSign_append hcons hfirst _, _, read?_point_append hcons hfirst h.2 htail, rfl, ?_⟩
    have hlength : point - 1 - ((second :: rest).length : Int)
        = point - ((first :: second :: rest).length : Int) := by
      simp only [List.length_cons]
      omega
    rw [Numeral.decimal, hlength]
    rfl

/-! ## Reading texts as numbers -/

/-- A numeral is read as a number, the blanks around it aside: it is none of the words with a meaning
of their own. -/
theorem ofText_of_trimsTo {source : String} {n : Numeral} (htrims : TrimsTo source.toList text)
    (h : read? text = some n) : ofText source = ofNumeral n := by
  have hword {word : String} (hnone : read? word.toList = none) : String.ofList text ≠ word := by
    rintro rfl
    rw [String.toList_ofList, h] at hnone
    exact Option.some_ne_none n hnone
  rw [ofText, htrims.trimBlanks_eq]
  -- the empty text and the names of the infinities are no numerals
  split
  · exact absurd ‹_› (hword (by decide))
  · exact absurd ‹_› (hword (by decide))
  · exact absurd ‹_› (hword (by decide))
  · exact absurd ‹_› (hword (by decide))
  · rw [String.toList_ofList, ofCore_eq, h]
    rfl

theorem ofText_of_blanks {n : Numeral} (h : read? text = some n) {before after : List Char}
    (hbefore : ∀ c ∈ before, isBlank c = true) (hafter : ∀ c ∈ after, isBlank c = true) :
    ofText (String.ofList (before ++ (text ++ after))) = ofNumeral n := by
  refine ofText_of_trimsTo ?_ h
  rw [String.toList_ofList]
  exact trimsTo_of_not_blank
    (fun c hc ↦ isBlank_of_isNumeralChar (isNumeralChar_of_read? h c hc)) hbefore hafter

theorem ofText_of_read? {n : Numeral} (h : read? text = some n) :
    ofText (String.ofList text) = ofNumeral n := by
  have hread : ofText (String.ofList ([] ++ (text ++ []))) = ofNumeral n :=
    ofText_of_blanks h (by simp) (by simp)
  rwa [List.nil_append, List.append_nil] at hread

def signText (negative : Bool) : String := if negative then "-" else ""

theorem signText_false : signText false = "" := rfl

theorem signText_true : signText true = "-" := rfl

theorem ofText_of_readsAs {p : Nat} (h : ReadsAs text p) (negative : Bool) :
    ofText (signText negative ++ String.ofList text) = ofParts negative p := by
  obtain ⟨hsign, n, hread, hnegative, hpattern⟩ := h
  rcases negative with _ | _
  · rw [signText_false, String.empty_append, ofText_of_read? hread, ofNumeral, hnegative, hpattern]
  · have hminus : signText true ++ String.ofList text = String.ofList ('-' :: text) := by
      rw [← String.toList_inj, signText_true]
      simp
    have hread' : read? ('-' :: text) = some { n with negative := true } := by
      rw [read?_minus hsign, hread, Option.map_some]
    rw [hminus, ofText_of_read? hread', ofNumeral, ← hpattern]
    rfl

/-! ## Written forms -/

theorem display_of_isNaN (h : x.isNaN = true) : display x = "NaN" := if_pos h

theorem display_of_eq_infinity (h : magnitude x = Binary64.infinity) :
    display x = signText (isNegative x) ++ "Infinity" := by
  have hnan : x.isNaN = false := isNaN_eq_false_iff.mpr (Nat.le_of_eq h)
  rw [display, hnan, isInf_iff.mpr h]
  rfl

/-- The text of a number other than zero and the infinities, without its sign. -/
def bodyText (x : Float) : List Char :=
  let written := digitsAndPoint (Decimal.shortest (magnitude x))
  if isExtreme x then scientific written.1 written.2 else positional written.1 written.2

theorem display_of_lt_infinity (h : magnitude x < Binary64.infinity) :
    display x =
      if x == 0.0 then "0" else signText (isNegative x) ++ String.ofList (bodyText x) := by
  have hnan : x.isNaN = false := isNaN_eq_false_iff.mpr (Nat.le_of_lt h)
  have hinf : x.isInf = false := by
    rw [← Bool.not_eq_true, isInf_iff]
    exact Nat.ne_of_lt h
  rw [display, hnan, hinf]
  rfl

theorem display_of_zero (h : magnitude x = 0) : display x = "0" := by
  have hlt : magnitude x < Binary64.infinity := by
    rw [h]
    decide
  rw [display_of_lt_infinity hlt, beq_zero_iff.mpr h]
  rfl

theorem display_of_finite (hpos : 0 < magnitude x) (h : magnitude x < Binary64.infinity) :
    display x = signText (isNegative x) ++ String.ofList (bodyText x) := by
  rw [display_of_lt_infinity h, if_neg]
  rw [beq_zero_iff]
  exact Nat.ne_of_gt hpos

theorem readsAs_bodyText (hpos : 0 < magnitude x) (h : magnitude x < Binary64.infinity) :
    ReadsAs (bodyText x) (magnitude x) := by
  obtain ⟨hdigits, hlow, hhigh⟩ := Decimal.bounds_shortest hpos h
  have hpoint := point_digitsAndPoint (Decimal.shortest (magnitude x))
  have hvalue := pattern_digitsAndPoint (Decimal.shortest (magnitude x))
  rw [Decimal.pattern_shortest hpos h] at hvalue
  rw [← hvalue]
  unfold bodyText
  split
  · -- doubles have small exponents, of which all digits are read
    refine readsAs_scientific (digitsAndPoint_ne_nil hdigits)
      (fun c hc ↦ isDigit_of_mem_digitsAndPoint hc) ?_
    rw [Nat.pow_eq]
    omega
  · exact readsAs_positional (digitsAndPoint_ne_nil hdigits)
      (fun c hc ↦ isDigit_of_mem_digitsAndPoint hc) _

theorem ofText_infinity (negative : Bool) :
    ofText (signText negative ++ "Infinity") = ofParts negative Binary64.infinity := by
  rcases negative with _ | _
  · rfl
  · exact neg_ofParts false (Nat.le_refl _)

/-- A displayed number is read back, as the positive zero if it is a zero. -/
theorem ofText_display (h : x.isNaN = false) :
    ofText (display x) = if magnitude x = 0 then 0.0 else x := by
  have hle := isNaN_eq_false_iff.mp h
  split
  · rename_i hzero
    rw [display_of_zero hzero]
    apply eq_of_toBits_eq
    decide +kernel
  · rename_i hzero
    have hpos := Nat.pos_of_ne_zero hzero
    rcases Nat.lt_or_eq_of_le hle with hlt | heq
    · rw [display_of_finite hpos hlt, ofText_of_readsAs (readsAs_bodyText hpos hlt),
        ofParts_self]
    · rw [display_of_eq_infinity heq, ofText_infinity, ← heq, ofParts_self]

theorem isNaN_ofText_display (x : Float) : (ofText (display x)).isNaN = x.isNaN := by
  rcases h : x.isNaN with _ | _
  · rw [ofText_display h]
    split
    · decide +kernel
    · exact h
  · rw [display_of_isNaN h]
    decide +kernel

theorem beq_ofText_display (x : Float) : (ofText (display x) == x) = !x.isNaN := by
  rcases h : x.isNaN with _ | _
  · rw [ofText_display h, Bool.not_false, beq_iff]
    split
    · rename_i hzero
      exact ⟨isNaN_eq_false_iff.mpr (Nat.zero_le _), .inr ⟨magnitude_zero, hzero⟩⟩
    · exact ⟨h, .inl rfl⟩
  · -- nothing equals the number that is not one
    rw [Bool.not_true, ← Bool.not_eq_true, beq_iff, isNaN_ofText_display, h]
    exact fun hequal ↦ Bool.noConfusion hequal.1

theorem display_eq_iff {x y : Float} :
    display x = display y ↔ (x == y) = true ∨ x.isNaN = true ∧ y.isNaN = true := by
  constructor
  · intro h
    have hnan : x.isNaN = y.isNaN := by
      rw [← isNaN_ofText_display x, h, isNaN_ofText_display]
    rcases hx : x.isNaN with _ | _
    · have hread := ofText_display hx
      rw [h, ofText_display (hnan ▸ hx)] at hread
      refine .inl (beq_iff.mpr ⟨hx, ?_⟩)
      -- only zeros are read back as zero, so both are zero or neither is
      split at hread <;> split at hread
      · exact .inr ⟨‹_›, ‹_›⟩
      · exact absurd (hread ▸ magnitude_zero) ‹_›
      · exact absurd (hread ▸ magnitude_zero) ‹_›
      · exact .inl hread.symm
    · exact .inr ⟨rfl, hnan ▸ hx⟩
  · rintro (h | ⟨hx, hy⟩)
    · obtain ⟨-, rfl | ⟨hx, hy⟩⟩ := beq_iff.mp h
      · rfl
      · rw [display_of_zero hx, display_of_zero hy]
    · rw [display_of_isNaN hx, display_of_isNaN hy]

/-- The written form of a number is read as a number equal to it, and a comparison of the two finds
them equal; only of what is not a number neither can be said. So numbers with the same written form
are equal. -/
theorem display_reads_back (x : Float) :
    (ofText (display x)).isNaN = x.isNaN ∧ (ofText (display x) == x) = !x.isNaN ∧
      Value.looseEq (.number x) (.string (display x)) = !x.isNaN ∧
      ∀ y, display x = display y ↔ (x == y) = true ∨ x.isNaN = true ∧ y.isNaN = true := by
  have hloose : Value.looseEq (.number x) (.string (display x)) = (x == ofText (display x)) := by
    rw [Value.looseEq]
  refine ⟨isNaN_ofText_display x, beq_ofText_display x, ?_, fun y ↦ display_eq_iff⟩
  rw [hloose, beq_comm, beq_ofText_display]

end Number

end Scriptlet
