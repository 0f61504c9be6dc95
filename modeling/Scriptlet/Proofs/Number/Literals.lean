import Scriptlet.Eval.Operation
import Scriptlet.Proofs.Number.Reading
import Scriptlet.Proofs.Token.RawText

/-!
# Number literals

A literal is meant to be a decimal: digits with at most one point among them. A point at its end is
dropped before the rest is read as a numeral, and so one more point at the end of a decimal is
accepted as well (`isDecimal_literalBody_iff`). On decimals the dropped point makes no difference to
the number (`ofLiteral?_of_isDecimal`).

Every text that is written like a number token is a decimal.
-/

namespace Scriptlet

/-- Digits with at most one point among them, and at least one digit. -/
structure IsDecimal (text : List Char) : Prop where
  chars : ∀ c ∈ text, c.isDigit = true ∨ c = '.'
  digit : ∃ c ∈ text, c.isDigit = true
  points : text.count '.' ≤ 1

theorem isDecimal_iff {text : List Char} : IsDecimal text ↔
    text.all (fun c ↦ c.isDigit || c == '.') = true ∧ text.any Char.isDigit = true ∧
      text.count '.' ≤ 1 := by
  simp only [List.all_eq_true, List.any_eq_true, Bool.or_eq_true, beq_iff_eq]
  exact ⟨fun ⟨hchars, hdigit, hpoints⟩ ↦ ⟨hchars, hdigit, hpoints⟩,
    fun ⟨hchars, hdigit, hpoints⟩ ↦ ⟨hchars, hdigit, hpoints⟩⟩

instance (text : List Char) : Decidable (IsDecimal text) := decidable_of_iff _ isDecimal_iff.symm

namespace Number

theorem ne_point_of_isDigit {c : Char} (h : c.isDigit = true) : c ≠ '.' := by
  rintro rfl
  revert h
  decide

theorem count_point_of_digits {text : List Char} (h : ∀ c ∈ text, c.isDigit = true) :
    text.count '.' = 0 :=
  List.count_eq_zero.mpr fun hmem ↦ ne_point_of_isDigit (h _ hmem) rfl

end Number

namespace IsDecimal

open Number

variable {text : List Char}

theorem of_concat (h : IsDecimal (text ++ ['.'])) : IsDecimal text := by
  refine ⟨fun c hc ↦ h.chars c (List.mem_append_left _ hc), ?_, ?_⟩
  · obtain ⟨c, hc, hdigit⟩ := h.digit
    rw [List.mem_append, List.mem_singleton] at hc
    exact ⟨c, hc.resolve_right (ne_point_of_isDigit hdigit), hdigit⟩
  · have hpoints := h.points
    rw [List.count_append] at hpoints
    exact Nat.le_of_add_right_le hpoints

theorem digits_of_concat (h : IsDecimal (text ++ ['.'])) :
    text ≠ [] ∧ ∀ c ∈ text, c.isDigit = true := by
  obtain ⟨c, hc, hdigit⟩ := h.of_concat.digit
  refine ⟨List.ne_nil_of_mem hc, fun d hd ↦ (h.of_concat.chars d hd).resolve_right ?_⟩
  rintro rfl
  have hpoints := h.points
  have hpos : 0 < text.count '.' := List.count_pos_iff.mpr hd
  rw [List.count_append, List.count_singleton_self] at hpoints
  omega

theorem of_isNumberText (h : IsNumberText text) : IsDecimal text := by
  obtain ⟨whole, hne, hwhole, rfl | ⟨fraction, hfraction, rfl⟩⟩ := h
  · obtain ⟨c, hc⟩ := List.exists_mem_of_ne_nil text hne
    refine ⟨fun c hc ↦ .inl (hwhole c hc), ⟨c, hc, hwhole c hc⟩, ?_⟩
    rw [count_point_of_digits hwhole]
    exact Nat.zero_le 1
  · obtain ⟨c, hc⟩ := List.exists_mem_of_ne_nil whole hne
    refine ⟨fun c hc ↦ ?_, ⟨c, List.mem_append_left _ hc, hwhole c hc⟩, ?_⟩
    · rw [List.mem_append, List.mem_cons] at hc
      rcases hc with hc | rfl | hc
      · exact .inl (hwhole c hc)
      · exact .inr rfl
      · exact .inl (hfraction c hc)
    · have hnone := count_point_of_digits hwhole
      have hnone' := count_point_of_digits hfraction
      rw [List.count_append, List.count_cons_self]
      omega

end IsDecimal

/-! ## Numerals among texts of digits and points -/

namespace Numeral

open Number

variable {text : List Char}

theorem exists_digits (h : ∀ c ∈ text, c.isDigit = true ∨ c = '.') :
    ∃ whole, (∀ c ∈ whole, c.isDigit = true) ∧
      (text = whole ∨ ∃ rest, text = whole ++ '.' :: rest) := by
  have htext := text.takeWhile_append_dropWhile (p := Char.isDigit)
  refine ⟨text.takeWhile Char.isDigit, fun c hc ↦ List.all_eq_true.mp List.all_takeWhile c hc, ?_⟩
  rcases hrest : text.dropWhile Char.isDigit with _ | ⟨c, rest⟩
  · rw [hrest, List.append_nil] at htext
    exact .inl htext.symm
  · rw [hrest] at htext
    have hc : c.isDigit ≠ true := by
      have hhead := List.head?_dropWhile_not Char.isDigit text
      rw [hrest] at hhead
      simpa using hhead
    have hmem : c ∈ text := by
      rw [← htext]
      exact List.mem_append_right _ List.mem_cons_self
    obtain rfl : c = '.' := (h c hmem).resolve_left hc
    exact .inr ⟨rest, htext.symm⟩

/-- Among the texts of digits and points the numerals are those with a digit and at most one
point. -/
theorem isSome_read?_iff (h : ∀ c ∈ text, c.isDigit = true ∨ c = '.') :
    (read? text).isSome = true ↔ (∃ c ∈ text, c.isDigit = true) ∧ text.count '.' ≤ 1 := by
  have hsign : splitSign text = (false, text) := by
    refine splitSign_eq fun c hc ↦ ?_
    rcases h c (List.mem_of_head? hc) with hdigit | rfl
    · exact not_sign_of_isDigit hdigit
    · decide
  obtain ⟨whole, hwhole, rfl | ⟨rest, rfl⟩⟩ := exists_digits h
  · -- no point
    rw [count_point_of_digits hwhole]
    by_cases hne : text = []
    · subst hne
      exact iff_of_false (by decide) fun h ↦ by simpa using h.1
    · obtain ⟨c, hc⟩ := List.exists_mem_of_ne_nil text hne
      rw [read?_digits hne hwhole]
      exact iff_of_true rfl ⟨⟨c, hc, hwhole c hc⟩, Nat.zero_le 1⟩
  · have hstop : splitDigits ('.' :: rest) = ([], '.' :: rest) := by simp [splitDigits]
    have hrest (c : Char) (hc : c ∈ rest) : c.isDigit = true ∨ c = '.' :=
      h c (List.mem_append_right _ (List.mem_cons_of_mem _ hc))
    obtain ⟨fraction, hfraction, rfl | ⟨others, rfl⟩⟩ := exists_digits hrest
    · -- one point
      have hsplit : splitFraction ('.' :: rest) = (rest, []) := by
        have hdigits := splitDigits_append hfraction []
        rw [List.append_nil] at hdigits
        simpa [splitFraction, splitDigits] using hdigits
      rw [read?_eq hsign hwhole hstop hsplit, List.count_append, List.count_cons_self,
        count_point_of_digits hwhole, count_point_of_digits hfraction]
      by_cases hnil : whole = [] ∧ rest = []
      · obtain ⟨rfl, rfl⟩ := hnil
        rw [if_pos ⟨rfl, rfl⟩]
        refine iff_of_false (by decide) ?_
        rintro ⟨⟨c, hc, hdigit⟩, -⟩
        exact ne_point_of_isDigit hdigit (by simpa using hc)
      · have hne : whole ++ rest ≠ [] := by simpa using hnil
        obtain ⟨c, hc⟩ := List.exists_mem_of_ne_nil _ hne
        rw [if_neg hnil]
        refine iff_of_true rfl ⟨?_, Nat.le_refl 1⟩
        rcases List.mem_append.mp hc with hc | hc
        · exact ⟨c, List.mem_append_left _ hc, hwhole c hc⟩
        · exact ⟨c, List.mem_append_right _ (List.mem_cons_of_mem _ hc), hfraction c hc⟩
    · -- two points or more
      have hsplit : splitFraction ('.' :: (fraction ++ '.' :: others))
          = (fraction, '.' :: others) := by
        rw [splitFraction, splitDigits_append hfraction]
        simp [splitDigits]
      rw [read?_eq hsign hwhole hstop hsplit]
      simp [readExponent?, List.count_append]
      omega

end Numeral

/-! ## Literals -/

namespace Number

variable {lexeme : String} {text : List Char}

/-- What is left of a literal when one point at its end is dropped. -/
def literalBody (text : List Char) : List Char :=
  if text.getLast? = some '.' then text.dropLast else text

theorem literalBody_concat (text : List Char) : literalBody (text ++ ['.']) = text := by
  simp [literalBody]

theorem literalBody_eq_self (h : text.getLast? ≠ some '.') : literalBody text = text := if_neg h

theorem isDecimal_literalBody_iff : IsDecimal (literalBody text) ↔
    IsDecimal text ∨ ∃ front, text = front ++ ['.'] ∧ IsDecimal front := by
  by_cases hlast : text.getLast? = some '.'
  · obtain ⟨front, rfl⟩ := List.getLast?_eq_some_iff.mp hlast
    rw [literalBody_concat]
    constructor
    · exact fun h ↦ .inr ⟨front, rfl, h⟩
    · rintro (h | ⟨front', hfront, h⟩)
      · exact h.of_concat
      · rwa [List.append_cancel_right hfront]
  · rw [literalBody_eq_self hlast]
    constructor
    · exact .inl
    · rintro (h | ⟨front, rfl, -⟩)
      · exact h
      · exact absurd (by simp) hlast

/-- When the point at its end is dropped, a literal is a decimal. -/
theorem ofLiteral?_eq (lexeme : String) : ofLiteral? lexeme =
    if IsDecimal (literalBody lexeme.toList) then
      (Numeral.read? (literalBody lexeme.toList)).map ofNumeral
    else none := by
  have hunfold : ofLiteral? lexeme =
      if (literalBody lexeme.toList).isEmpty
          || !(literalBody lexeme.toList).all (fun c ↦ c.isDigit || c = '.') then none
      else parse? (literalBody lexeme.toList) := rfl
  rw [hunfold]
  generalize literalBody lexeme.toList = body
  by_cases hchars : ∀ c ∈ body, c.isDigit = true ∨ c = '.'
  · have hall : body.all (fun c ↦ c.isDigit || c = '.') = true := by simpa using hchars
    have hread := Numeral.isSome_read?_iff hchars
    rw [parse?_eq fun c hc ↦ Numeral.isNumeralChar_of_digitOrPoint (hchars c hc)]
    by_cases hdecimal : IsDecimal body
    · obtain ⟨c, hc, -⟩ := hdecimal.digit
      have hne : body.isEmpty = false := by
        rw [List.isEmpty_eq_false_iff]
        exact List.ne_nil_of_mem hc
      rw [hall, hne, if_pos hdecimal]
      rfl
    · have hnone : Numeral.read? body = none := by
        rw [← Option.not_isSome_iff_eq_none, hread]
        exact fun h ↦ hdecimal ⟨hchars, h.1, h.2⟩
      rw [hnone, if_neg hdecimal]
      exact ite_self none
  · have hall : body.all (fun c ↦ c.isDigit || c = '.') = false := by
      rw [← Bool.not_eq_true]
      simpa using hchars
    have hdecimal : ¬ IsDecimal body := fun h ↦ hchars h.chars
    rw [hall, Bool.not_false, Bool.or_true, if_pos rfl, if_neg hdecimal]

theorem isSome_ofLiteral?_iff :
    (ofLiteral? lexeme).isSome = true ↔ IsDecimal (literalBody lexeme.toList) := by
  rw [ofLiteral?_eq]
  split
  · rename_i h
    rw [Option.isSome_map, Numeral.isSome_read?_iff h.chars]
    exact iff_of_true ⟨h.digit, h.points⟩ h
  · rename_i h
    exact iff_of_false (by simp) h

/-- A decimal is read as the numeral it is, whether or not a point at its end is dropped. -/
theorem ofLiteral?_of_isDecimal (h : IsDecimal lexeme.toList) :
    ofLiteral? lexeme = (Numeral.read? lexeme.toList).map ofNumeral := by
  rw [ofLiteral?_eq, if_pos (isDecimal_literalBody_iff.mpr (.inl h))]
  by_cases hlast : lexeme.toList.getLast? = some '.'
  · obtain ⟨front, hfront⟩ := List.getLast?_eq_some_iff.mp hlast
    rw [hfront] at h ⊢
    obtain ⟨hne, hdigits⟩ := h.digits_of_concat
    rw [literalBody_concat, Numeral.read?_digits hne hdigits,
      Numeral.read?_point hne hdigits (fun c hc ↦ absurd hc List.not_mem_nil)]
  · rw [literalBody_eq_self hlast]

theorem isSome_ofLiteral? (h : IsNumberText lexeme.toList) :
    (ofLiteral? lexeme).isSome = true :=
  isSome_ofLiteral?_iff.mpr (isDecimal_literalBody_iff.mpr (.inl (.of_isNumberText h)))

end Number

/-- A number expression has a value if its text is a decimal, or a decimal with one more point at
its end, and every other text is reported as no number literal. -/
theorem literal_may_end_in_one_more_point (lexeme : String) :
    ((∃ x, literalValue lexeme = .ok (.number x)) ↔
      IsDecimal lexeme.toList ∨ ∃ front, lexeme.toList = front ++ ['.'] ∧ IsDecimal front) ∧
    (literalValue lexeme = .error (.typeMismatch (.notALiteral lexeme)) ↔
      ¬ (IsDecimal lexeme.toList ∨ ∃ front, lexeme.toList = front ++ ['.'] ∧ IsDecimal front)) ∧
    (RuntimeError.typeMismatch (.notALiteral lexeme)).message
      = "Type error: " ++ ("'" ++ lexeme ++ "' is not a number literal") ++ "." := by
  refine ⟨?_, ?_, rfl⟩
  · rw [← Number.isDecimal_literalBody_iff, ← Number.isSome_ofLiteral?_iff, literalValue]
    rcases Number.ofLiteral? lexeme with _ | x <;> simp
  · rw [← Number.isDecimal_literalBody_iff, ← Number.isSome_ofLiteral?_iff, literalValue]
    rcases Number.ofLiteral? lexeme with _ | x <;> simp

/-- Two points are one too many for a decimal, and yet they are accepted. -/
theorem two_final_points_are_accepted :
    ¬ IsDecimal "1..".toList ∧ ∃ x, literalValue "1.." = .ok (.number x) ∧ (x == 1.0) = true := by
  have hread : Numeral.read? (Number.literalBody "1..".toList) = some { whole := ['1'] } := by
    decide
  refine ⟨by decide, Number.ofNumeral { whole := ['1'] }, ?_, by decide +kernel⟩
  rw [literalValue, Number.ofLiteral?_eq, if_pos (by decide), hread, Option.map_some]

end Scriptlet
