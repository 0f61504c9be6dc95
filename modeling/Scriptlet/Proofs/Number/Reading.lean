import Mathlib.Data.List.TakeWhile
import Scriptlet.Number.Basic

/-!
# Reading texts as numbers

`TrimsTo` says what trimming is without saying how it is done: blanks are taken off at both ends,
and what is left neither begins nor ends with one. Every text is trimmed to one core, which
`trimBlanks` finds.

Then come numerals: what digits are worth, and which texts are read as which numeral, digits,
perhaps a point with more digits, perhaps an exponent, and perhaps a minus in front of all. A text
that is read has no characters but those of numerals, so no blanks. The words that can be read too
have others, and where these are refused numerals are all that is left (`ofCore_eq`).
-/

namespace Scriptlet

/-! ## Trimming -/

/-- The core is what is left of the text when the blanks at either end are taken off. -/
structure TrimsTo (text core : List Char) : Prop where
  blanks : ∃ before after, (∀ c ∈ before, isBlank c = true) ∧ (∀ c ∈ after, isBlank c = true) ∧
    text = before ++ (core ++ after)
  head : ∀ c ∈ core.head?, isBlank c = false
  last : ∀ c ∈ core.getLast?, isBlank c = false

theorem dropWhile_isBlank_eq_self {text : List Char} (h : ∀ c ∈ text.head?, isBlank c = false) :
    text.dropWhile isBlank = text := by
  rcases text with _ | ⟨c, text⟩
  · rfl
  · rw [List.dropWhile_cons, h c rfl]
    rfl

theorem isBlank_of_head?_dropWhile {text : List Char} {c : Char}
    (h : c ∈ (text.dropWhile isBlank).head?) : isBlank c = false := by
  have hstop := List.head?_dropWhile_not isBlank text
  rw [h] at hstop
  exact hstop

theorem TrimsTo.trimBlanks_eq {text core : List Char} (h : TrimsTo text core) :
    trimBlanks text = core := by
  obtain ⟨before, after, hbefore, hafter, rfl⟩ := h.blanks
  rw [trimBlanks, List.dropWhile_append_of_pos hbefore]
  rcases core with _ | ⟨c, core⟩
  · rw [List.nil_append, List.dropWhile_eq_nil_iff.mpr hafter]
    rfl
  · have hfront : (c :: core ++ after).dropWhile isBlank = c :: core ++ after :=
      dropWhile_isBlank_eq_self h.head
    have hback : (c :: core).reverse.dropWhile isBlank = (c :: core).reverse :=
      dropWhile_isBlank_eq_self fun d hd ↦ h.last d (by rwa [List.head?_reverse] at hd)
    rw [hfront, List.reverse_append,
      List.dropWhile_append_of_pos fun d hd ↦ hafter d (List.mem_reverse.mp hd), hback,
      List.reverse_reverse]

theorem trimsTo_trimBlanks (text : List Char) : TrimsTo text (trimBlanks text) := by
  have hback : text.dropWhile isBlank
      = trimBlanks text ++ ((text.dropWhile isBlank).reverse.takeWhile isBlank).reverse := by
    rw [trimBlanks, ← List.reverse_append, List.takeWhile_append_dropWhile, List.reverse_reverse]
  refine ⟨⟨text.takeWhile isBlank, ((text.dropWhile isBlank).reverse.takeWhile isBlank).reverse,
    fun c hc ↦ List.all_eq_true.mp List.all_takeWhile c hc,
    fun c hc ↦ List.all_eq_true.mp List.all_takeWhile c (List.mem_reverse.mp hc), ?_⟩, ?_, ?_⟩
  · rw [← hback, List.takeWhile_append_dropWhile]
  · intro c hc
    have hhead : c ∈ (text.dropWhile isBlank).head? := by
      rw [hback, List.head?_append, Option.mem_def.mp hc]
      rfl
    exact isBlank_of_head?_dropWhile hhead
  · intro c hc
    rw [trimBlanks, List.getLast?_reverse] at hc
    exact isBlank_of_head?_dropWhile hc

theorem trimsTo_of_not_blank {core before after : List Char} (h : ∀ c ∈ core, isBlank c = false)
    (hbefore : ∀ c ∈ before, isBlank c = true) (hafter : ∀ c ∈ after, isBlank c = true) :
    TrimsTo (before ++ (core ++ after)) core where
  blanks := ⟨before, after, hbefore, hafter, rfl⟩
  head c hc := h c (List.mem_of_head? hc)
  last c hc := h c (List.mem_of_getLast? hc)

theorem trimsTo_iff {text core : List Char} : TrimsTo text core ↔ trimBlanks text = core :=
  ⟨TrimsTo.trimBlanks_eq, fun h ↦ h ▸ trimsTo_trimBlanks text⟩

variable {whole fraction digits text tail : List Char} {exponent : Int} {n : Numeral}

namespace Numeral

/-! ## The value of digits -/

theorem value_append (front back : List Char) :
    value (front ++ back) = value front * Nat.pow 10 back.length + value back := by
  rw [value_eq, value_eq, value_eq, Nat.ofDigitChars_append, Nat.ofDigitChars_eq_ofDigitChars_zero,
    Nat.mul_comm, Nat.pow_eq]

theorem value_replicate_zero (k : Nat) : value (List.replicate k '0') = 0 := by
  rw [value_eq, Nat.ofDigitChars_replicate_zero, Nat.mul_zero]

theorem value_toDigits (n : Nat) : value (Nat.toDigits 10 n) = n := by
  rw [value_eq, Nat.ofDigitChars_ten_toDigits]

theorem le_ofDigitChars (digits : List Char) (n : Nat) : n ≤ Nat.ofDigitChars 10 digits n := by
  rw [Nat.ofDigitChars_eq_ofDigitChars_zero]
  exact Nat.le_trans (Nat.le_mul_of_pos_left n (Nat.pow_pos (by decide))) (Nat.le_add_right _ _)

/-- The digits of a small exponent all count. -/
theorem exponentValue_eq (h : value digits < Nat.pow 2 16) :
    exponentValue digits = value digits := by
  -- reading started with any number, the bound is kept as long as the result keeps it
  have hfold (start : Nat) (hstart : Nat.ofDigitChars 10 digits start < Nat.pow 2 16) :
      digits.foldl (fun n c ↦ if n < Nat.pow 2 16 then Nat.ofDigitChars 10 [c] n else n) start
        = Nat.ofDigitChars 10 digits start := by
    clear h
    induction digits generalizing start with
    | nil => simp
    | cons c digits ih =>
      have hlt : start < Nat.pow 2 16 := Nat.lt_of_le_of_lt (le_ofDigitChars _ _) hstart
      rw [Nat.ofDigitChars_cons] at hstart ⊢
      rw [List.foldl_cons, if_pos hlt, Nat.ofDigitChars_cons, Nat.ofDigitChars_nil]
      exact ih _ hstart
  rw [value_eq] at h ⊢
  exact hfold 0 h

/-! ## Taking texts apart -/

theorem splitSign_eq (h : ∀ c ∈ text.head?, c ≠ '-' ∧ c ≠ '+') :
    splitSign text = (false, text) := by
  unfold splitSign
  split
  · exact absurd rfl (h '-' rfl).1
  · exact absurd rfl (h '+' rfl).2
  · rfl

theorem not_sign_of_isDigit {c : Char} (h : c.isDigit = true) : c ≠ '-' ∧ c ≠ '+' := by
  constructor <;> rintro rfl <;> exact absurd h (by decide)

theorem splitSign_append (hne : whole ≠ []) (h : ∀ c ∈ whole, c.isDigit = true)
    (rest : List Char) : splitSign (whole ++ rest) = (false, whole ++ rest) := by
  obtain ⟨c, others, rfl⟩ := List.exists_cons_of_ne_nil hne
  refine splitSign_eq fun d hd ↦ ?_
  obtain rfl : c = d := by simpa using hd
  exact not_sign_of_isDigit (h c List.mem_cons_self)

theorem splitDigits_append (h : ∀ c ∈ whole, c.isDigit = true) (rest : List Char) :
    splitDigits (whole ++ rest) = (whole ++ (splitDigits rest).1, (splitDigits rest).2) := by
  rw [splitDigits, List.takeWhile_append_of_pos h, List.dropWhile_append_of_pos h, splitDigits]

theorem splitDigits_parts (text : List Char) :
    (∀ c ∈ (splitDigits text).1, c.isDigit = true) ∧
      (splitDigits text).1 ++ (splitDigits text).2 = text :=
  ⟨fun c hc ↦ List.all_eq_true.mp List.all_takeWhile c hc, List.takeWhile_append_dropWhile⟩

theorem splitFraction_parts (text : List Char) :
    splitFraction text = ([], text) ∨ (∀ c ∈ (splitFraction text).1, c.isDigit = true) ∧
      text = '.' :: ((splitFraction text).1 ++ (splitFraction text).2) := by
  unfold splitFraction
  split
  · rename_i rest
    obtain ⟨hdigits, hrest⟩ := splitDigits_parts rest
    exact .inr ⟨hdigits, by rw [hrest]⟩
  · exact .inl rfl

/-- An exponent starts neither with a digit nor with a point. -/
theorem split_of_readExponent? (h : readExponent? tail = some exponent) :
    splitDigits tail = ([], tail) ∧ splitFraction tail = ([], tail) := by
  unfold readExponent? at h
  split at h
  · exact ⟨rfl, rfl⟩
  · exact ⟨by simp [splitDigits], rfl⟩
  · exact ⟨by simp [splitDigits], rfl⟩
  · simp at h

/-- Exponents are written with a sign in any case. -/
theorem readExponent?_toDigits (h : exponent.natAbs < Nat.pow 2 16) :
    readExponent? ('e' :: (if exponent < 0 then '-' else '+') :: Nat.toDigits 10 exponent.natAbs)
      = some exponent := by
  have hne : Nat.toDigits 10 exponent.natAbs ≠ [] := Nat.toDigits_ne_nil
  have hdigits : (Nat.toDigits 10 exponent.natAbs).all Char.isDigit = true := by
    rw [List.all_eq_true]
    exact fun c hc ↦ Nat.isDigit_of_mem_toDigits (by decide) (by decide) hc
  have hvalue : exponentValue (Nat.toDigits 10 exponent.natAbs) = exponent.natAbs := by
    rw [exponentValue_eq (by rwa [value_toDigits]), value_toDigits]
  generalize hn : exponent.natAbs = n at hne hdigits hvalue ⊢
  by_cases hneg : exponent < 0
  · simp [if_pos hneg, readExponent?, splitSign, hdigits, hvalue, hne]
    omega
  · simp [if_neg hneg, readExponent?, splitSign, hdigits, hvalue, hne]
    omega

/-! ## Reading -/

/-- Digits are read up to where they end, and behind them a fraction and an exponent, if any. -/
theorem read?_eq {rest : List Char} (hsign : splitSign (whole ++ rest) = (false, whole ++ rest))
    (h : ∀ c ∈ whole, c.isDigit = true) (hstop : splitDigits rest = ([], rest))
    (hrest : splitFraction rest = (fraction, tail)) :
    read? (whole ++ rest) = if whole = [] ∧ fraction = [] then none
      else (readExponent? tail).map fun exponent ↦ { whole, fraction, exponent } := by
  rw [read?, hsign]
  simp only [splitDigits_append h, hstop, hrest, List.append_nil, Bool.and_eq_true,
    List.isEmpty_iff]

theorem read?_append (hne : whole ≠ []) (h : ∀ c ∈ whole, c.isDigit = true) {rest : List Char}
    (hstop : splitDigits rest = ([], rest)) (hrest : splitFraction rest = (fraction, tail))
    (htail : readExponent? tail = some exponent) :
    read? (whole ++ rest) = some { whole, fraction, exponent } := by
  rw [read?_eq (splitSign_append hne h rest) h hstop hrest, if_neg fun hnil ↦ hne hnil.1, htail,
    Option.map_some]

theorem read?_digits_append (hne : whole ≠ []) (h : ∀ c ∈ whole, c.isDigit = true)
    (htail : readExponent? tail = some exponent) :
    read? (whole ++ tail) = some { whole, exponent } := by
  obtain ⟨hstop, hrest⟩ := split_of_readExponent? htail
  exact read?_append hne h hstop hrest htail

/-- There need not be any digits behind the point. -/
theorem read?_point_append (hne : whole ≠ []) (h : ∀ c ∈ whole, c.isDigit = true)
    (hfraction : ∀ c ∈ fraction, c.isDigit = true) (htail : readExponent? tail = some exponent) :
    read? (whole ++ '.' :: (fraction ++ tail)) = some { whole, fraction, exponent } := by
  have hrest : splitFraction ('.' :: (fraction ++ tail)) = (fraction, tail) := by
    rw [splitFraction, splitDigits_append hfraction, (split_of_readExponent? htail).1,
      List.append_nil]
  refine read?_append hne h ?_ hrest htail
  simp [splitDigits]

theorem read?_digits (hne : whole ≠ []) (h : ∀ c ∈ whole, c.isDigit = true) :
    read? whole = some { whole } := by
  have hread : read? (whole ++ []) = some { whole } := read?_digits_append hne h rfl
  rw [List.append_nil] at hread
  exact hread

theorem read?_point (hne : whole ≠ []) (h : ∀ c ∈ whole, c.isDigit = true)
    (hfraction : ∀ c ∈ fraction, c.isDigit = true) :
    read? (whole ++ '.' :: fraction) = some { whole, fraction } := by
  have hread : read? (whole ++ '.' :: (fraction ++ [])) = some { whole, fraction } :=
    read?_point_append hne h hfraction rfl
  rw [List.append_nil] at hread
  exact hread

theorem read?_minus (hsign : splitSign text = (false, text)) :
    read? ('-' :: text) = (read? text).map ({ · with negative := true }) := by
  have hminus : splitSign ('-' :: text) = (true, text) := rfl
  rw [read?, read?, hminus, hsign]
  simp only
  split
  · rfl
  · rw [Option.map_map]
    rfl

/-! ## The characters of numerals -/

theorem isNumeralChar_of_isDigit {c : Char} (h : c.isDigit = true) : isNumeralChar c = true := by
  rw [isNumeralChar, h, Bool.true_or]

theorem isNumeralChar_of_digitOrPoint {c : Char} (h : c.isDigit = true ∨ c = '.') :
    isNumeralChar c = true := by
  rcases h with h | rfl
  · exact isNumeralChar_of_isDigit h
  · decide

theorem isBlank_of_isNumeralChar {c : Char} (h : isNumeralChar c = true) : isBlank c = false := by
  rw [isNumeralChar, Bool.or_eq_true] at h
  rcases h with h | h
  · rw [Char.isDigit, Bool.and_eq_true, decide_eq_true_eq, decide_eq_true_eq] at h
    have hlow : 48 ≤ c.toNat := h.1
    have hhigh : c.toNat ≤ 57 := h.2
    have hranges : ∀ r ∈ blankRanges, r.2 < 48 ∨ 57 < r.1 := by decide
    rw [isBlank, List.any_eq_false]
    intro r hr
    have hrange := hranges r hr
    rw [Bool.and_eq_true, decide_eq_true_eq, decide_eq_true_eq]
    omega
  · have hall : "+-.eE".toList.all (fun d ↦ !isBlank d) = true := by decide
    simpa using List.all_eq_true.mp hall c (List.contains_iff_mem.mp h)

theorem mem_of_mem_splitSign {c : Char} (h : c ∈ (splitSign text).2) : c ∈ text := by
  unfold splitSign at h
  split at h
  · exact List.mem_cons_of_mem _ h
  · exact List.mem_cons_of_mem _ h
  · exact h

theorem isNumeralChar_of_splitSign (h : ∀ c ∈ (splitSign text).2, isNumeralChar c = true) :
    ∀ c ∈ text, isNumeralChar c = true := by
  unfold splitSign at h
  split at h
  · exact List.forall_mem_cons.mpr ⟨rfl, h⟩
  · exact List.forall_mem_cons.mpr ⟨rfl, h⟩
  · exact h

theorem isNumeralChar_of_splitDigits (h : ∀ c ∈ (splitDigits text).2, isNumeralChar c = true) :
    ∀ c ∈ text, isNumeralChar c = true := by
  intro c hc
  obtain ⟨hdigits, htext⟩ := splitDigits_parts text
  rw [← htext, List.mem_append] at hc
  rcases hc with hc | hc
  · exact isNumeralChar_of_isDigit (hdigits c hc)
  · exact h c hc

theorem isNumeralChar_of_splitFraction
    (h : ∀ c ∈ (splitFraction text).2, isNumeralChar c = true) :
    ∀ c ∈ text, isNumeralChar c = true := by
  unfold splitFraction at h
  split at h
  · exact List.forall_mem_cons.mpr ⟨rfl, isNumeralChar_of_splitDigits h⟩
  · exact h

theorem isNumeralChar_of_readExponent? (h : readExponent? text = some exponent) :
    ∀ c ∈ text, isNumeralChar c = true := by
  -- what stands behind the letter is a sign and digits, or else nothing is read
  have hsigned (rest : List Char) (hrest : (splitSign rest).2.all Char.isDigit = true) :
      ∀ c ∈ rest, isNumeralChar c = true :=
    isNumeralChar_of_splitSign fun c hc ↦
      isNumeralChar_of_isDigit (List.all_eq_true.mp hrest c hc)
  have hdigits (rest : List Char) (e : Int)
      (hread : readExponent? ('e' :: rest) = some e) :
      (splitSign rest).2.all Char.isDigit = true := by
    refine Bool.of_not_eq_false fun hall ↦ ?_
    simp [readExponent?, hall] at hread
  unfold readExponent? at h
  split at h
  · simp
  · exact List.forall_mem_cons.mpr ⟨rfl, hsigned _ (hdigits _ _ h)⟩
  · exact List.forall_mem_cons.mpr ⟨rfl, hsigned _ (hdigits _ _ h)⟩
  · simp at h

/-- A text that is read has no characters but those of numerals. -/
theorem isNumeralChar_of_read? (h : read? text = some n) : ∀ c ∈ text, isNumeralChar c = true := by
  simp only [read?] at h
  split at h
  · simp at h
  · rw [Option.map_eq_some_iff] at h
    obtain ⟨exponent, htail, -⟩ := h
    exact isNumeralChar_of_splitSign (isNumeralChar_of_splitDigits
      (isNumeralChar_of_splitFraction (isNumeralChar_of_readExponent? htail)))

theorem isNumeralChar_eq_false_of_toLower {c : Char} (h : c.toLower = 'n') :
    isNumeralChar c = false := by
  rw [← Bool.not_eq_true, isNumeralChar, Bool.or_eq_true]
  rintro (hdigit | hmember)
  · -- digits are no capital letters, so that lowering them changes nothing
    have hbound : c.val ≤ '9'.val := by
      simpa [Char.isDigit] using (Bool.and_eq_true_iff.mp hdigit).2
    have hcapital : ¬ (c.val ≥ 'A'.val ∧ c.val ≤ 'Z'.val) := fun hrange ↦
      absurd (UInt32.le_trans hrange.1 hbound) (by decide)
    have hlower : c.toLower = c := dif_neg hcapital
    rw [← hlower, h] at hdigit
    exact absurd hdigit (by decide)
  · have hall : "+-.eE".toList.all (fun d ↦ d.toLower ≠ 'n') = true := by decide
    simpa [h] using List.all_eq_true.mp hall c (List.contains_iff_mem.mp hmember)

end Numeral

/-! ## Words -/

namespace Number

open Numeral

/-- The words have a letter that numerals do not have. -/
theorem parse?_eq (h : ∀ c ∈ text, isNumeralChar c = true) :
    parse? text = (read? text).map ofNumeral := by
  have hword : 'n' ∉ (splitSign text).2.map Char.toLower := by
    intro hmem
    obtain ⟨c, hc, hlower⟩ := List.mem_map.mp hmem
    have hchar := h c (mem_of_mem_splitSign hc)
    rw [isNumeralChar_eq_false_of_toLower hlower] at hchar
    cases hchar
  have hne {word : String} (hn : 'n' ∈ word.toList) :
      String.ofList ((splitSign text).2.map Char.toLower) ≠ word := by
    rintro rfl
    rw [String.toList_ofList] at hn
    exact hword hn
  simp only [parse?]
  split
  · exact absurd ‹_› (hne (by decide))
  · exact absurd ‹_› (hne (by decide))
  · exact absurd ‹_› (hne (by decide))
  · rfl

/-- Only numerals have all their characters among those of numerals and are read. -/
theorem ofCore_eq (core : List Char) : ofCore core = ((read? core).map ofNumeral).getD nan := by
  rw [ofCore]
  split
  · rename_i hchars
    rw [parse?_eq (List.all_eq_true.mp hchars)]
  · rename_i hchars
    have hnone : read? core = none := by
      rw [Option.eq_none_iff_forall_ne_some]
      exact fun n hn ↦ hchars (List.all_eq_true.mpr (isNumeralChar_of_read? hn))
    rw [hnone]
    rfl

end Number

end Scriptlet
