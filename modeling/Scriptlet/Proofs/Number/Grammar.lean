import Mathlib.Computability.Language
import Scriptlet.Proofs.Number.Display

/-!
# The texts that are numbers

Any text can be compared with a number, and most texts are no number then. The blanks at its ends
aside, a text is a number if nothing is left, if an infinity is named, or if it is a numeral.

`Numeral.Grammar` has the language of numerals, put together from its parts as the rule for numerals
is: a sign, digits with at most one point, an exponent. Reading takes a text apart from the front,
and no part can begin with what the part before it would have taken, so it finds the parts of every
member of the language. Numerals are rounded, and whatever is rounded is a number.
-/

namespace Scriptlet

/-! ## The language of numerals -/

namespace Numeral

namespace Grammar

def digits : Language Char := {w | w ≠ [] ∧ ∀ c ∈ w, c.isDigit = true}

def sign : Language Char := 1 + {['+']} + {['-']}

/-- Digits without a point, or with one behind or among them, or with one in front. -/
def mantissa : Language Char := digits * (1 + {['.']} * (1 + digits)) + {['.']} * digits

/-- A power of ten, or none. -/
def exponent : Language Char := 1 + ({['e']} + {['E']}) * (sign * digits)

def numeral : Language Char := sign * (mantissa * exponent)

variable {text rest : List Char} {c : Char}

theorem mem_digits : text ∈ digits ↔ text ≠ [] ∧ ∀ c ∈ text, c.isDigit = true := Iff.rfl

theorem mem_sign : text ∈ sign ↔ text = [] ∨ text = ['+'] ∨ text = ['-'] := or_assoc

theorem mem_singleton_mul {L : Language Char} :
    text ∈ ({[c]} : Language Char) * L ↔ ∃ rest ∈ L, text = c :: rest := by
  constructor
  · rintro ⟨_, rfl, rest, hrest, rfl⟩
    exact ⟨rest, hrest, rfl⟩
  · rintro ⟨rest, hrest, rfl⟩
    exact ⟨[c], rfl, rest, hrest, rfl⟩

theorem mem_sign_mul {L : Language Char} (hL : ∀ t ∈ L, splitSign t = (false, t)) :
    text ∈ sign * L ↔ (splitSign text).2 ∈ L := by
  constructor
  · rintro ⟨s, hs, t, ht, rfl⟩
    rcases mem_sign.mp hs with rfl | rfl | rfl
    · show (splitSign t).2 ∈ L
      rwa [hL t ht]
    · exact ht
    · exact ht
  · intro h
    obtain ⟨s, hs, htext⟩ : ∃ s ∈ sign, s ++ (splitSign text).2 = text := by
      unfold splitSign
      split
      · exact ⟨['-'], mem_sign.mpr (.inr (.inr rfl)), rfl⟩
      · exact ⟨['+'], mem_sign.mpr (.inr (.inl rfl)), rfl⟩
      · exact ⟨[], mem_sign.mpr (.inl rfl), rfl⟩
    exact ⟨s, hs, _, h, htext⟩

theorem mem_mantissa : text ∈ mantissa ↔ ∃ whole fraction,
    (∀ c ∈ whole, c.isDigit = true) ∧ (∀ c ∈ fraction, c.isDigit = true) ∧
      ¬ (whole = [] ∧ fraction = []) ∧
      (text = whole ∧ fraction = [] ∨ text = whole ++ '.' :: fraction) := by
  constructor
  · rintro (⟨whole, ⟨hne, hwhole⟩, more, hmore, rfl⟩ | hpoint)
    · rcases hmore with rfl | hmore
      · exact ⟨whole, [], hwhole, by simp, fun h ↦ hne h.1, .inl ⟨List.append_nil whole, rfl⟩⟩
      · obtain ⟨fraction, hfraction, rfl⟩ := mem_singleton_mul.mp hmore
        refine ⟨whole, fraction, hwhole, ?_, fun h ↦ hne h.1, .inr rfl⟩
        rcases hfraction with rfl | hfraction
        · simp
        · exact hfraction.2
    · obtain ⟨fraction, ⟨hne, hfraction⟩, rfl⟩ := mem_singleton_mul.mp hpoint
      exact ⟨[], fraction, by simp, hfraction, fun h ↦ hne h.2, .inr rfl⟩
  · rintro ⟨whole, fraction, hwhole, hfraction, hne, htext⟩
    by_cases hnil : whole = []
    · subst hnil
      have hpos : fraction ≠ [] := fun h ↦ hne ⟨rfl, h⟩
      rcases htext with ⟨-, h⟩ | rfl
      · exact absurd h hpos
      · exact .inr (mem_singleton_mul.mpr ⟨fraction, ⟨hpos, hfraction⟩, rfl⟩)
    · rcases htext with ⟨rfl, -⟩ | rfl
      · exact .inl ⟨text, ⟨hnil, hwhole⟩, [], .inl rfl, List.append_nil text⟩
      · have hmore : fraction ∈ 1 + digits := by
          rcases fraction with _ | ⟨c, fraction⟩
          · exact .inl rfl
          · exact .inr ⟨List.cons_ne_nil _ _, hfraction⟩
        exact .inl ⟨whole, ⟨hnil, hwhole⟩, '.' :: fraction,
          .inr (mem_singleton_mul.mpr ⟨fraction, hmore, rfl⟩), rfl⟩

theorem mem_exponent : text ∈ exponent ↔
    text = [] ∨ ∃ rest ∈ sign * digits, text = 'e' :: rest ∨ text = 'E' :: rest := by
  constructor
  · rintro (rfl | ⟨_, rfl | rfl, rest, hrest, rfl⟩)
    · exact .inl rfl
    · exact .inr ⟨rest, hrest, .inl rfl⟩
    · exact .inr ⟨rest, hrest, .inr rfl⟩
  · rintro (rfl | ⟨rest, hrest, rfl | rfl⟩)
    · exact .inl rfl
    · exact .inr ⟨['e'], .inl rfl, rest, hrest, rfl⟩
    · exact .inr ⟨['E'], .inr rfl, rest, hrest, rfl⟩

/-! ## Reading finds the parts -/

theorem splitSign_of_mem_digits (h : text ∈ digits) : splitSign text = (false, text) := by
  have hsplit := splitSign_append h.1 h.2 []
  rwa [List.append_nil] at hsplit

theorem isSome_readExponent?_letter (hc : c = 'e' ∨ c = 'E') :
    (readExponent? (c :: rest)).isSome = true ↔ (splitSign rest).2 ∈ digits := by
  have hread : readExponent? (c :: rest)
      = if (splitSign rest).2.isEmpty || !(splitSign rest).2.all Char.isDigit then none
        else if (splitSign rest).1 then some (-(exponentValue (splitSign rest).2 : Int))
        else some (exponentValue (splitSign rest).2) := by
    rcases hc with rfl | rfl <;> rfl
  rw [hread, mem_digits, ne_eq, ← List.isEmpty_iff, ← List.all_eq_true]
  generalize (splitSign rest).2.isEmpty = empty
  generalize (splitSign rest).2.all Char.isDigit = all
  rcases empty with _ | _ <;> rcases all with _ | _ <;> rcases (splitSign rest).1 with _ | _ <;>
    simp

theorem isSome_readExponent?_iff : (readExponent? text).isSome = true ↔ text ∈ exponent := by
  rw [mem_exponent]
  rcases text with _ | ⟨c, rest⟩
  · exact iff_of_true rfl (.inl rfl)
  by_cases hc : c = 'e' ∨ c = 'E'
  · rw [isSome_readExponent?_letter hc, ← mem_sign_mul fun t ht ↦ splitSign_of_mem_digits ht]
    constructor
    · exact fun h ↦ .inr ⟨rest, h, by simpa using hc⟩
    · rintro (h | ⟨rest', hrest, h⟩)
      · cases h
      · obtain rfl : rest = rest' := by simpa [← or_and_right, hc] using h
        exact hrest
  · have hnone : readExponent? (c :: rest) = none := by
      rw [not_or] at hc
      unfold readExponent?
      split <;> simp_all
    rw [hnone]
    refine iff_of_false Bool.false_ne_true ?_
    rintro (h | ⟨rest', -, h | h⟩)
    · cases h
    · exact hc (.inl (List.cons.inj h).1)
    · exact hc (.inr (List.cons.inj h).1)

theorem splitSign_of_mem_mantissa_mul (h : text ∈ mantissa * exponent) :
    splitSign text = (false, text) := by
  obtain ⟨m, hm, x, -, rfl⟩ := Language.mem_mul.mp h
  obtain ⟨whole, fraction, hwhole, -, hne, htext⟩ := mem_mantissa.mp hm
  by_cases hnil : whole = []
  · subst hnil
    rcases htext with ⟨-, h⟩ | rfl
    · exact absurd ⟨rfl, h⟩ hne
    · rfl
  · rcases htext with ⟨rfl, -⟩ | rfl
    · exact splitSign_append hnil hwhole x
    · rw [List.append_assoc]
      exact splitSign_append hnil hwhole _

/-- The digits, the point and the digits behind it are found, and an exponent is left. -/
theorem mem_mantissa_mul_exponent : text ∈ mantissa * exponent ↔
    ¬ ((splitDigits text).1 = [] ∧ (splitFraction (splitDigits text).2).1 = []) ∧
      (splitFraction (splitDigits text).2).2 ∈ exponent := by
  constructor
  · intro h
    obtain ⟨m, hm, x, hx, rfl⟩ := Language.mem_mul.mp h
    obtain ⟨whole, fraction, hwhole, hfraction, hne, htext⟩ := mem_mantissa.mp hm
    obtain ⟨e, he⟩ := Option.isSome_iff_exists.mp (isSome_readExponent?_iff.mpr hx)
    obtain ⟨hdigits, hpoint⟩ := split_of_readExponent? he
    rcases htext with ⟨rfl, rfl⟩ | rfl
    · rw [splitDigits_append hwhole, hdigits, hpoint, List.append_nil]
      exact ⟨hne, hx⟩
    · have hstop : splitDigits ('.' :: (fraction ++ x)) = ([], '.' :: (fraction ++ x)) := by
        simp [splitDigits]
      rw [List.append_assoc, List.cons_append, splitDigits_append hwhole, hstop, splitFraction,
        splitDigits_append hfraction, hdigits, List.append_nil, List.append_nil]
      exact ⟨hne, hx⟩
  · rintro ⟨hne, hx⟩
    obtain ⟨hwhole, htext⟩ := splitDigits_parts text
    generalize (splitDigits text).1 = whole at hne hwhole htext
    generalize (splitDigits text).2 = rest at hne hx htext
    rcases splitFraction_parts rest with hrest | ⟨hfraction, hrest⟩
    · rw [hrest] at hne hx
      exact Language.mem_mul.mpr ⟨whole,
        mem_mantissa.mpr ⟨whole, [], hwhole, by simp, hne, .inl ⟨rfl, rfl⟩⟩, rest, hx, htext⟩
    · refine Language.mem_mul.mpr ⟨whole ++ '.' :: (splitFraction rest).1,
        mem_mantissa.mpr ⟨whole, _, hwhole, hfraction, hne, .inr rfl⟩, _, hx, ?_⟩
      rw [List.append_assoc, List.cons_append, ← hrest, htext]

theorem isSome_read?_iff_mem : (read? text).isSome = true ↔ text ∈ numeral := by
  rw [numeral, mem_sign_mul fun t ht ↦ splitSign_of_mem_mantissa_mul ht,
    mem_mantissa_mul_exponent, ← isSome_readExponent?_iff]
  simp only [read?, ← List.isEmpty_iff, ← Bool.and_eq_true]
  split <;> simp_all

theorem isNumeralChar_of_mem_numeral (h : text ∈ numeral) : ∀ c ∈ text, isNumeralChar c = true := by
  obtain ⟨n, hn⟩ := Option.isSome_iff_exists.mp (isSome_read?_iff_mem.mpr h)
  exact isNumeralChar_of_read? hn

end Grammar

end Numeral

/-! ## Texts as numbers -/

namespace Number

open Numeral

def infinityNames : List (List Char) := ["Infinity", "+Infinity", "-Infinity"].map String.toList

/-- The core of a text that is a number. -/
def IsNumberCore (core : List Char) : Prop :=
  core = [] ∨ core ∈ infinityNames ∨ core ∈ Grammar.numeral

theorem isNaN_ofText_iff (text : String) :
    (ofText text).isNaN = false ↔ IsNumberCore (trimBlanks text.toList) := by
  rw [ofText]
  generalize trimBlanks text.toList = core
  have hcore {word : String} (h : String.ofList core = word) : core = word.toList := by
    rw [← h, String.toList_ofList]
  split
  · rename_i h
    exact iff_of_true (by decide +kernel) (.inl (hcore h))
  · rename_i h
    exact iff_of_true (isNaN_ofParts false (Nat.le_refl _)) (.inr (.inl (hcore h ▸ by decide)))
  · rename_i h
    exact iff_of_true (isNaN_ofParts false (Nat.le_refl _)) (.inr (.inl (hcore h ▸ by decide)))
  · rename_i h
    have hnegative : -infinity = ofParts true Binary64.infinity := neg_ofParts false (Nat.le_refl _)
    rw [hnegative]
    exact iff_of_true (isNaN_ofParts true (Nat.le_refl _)) (.inr (.inl (hcore h ▸ by decide)))
  · rename_i hempty hplain hplus hminus
    have hnames : ¬ (core = [] ∨ core ∈ infinityNames) := by
      have hne {word : String} (h : String.ofList core ≠ word) : core ≠ word.toList := by
        rintro rfl
        exact h String.ofList_toList
      simp only [infinityNames, List.map_cons, List.map_nil, List.mem_cons, List.not_mem_nil,
        or_false, not_or]
      exact ⟨hne hempty, hne hplain, hne hplus, hne hminus⟩
    rw [String.toList_ofList, IsNumberCore, ← or_assoc, or_iff_right hnames,
      ← Grammar.isSome_read?_iff_mem]
    rw [ofCore_eq]
    rcases read? core with _ | n
    · exact iff_of_false (by decide +kernel) Bool.false_ne_true
    · exact iff_of_true (isNaN_ofNumeral n) rfl

/-- With a character that numerals do not have, a text other than the names of the infinities is no
number. -/
theorem isNaN_of_foreign {text : String} {core : List Char} (h : TrimsTo text.toList core)
    (hnames : core ∉ infinityNames) {c : Char} (hc : c ∈ core)
    (hforeign : isNumeralChar c = false) : (ofText text).isNaN = true := by
  rw [← Bool.not_eq_false, isNaN_ofText_iff, h.trimBlanks_eq]
  rintro (rfl | hname | hnumeral)
  · cases hc
  · exact hnames hname
  · rw [Grammar.isNumeralChar_of_mem_numeral hnumeral c hc] at hforeign
    cases hforeign

/-- A text is a number if its core, without the blanks at either end, is empty, names an infinity or
is a numeral. So the other words for infinities and for what is no number are none, in small or
capital letters, and neither are hexadecimal numerals and numerals with blanks in them. -/
theorem text_is_number_iff_core (text : String) :
    (∃! core, TrimsTo text.toList core) ∧
    ((ofText text).isNaN = false ↔ ∃ core, TrimsTo text.toList core ∧
      (core = [] ∨ core ∈ infinityNames ∨ core ∈ Grammar.numeral)) ∧
    ∀ core, TrimsTo text.toList core → core ∉ infinityNames →
      (∃ sign ∈ Grammar.sign, ∃ word ∈ ["inf", "infinity", "nan"],
        core.map Char.toLower = sign ++ word.toList) ∨
      (∃ sign ∈ Grammar.sign, ∃ x rest, (x = 'x' ∨ x = 'X') ∧ core = sign ++ '0' :: x :: rest) ∨
      (∃ c ∈ core, isBlank c = true) →
      (ofText text).isNaN = true := by
  refine ⟨⟨_, trimsTo_trimBlanks _, fun core h ↦ h.trimBlanks_eq.symm⟩, ?_, ?_⟩
  · rw [isNaN_ofText_iff]
    constructor
    · exact fun h ↦ ⟨_, trimsTo_trimBlanks _, h⟩
    · rintro ⟨core, htrims, h⟩
      rw [htrims.trimBlanks_eq]
      exact h
  · rintro core htrims hnames (⟨sign, -, word, hword, hcore⟩ | ⟨sign, -, x, rest, hx, rfl⟩ |
      ⟨c, hc, hblank⟩)
    · have hwords : ∀ word ∈ ["inf", "infinity", "nan"], 'n' ∈ word.toList := by decide
      have hmem : 'n' ∈ core.map Char.toLower := by
        rw [hcore]
        exact List.mem_append_right _ (hwords word hword)
      obtain ⟨c, hc, hlower⟩ := List.mem_map.mp hmem
      exact isNaN_of_foreign htrims hnames hc (isNumeralChar_eq_false_of_toLower hlower)
    · have hletter : isNumeralChar x = false := by rcases hx with rfl | rfl <;> decide
      exact isNaN_of_foreign htrims hnames (by simp) hletter
    · refine isNaN_of_foreign htrims hnames hc (Bool.eq_false_iff.mpr fun hchar ↦ ?_)
      rw [isBlank_of_isNumeralChar hchar] at hblank
      cases hblank

/-- Three texts that begin like numbers or names of infinities, with blanks around one of them. -/
theorem capitals_and_hexadecimals_are_no_numbers :
    TrimsTo "\t-INFINITY ".toList "-INFINITY".toList ∧ (ofText "\t-INFINITY ").isNaN = true ∧
      TrimsTo "0x1F".toList "0x1F".toList ∧ (ofText "0x1F").isNaN = true ∧
      TrimsTo "1 2".toList "1 2".toList ∧ (ofText "1 2").isNaN = true := by
  have hword : TrimsTo "\t-INFINITY ".toList "-INFINITY".toList := trimsTo_iff.mpr (by decide)
  have hhexadecimal : TrimsTo "0x1F".toList "0x1F".toList := trimsTo_iff.mpr (by decide)
  have hinner : TrimsTo "1 2".toList "1 2".toList := trimsTo_iff.mpr (by decide)
  refine ⟨hword, ?_, hhexadecimal, ?_, hinner, ?_⟩
  · exact (text_is_number_iff_core _).2.2 _ hword (by decide)
      (.inl ⟨['-'], Grammar.mem_sign.mpr (by decide), "infinity", by decide, by decide⟩)
  · exact (text_is_number_iff_core _).2.2 _ hhexadecimal (by decide)
      (.inr (.inl ⟨[], Grammar.mem_sign.mpr (by decide), 'x', ['1', 'F'], .inl rfl, rfl⟩))
  · exact (text_is_number_iff_core _).2.2 _ hinner (by decide)
      (.inr (.inr ⟨' ', by decide, by decide⟩))

end Number

end Scriptlet
