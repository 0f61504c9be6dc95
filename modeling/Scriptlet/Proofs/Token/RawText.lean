import Scriptlet.Token.Scan

/-!
# Written forms of tokens

How tokens are written, said without the machine that finds them. `RawText kind lexeme raw` says
that `raw` is how a token with this kind and text is written; only strings are written otherwise
than their text. `Extends kind raw c` says that the character `c` directly behind the written form
could still belong to it.

The main statement is `exists_raw`: a text that does not begin with a gap begins with a written
form that the next character does not extend, unless it opens a string that is never closed.
-/

namespace Scriptlet

/-! ## Written forms -/

namespace TokenKind

def keywords : List TokenKind :=
  [keyLet, keyFunction, keyReturn, keyIf, keyElse, keyElif, keyTrue, keyFalse]

def symbols : List TokenKind :=
  [plus, minus, star, slash, bang, assign, less, greater, lessEqual, greaterEqual, equalEqual,
    bangEqual, doublePipe, doubleAmpersand, comma, semicolon, leftParen, rightParen, leftBrace,
    rightBrace, leftBracket, rightBracket]

end TokenKind

/-- Digits, and perhaps a point with more digits behind it. -/
def IsNumberText (raw : List Char) : Prop :=
  ∃ whole, whole ≠ [] ∧ (∀ c ∈ whole, c.isDigit = true) ∧
    (raw = whole ∨ ∃ fraction, (∀ c ∈ fraction, c.isDigit = true) ∧ raw = whole ++ '.' :: fraction)

/-- A letter or underscore, and then letters, digits and underscores. -/
def IsWordText : List Char → Prop
  | [] => False
  | c :: rest => startsWord c = true ∧ ∀ d ∈ rest, continuesWord d = true

instance : DecidablePred IsWordText
  | [] => inferInstanceAs (Decidable False)
  | c :: rest =>
    decidable_of_decidable_of_iff (p := startsWord c = true ∧ rest.all continuesWord = true)
      (by rw [List.all_eq_true]; rfl)

/-- How a token is written. -/
inductive RawText : TokenKind → String → List Char → Prop
  | string {quote : Char} {inner : List Char} (hquote : isQuote quote = true)
      (hinner : quote ∉ inner) :
      RawText .string (String.ofList inner) (quote :: (inner ++ [quote]))
  | number {raw : List Char} (h : IsNumberText raw) : RawText .number (String.ofList raw) raw
  | keyword {kind : TokenKind} {word : String} (hkind : kind ∈ TokenKind.keywords)
      (hword : kind.spelling? = some word) : RawText kind word word.toList
  | identifier {raw : List Char} (h : IsWordText raw)
      (hkey : ∀ kind ∈ TokenKind.keywords, kind.spelling? ≠ some (String.ofList raw)) :
      RawText .identifier (String.ofList raw) raw
  | symbol {kind : TokenKind} {spelling : String} (hkind : kind ∈ TokenKind.symbols)
      (hspelling : kind.spelling? = some spelling) : RawText kind spelling spelling.toList
  | other {c : Char} (hgap : isGap c = false) (hquote : isQuote c = false)
      (hdigit : c.isDigit = false) (hword : startsWord c = false)
      (hsymbol : ∀ kind ∈ TokenKind.symbols, kind.spelling? ≠ some (String.ofList [c])) :
      RawText .other (String.ofList [c]) [c]

/-- The character directly behind the written form could belong to it. -/
def Extends (kind : TokenKind) (raw : List Char) (c : Char) : Prop :=
  match kind with
  | .number => c.isDigit = true ∨ c = '.' ∧ '.' ∉ raw
  | .less | .greater | .assign | .bang => c = '='
  | .other => (c = '|' ∨ c = '&') ∧ raw = [c]
  | kind => (kind = .identifier ∨ kind ∈ TokenKind.keywords) ∧ continuesWord c = true

/-! ## Characters -/

section Characters

variable {c : Char}

theorem isGap_iff : isGap c = true ↔ c = ' ' ∨ c = '\t' ∨ c = '\r' ∨ c = '\n' := by
  simp [isGap, or_assoc]

theorem isQuote_iff : isQuote c = true ↔ c = '"' ∨ c = '\'' := by
  simp [isQuote]

theorem continuesWord_of_isDigit (h : c.isDigit = true) : continuesWord c = true := by
  simp [continuesWord, Char.isAlphanum, h]

theorem continuesWord_of_startsWord (h : startsWord c = true) : continuesWord c = true := by
  simp only [startsWord, Bool.or_eq_true, decide_eq_true_eq] at h
  rcases h with h | h
  · simp [continuesWord, Char.isAlphanum, h]
  · simp [continuesWord, h]

theorem isGap_of_continuesWord (h : continuesWord c = true) : isGap c = false := by
  rw [Bool.eq_false_iff]
  intro hgap
  rcases isGap_iff.mp hgap with rfl | rfl | rfl | rfl <;> revert h <;> decide

theorem isQuote_of_continuesWord (h : continuesWord c = true) : isQuote c = false := by
  rw [Bool.eq_false_iff]
  intro hquote
  rcases isQuote_iff.mp hquote with rfl | rfl <;> revert h <;> decide

theorem isDigit_of_startsWord (h : startsWord c = true) : c.isDigit = false := by
  have hranges : (decide (c.val ≥ 'A'.val ∧ c.val ≤ 'Z'.val) ||
      decide (c.val ≥ 'a'.val) && decide (c.val ≤ 'z'.val) || decide (c = '_')) = true := h
  simp only [Bool.or_eq_true, Bool.and_eq_true, decide_eq_true_eq] at hranges
  simp only [Char.isDigit, Bool.and_eq_false_iff, decide_eq_false_iff_not]
  rcases hranges with (hupper | hlower) | rfl
  · grind
  · grind
  · decide

theorem not_extends_of_isGap {kind : TokenKind} {raw : List Char} (h : isGap c = true) :
    ¬ Extends kind raw c := by
  rw [isGap_iff] at h
  have hword : continuesWord c = false := by
    rcases h with rfl | rfl | rfl | rfl <;> decide
  have hdigit : c.isDigit = false := by
    rcases h with rfl | rfl | rfl | rfl <;> decide
  have hothers : c ≠ '.' ∧ c ≠ '=' ∧ c ≠ '|' ∧ c ≠ '&' := by
    rcases h with rfl | rfl | rfl | rfl <;> decide
  unfold Extends
  split <;> simp [hword, hdigit, hothers]

theorem extends_word_iff {kind : TokenKind} {raw : List Char}
    (h : kind = .identifier ∨ kind ∈ TokenKind.keywords) :
    Extends kind raw c ↔ continuesWord c = true := by
  simp only [TokenKind.keywords, List.mem_cons, List.not_mem_nil, or_false] at h
  rcases h with rfl | rfl | rfl | rfl | rfl | rfl | rfl | rfl | rfl <;>
    simp [Extends, TokenKind.keywords]

end Characters

/-! ## Spellings

The tables that recognise words and symbols undo `TokenKind.spelling?`. -/

/-- The character starts a piece of one symbol. -/
def IsPlain (c : Char) : Prop :=
  isGap c = false ∧ isQuote c = false ∧ c.isDigit = false ∧ startsWord c = false

instance (c : Char) : Decidable (IsPlain c) := inferInstanceAs (Decidable (_ ∧ _ ∧ _ ∧ _))

/-- The characters are one or two, and the tables of symbols lead from them to the kind. -/
def SpellsSymbol (kind : TokenKind) : List Char → Prop
  | [c] => IsPlain c ∧ TokenKind.ofSymbol c = kind
  | [c, d] => IsPlain c ∧ TokenKind.ofPair? c d = some kind
  | _ => False

instance (kind : TokenKind) : DecidablePred (SpellsSymbol kind)
  | [] => isFalse id
  | [_] => inferInstanceAs (Decidable (_ ∧ _))
  | [_, _] => inferInstanceAs (Decidable (_ ∧ _))
  | _ :: _ :: _ :: _ => isFalse id

/-- The tables of symbols lead back from the spelling of a symbol to its kind. -/
theorem symbol_cases {kind : TokenKind} {spelling : String} (hkind : kind ∈ TokenKind.symbols)
    (hspelling : kind.spelling? = some spelling) :
    (∃ c, spelling.toList = [c] ∧ IsPlain c ∧ TokenKind.ofSymbol c = kind) ∨
      ∃ c d, spelling.toList = [c, d] ∧ IsPlain c ∧ TokenKind.ofPair? c d = some kind := by
  have htable : ∀ kind ∈ TokenKind.symbols, ∀ spelling ∈ kind.spelling?,
      SpellsSymbol kind spelling.toList := by
    decide +kernel
  have h := htable kind hkind spelling hspelling
  rcases hchars : spelling.toList with _ | ⟨c, _ | ⟨d, _ | ⟨e, rest⟩⟩⟩
  · rw [hchars] at h
    exact h.elim
  · rw [hchars] at h
    exact Or.inl ⟨c, rfl, h⟩
  · rw [hchars] at h
    exact Or.inr ⟨c, d, rfl, h⟩
  · rw [hchars] at h
    exact h.elim

theorem ofSymbol_cases (c : Char) :
    TokenKind.ofSymbol c = .other ∨ TokenKind.ofSymbol c ∈ TokenKind.symbols ∧
      (TokenKind.ofSymbol c).spelling? = some (String.ofList [c]) := by
  unfold TokenKind.ofSymbol
  split
  case h_17 => exact Or.inl rfl
  all_goals exact Or.inr (by decide)

theorem ofPair?_mem {c d : Char} {kind : TokenKind} (h : TokenKind.ofPair? c d = some kind) :
    kind ∈ TokenKind.symbols ∧ kind.spelling? = some (String.ofList [c, d]) := by
  unfold TokenKind.ofPair? at h
  split at h <;> first | cases h; decide | cases h

theorem ofWord_of_spelling {kind : TokenKind} {word : String} (hkind : kind ∈ TokenKind.keywords)
    (hword : kind.spelling? = some word) :
    IsWordText word.toList ∧ TokenKind.ofWord word = kind := by
  have htable : ∀ kind ∈ TokenKind.keywords, ∀ word ∈ kind.spelling?,
      IsWordText word.toList ∧ TokenKind.ofWord word = kind := by
    decide
  exact htable kind hkind word hword

theorem ofWord_cases (word : String) :
    TokenKind.ofWord word ∈ TokenKind.keywords ∧ (TokenKind.ofWord word).spelling? = some word ∨
      TokenKind.ofWord word = .identifier ∧
        ∀ kind ∈ TokenKind.keywords, kind.spelling? ≠ some word := by
  by_cases hword : ∃ kind ∈ TokenKind.keywords, kind.spelling? = some word
  · obtain ⟨kind, hkind, hspelling⟩ := hword
    rw [(ofWord_of_spelling hkind hspelling).2]
    exact Or.inl ⟨hkind, hspelling⟩
  · have hnone : ∀ kind ∈ TokenKind.keywords, kind.spelling? ≠ some word :=
      fun kind hkind hspelling ↦ hword ⟨kind, hkind, hspelling⟩
    refine Or.inr ⟨?_, hnone⟩
    unfold TokenKind.ofWord
    split
    case h_9 => rfl
    all_goals exact absurd hnone (by decide)

theorem extends_symbol_iff (c d : Char) :
    Extends (TokenKind.ofSymbol c) [c] d ↔ TokenKind.ofPair? c d ≠ none := by
  constructor
  · intro h
    unfold TokenKind.ofSymbol at h
    split at h <;> simp only [Extends, TokenKind.keywords, List.mem_cons, List.not_mem_nil,
      reduceCtorEq, or_self, false_and, List.cons.injEq, and_true] at h
    case h_17 =>
      obtain ⟨rfl | rfl, rfl⟩ := h <;> decide
    all_goals
      subst h
      decide
  · intro h
    unfold TokenKind.ofPair? at h
    split at h
    case h_7 => exact absurd rfl h
    all_goals simp [TokenKind.ofSymbol, Extends]

/-! ## What a text begins with -/

theorem IsWordText.exists_head {raw : List Char} (h : IsWordText raw) :
    ∃ c rest, raw = c :: rest ∧ isGap c = false := by
  rcases raw with _ | ⟨c, rest⟩
  · exact h.elim
  · exact ⟨c, rest, rfl, isGap_of_continuesWord (continuesWord_of_startsWord h.1)⟩

namespace RawText

variable {kind : TokenKind} {lexeme : String} {raw : List Char}

/-- Only strings are written otherwise than their text. -/
theorem shape (h : RawText kind lexeme raw) :
    kind ≠ .string ∧ raw = lexeme.toList ∨
      kind = .string ∧ ∃ quote, isQuote quote = true ∧ quote ∉ lexeme.toList ∧
        raw = quote :: (lexeme.toList ++ [quote]) := by
  cases h with
  | @string quote inner hquote hinner =>
    rw [String.toList_ofList]
    exact Or.inr ⟨rfl, quote, hquote, hinner, rfl⟩
  | number h => exact Or.inl ⟨by decide, String.toList_ofList.symm⟩
  | keyword hkind hword =>
    refine Or.inl ⟨?_, rfl⟩
    rintro rfl
    exact absurd hkind (by decide)
  | identifier h hkey => exact Or.inl ⟨by decide, String.toList_ofList.symm⟩
  | symbol hkind hspelling =>
    refine Or.inl ⟨?_, rfl⟩
    rintro rfl
    exact absurd hkind (by decide)
  | other => exact Or.inl ⟨by decide, String.toList_ofList.symm⟩

theorem exists_head (h : RawText kind lexeme raw) :
    ∃ c rest, raw = c :: rest ∧ isGap c = false := by
  cases h with
  | @string quote inner hquote hinner =>
    refine ⟨quote, inner ++ [quote], rfl, ?_⟩
    rcases isQuote_iff.mp hquote with rfl | rfl <;> rfl
  | number h =>
    obtain ⟨whole, hne, hwhole, hraw⟩ := h
    obtain ⟨d, ds, rfl⟩ := List.exists_cons_of_ne_nil hne
    have hd : isGap d = false :=
      isGap_of_continuesWord (continuesWord_of_isDigit (hwhole d List.mem_cons_self))
    rcases hraw with rfl | ⟨fraction, -, rfl⟩
    · exact ⟨d, ds, rfl, hd⟩
    · exact ⟨d, ds ++ '.' :: fraction, rfl, hd⟩
  | keyword hkind hword => exact (ofWord_of_spelling hkind hword).1.exists_head
  | identifier h hkey => exact h.exists_head
  | symbol hkind hspelling =>
    rcases symbol_cases hkind hspelling with ⟨c, hc, hplain, -⟩ | ⟨c, d, hcd, hplain, -⟩
    · exact ⟨c, [], hc, hplain.1⟩
    · exact ⟨c, [d], hcd, hplain.1⟩
  | other hgap hquote hdigit hword hsymbol => exact ⟨_, [], rfl, hgap⟩

end RawText

/-- The longest run of characters with a property. -/
theorem exists_run (p : Char → Bool) (text : List Char) :
    ∃ run rest, text = run ++ rest ∧ (∀ c ∈ run, p c = true) ∧
      ∀ c, rest.head? = some c → p c = false := by
  refine ⟨text.takeWhile p, text.dropWhile p, List.takeWhile_append_dropWhile.symm,
    List.all_eq_true.mp List.all_takeWhile, fun c hc ↦ ?_⟩
  have hstop := List.head?_dropWhile_not p text
  rw [hc] at hstop
  exact hstop

/-- The text begins with the longest written form that begins like it. -/
def BeginsWithToken (text : List Char) : Prop :=
  ∃ kind lexeme raw rest, text = raw ++ rest ∧ RawText kind lexeme raw ∧
    ∀ c, rest.head? = some c → ¬ Extends kind raw c

section First

variable {c : Char} {text : List Char}

theorem beginsWithToken_of_quote (hquote : isQuote c = true) (hclose : c ∈ text) :
    BeginsWithToken (c :: text) := by
  obtain ⟨inner, rest, rfl, hinner⟩ := List.eq_append_cons_of_mem hclose
  refine ⟨.string, _, c :: (inner ++ [c]), rest, by simp, .string hquote hinner, fun d _ ↦ ?_⟩
  simp [Extends, TokenKind.keywords]

theorem beginsWithToken_of_digit (hdigit : c.isDigit = true) : BeginsWithToken (c :: text) := by
  obtain ⟨ds, rest, rfl, hds, hrest⟩ := exists_run Char.isDigit text
  have hwhole : ∀ d ∈ c :: ds, d.isDigit = true := List.forall_mem_cons.mpr ⟨hdigit, hds⟩
  by_cases hpoint : rest.head? = some '.'
  · obtain ⟨rest', rfl⟩ := List.head?_eq_some_iff.mp hpoint
    obtain ⟨fs, rest, rfl, hfs, hrest⟩ := exists_run Char.isDigit rest'
    refine ⟨.number, _, (c :: ds) ++ '.' :: fs, rest, by simp,
      .number ⟨c :: ds, List.cons_ne_nil c ds, hwhole, Or.inr ⟨fs, hfs, rfl⟩⟩, fun d hd ↦ ?_⟩
    simp [Extends, hrest d hd]
  · refine ⟨.number, _, c :: ds, rest, rfl,
      .number ⟨c :: ds, List.cons_ne_nil c ds, hwhole, Or.inl rfl⟩, fun d hd ↦ ?_⟩
    have hdot : d ≠ '.' := fun heq ↦ hpoint (heq ▸ hd)
    simp [Extends, hrest d hd, hdot]

theorem beginsWithToken_of_word (hword : startsWord c = true) : BeginsWithToken (c :: text) := by
  obtain ⟨cs, rest, rfl, hcs, hrest⟩ := exists_run continuesWord text
  have hshape : IsWordText (c :: cs) := ⟨hword, hcs⟩
  rcases ofWord_cases (String.ofList (c :: cs)) with ⟨hkind, hspelling⟩ | ⟨-, hkey⟩
  · have hraw := RawText.keyword hkind hspelling
    rw [String.toList_ofList] at hraw
    refine ⟨_, _, c :: cs, rest, rfl, hraw, fun d hd ↦ ?_⟩
    rw [extends_word_iff (Or.inr hkind), hrest d hd]
    exact Bool.false_ne_true
  · refine ⟨_, _, c :: cs, rest, rfl, .identifier hshape hkey, fun d hd ↦ ?_⟩
    rw [extends_word_iff (Or.inl rfl), hrest d hd]
    exact Bool.false_ne_true

theorem not_extends_pair {d e : Char} {kind : TokenKind} (h : TokenKind.ofPair? c d = some kind)
    (raw : List Char) : ¬ Extends kind raw e := by
  unfold TokenKind.ofPair? at h
  split at h <;> cases h <;> simp [Extends, TokenKind.keywords]

theorem beginsWithToken_of_plain (hc : IsPlain c) : BeginsWithToken (c :: text) := by
  have hraw : RawText (TokenKind.ofSymbol c) (String.ofList [c]) [c] := by
    rcases ofSymbol_cases c with hother | ⟨hkind, hspelling⟩
    · rw [hother]
      refine .other hc.1 hc.2.1 hc.2.2.1 hc.2.2.2 fun kind hkind hspelling ↦ ?_
      -- a symbol that is spelled by the character would be the one that the table gives
      rcases symbol_cases hkind hspelling with ⟨d, hd, -, rfl⟩ | ⟨d, e, hde, -⟩
      · rw [String.toList_ofList, List.cons.injEq] at hd
        rw [← hd.1, hother] at hkind
        exact absurd hkind (by decide)
      · simp at hde
    · have hraw := RawText.symbol hkind hspelling
      rwa [String.toList_ofList] at hraw
  by_cases hpair : ∃ d, text.head? = some d ∧ TokenKind.ofPair? c d ≠ none
  · obtain ⟨d, hd, hpair⟩ := hpair
    obtain ⟨kind, hkind⟩ := Option.ne_none_iff_exists'.mp hpair
    obtain ⟨rest, rfl⟩ := List.head?_eq_some_iff.mp hd
    obtain ⟨hmem, hspelling⟩ := ofPair?_mem hkind
    have hraw := RawText.symbol hmem hspelling
    rw [String.toList_ofList] at hraw
    exact ⟨_, _, [c, d], rest, rfl, hraw, fun e _ ↦ not_extends_pair hkind _⟩
  · refine ⟨_, _, [c], text, rfl, hraw, fun d hd hextends ↦ ?_⟩
    exact hpair ⟨d, hd, (extends_symbol_iff c d).mp hextends⟩

/-- A text that begins with no gap begins with a token, unless it opens a string that is never
closed. -/
theorem exists_raw (text : List Char) (hgap : isGap c = false) :
    BeginsWithToken (c :: text) ∨ isQuote c = true ∧ c ∉ text := by
  by_cases hquote : isQuote c = true
  · by_cases hclose : c ∈ text
    · exact Or.inl (beginsWithToken_of_quote hquote hclose)
    · exact Or.inr ⟨hquote, hclose⟩
  · left
    by_cases hdigit : c.isDigit = true
    · exact beginsWithToken_of_digit hdigit
    · by_cases hword : startsWord c = true
      · exact beginsWithToken_of_word hword
      · rw [Bool.not_eq_true] at hquote hdigit hword
        exact beginsWithToken_of_plain ⟨hgap, hquote, hdigit, hword⟩

end First

end Scriptlet
