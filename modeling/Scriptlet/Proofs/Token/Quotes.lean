import Mathlib.Computability.DFA
import Scriptlet.Proofs.Token.LineEnd

/-!
# Open quotes

A text has tokens unless it ends inside a string, and whether it does can be told from its quotes
alone. `quotes` is the automaton that looks at nothing else: outside strings either quote opens one,
and inside a string only the same quote closes it.

## The invariant

`Scan.Follows` is what the scanner knows of the text it has read: the line it is on counts the line
ends of the text, it has a string open exactly if the automaton is inside one, and an open string
remembers the line that its quote stands on. Numbers, words and symbols refuse quotes and line ends,
so that a character which they take moves neither the automaton nor the count of lines.
-/

namespace Scriptlet

/-! ## The automaton -/

/-- Where a text ends, going by its quotes. -/
inductive QuoteState where
  | outside
  /-- In a string with double quotes. -/
  | double
  /-- In a string with single quotes. -/
  | single
deriving DecidableEq, Repr

namespace QuoteState

/-- The quote that closes the string. -/
def quote? : QuoteState → Option Char
  | outside => none
  | double => some '"'
  | single => some '\''

/-- A quote opens a string or closes the one it has opened, and every other character leaves the
state as it is. -/
def next : QuoteState → Char → QuoteState
  | outside, '"' => double
  | outside, '\'' => single
  | double, '"' => outside
  | single, '\'' => outside
  | state, _ => state

variable {state : QuoteState} {quote c : Char}

theorem quote?_next_outside (hc : isQuote c = true) : (next outside c).quote? = some c := by
  rcases isQuote_iff.mp hc with rfl | rfl <;> rfl

theorem next_outside (hc : isQuote c = false) : next outside c = outside := by
  obtain ⟨hdouble, hsingle⟩ : c ≠ '"' ∧ c ≠ '\'' := by simpa [isQuote] using hc
  simp [next, hdouble, hsingle]

theorem next_quote (h : state.quote? = some quote) : next state quote = outside := by
  cases state <;> cases h <;> rfl

theorem next_of_ne (h : state.quote? = some quote) (hc : c ≠ quote) : next state c = state := by
  cases state <;> cases h <;> simp [next, hc]

theorem isQuote_of_quote? (h : state.quote? = some quote) : isQuote quote = true := by
  cases state <;> cases h <;> rfl

end QuoteState

/-- The automaton of quotes. It accepts the texts that end outside strings. -/
def quotes : DFA Char QuoteState where
  step := QuoteState.next
  start := .outside
  accept := {.outside}

/-- The quote behind `before` opens a string that is still open behind `inner`. -/
structure Opens (before : List Char) (quote : Char) (inner : List Char) : Prop where
  outside : quotes.eval before = .outside
  inside : ∀ part, part <+: inner → (quotes.eval (before ++ quote :: part)).quote? = some quote

namespace Opens

variable {before inner : List Char} {quote c : Char}

theorem quote?_eval (h : Opens before quote inner) :
    (quotes.eval (before ++ quote :: inner)).quote? = some quote :=
  h.inside inner (List.prefix_refl inner)

theorem isQuote (h : Opens before quote inner) : isQuote quote = true :=
  QuoteState.isQuote_of_quote? h.quote?_eval

theorem nil (hbefore : quotes.eval before = .outside) (hquote : Scriptlet.isQuote quote = true) :
    Opens before quote [] := by
  refine ⟨hbefore, fun part hpart ↦ ?_⟩
  rw [List.prefix_nil.mp hpart, DFA.eval_append_singleton, hbefore]
  exact QuoteState.quote?_next_outside hquote

theorem concat (h : Opens before quote inner) (hc : c ≠ quote) :
    Opens before quote (inner ++ [c]) := by
  refine ⟨h.outside, fun part hpart ↦ ?_⟩
  rcases List.prefix_concat_iff.mp hpart with rfl | hpart
  · rw [← List.cons_append, ← List.append_assoc, DFA.eval_append_singleton]
    have hstay : quotes.step (quotes.eval (before ++ quote :: inner)) c
        = quotes.eval (before ++ quote :: inner) := QuoteState.next_of_ne h.quote?_eval hc
    rw [hstay, h.quote?_eval]
  · exact h.inside part hpart

/-- Only one quote of a text opens the string that the text ends in. -/
theorem before_eq {before' inner' : List Char} {quote' : Char} (h : Opens before quote inner)
    (h' : Opens before' quote' inner')
    (htext : before ++ quote :: inner = before' ++ quote' :: inner') : before = before' := by
  -- what stands behind an opening quote ends inside a string, and not outside as it does before one
  have hshorter {b b' i i' more : List Char} {q q' : Char} (h : Opens b q i) (h' : Opens b' q' i')
      (hb : b' = b ++ more) (hi : q :: i = more ++ q' :: i') : b = b' := by
    rcases more with _ | ⟨d, part⟩
    · rw [hb, List.append_nil]
    · obtain ⟨rfl, rfl⟩ := List.cons.inj hi
      have hinside := h.inside part (List.prefix_append _ _)
      rw [← hb, h'.outside] at hinside
      cases hinside
  rcases List.append_eq_append_iff.mp htext with ⟨more, hb, hi⟩ | ⟨more, hb, hi⟩
  · exact hshorter h h' hb hi
  · exact (hshorter h' h hb hi).symm

end Opens

/-! ## Quotes and line ends in the scanner -/

theorem ne_newline_of_isQuote {c : Char} (h : isQuote c = true) : c ≠ '\n' := by
  rintro rfl
  exact absurd h (by decide)

namespace Pending

variable {piece longer : Pending} {c : Char}

/-- What a token other than a string grows into is no string. -/
theorem not_quoted_of_grown (h : ∀ quote opened text, piece ≠ .quoted quote opened text)
    (hoffer : piece.offer c = .grown longer) :
    ∀ quote opened text, longer ≠ .quoted quote opened text := by
  rintro quote opened text rfl
  cases piece with
  | quoted quote opened text => exact h quote opened text rfl
  | gap => cases hoffer
  | whole text =>
    rw [offer] at hoffer
    split at hoffer
    · cases hoffer
    · split at hoffer <;> cases hoffer
  | fraction text | word text | symbol first =>
    rw [offer] at hoffer
    split at hoffer <;> cases hoffer

theorem not_quoted_start (line : Nat) (hc : isQuote c = false) :
    ∀ quote opened text, start line c ≠ .quoted quote opened text := by
  intro quote opened text
  unfold start
  rw [if_neg (Bool.eq_false_iff.mp hc)]
  split
  · exact Pending.noConfusion
  · split
    · exact Pending.noConfusion
    · split <;> exact Pending.noConfusion

theorem start_quote (line : Nat) (hc : isQuote c = true) : start line c = .quoted c line [] := by
  rcases isQuote_iff.mp hc with rfl | rfl <;> rfl

end Pending

namespace Scan

variable {s : Scan} {c quote : Char} {opened : Nat} {inner text : List Char}

theorem closed_or_quoted (s : Scan) :
    s.Closed ∨ ∃ quote opened inner, s.pending = .quoted quote opened inner := by
  by_cases h : ∃ quote opened inner, s.pending = .quoted quote opened inner
  · exact .inr h
  · exact .inl fun quote opened inner hs ↦ h ⟨quote, opened, inner, hs⟩

theorem step_quoted_self (hs : s.pending = .quoted quote opened inner) :
    (s.step quote).pending = .gap ∧ (s.step quote).line = s.line := by
  have hoffer : s.pending.offer quote = .closed .string (String.ofList inner.reverse) := by
    rw [hs, Pending.offer, if_pos rfl]
  rw [step, hoffer]
  exact ⟨rfl, rfl⟩

theorem step_quoted_ne (hs : s.pending = .quoted quote opened inner) (hc : c ≠ quote) :
    (s.step c).pending = .quoted quote opened (c :: inner) ∧
      (s.step c).line = lineAfter s.line c := by
  have hoffer : s.pending.offer c = .grown (.quoted quote opened (c :: inner)) := by
    rw [hs, Pending.offer, if_neg hc]
  rw [step, hoffer]
  exact ⟨rfl, rfl⟩

theorem step_closed_quote (hs : s.Closed) (hc : isQuote c = true) :
    (s.step c).pending = .quoted c s.line [] ∧ (s.step c).line = s.line := by
  rw [step, Pending.offer_refused hs (.inr hc)]
  exact ⟨Pending.start_quote s.line hc, if_neg (ne_newline_of_isQuote hc)⟩

theorem step_closed (hs : s.Closed) (hc : isQuote c = false) :
    (s.step c).Closed ∧ (s.step c).line = lineAfter s.line c := by
  rw [step]
  cases hoffer : s.pending.offer c with
  | grown piece => exact ⟨Pending.not_quoted_of_grown hs hoffer, rfl⟩
  | closed kind lexeme =>
    -- a line end completes no symbol
    have hne : c ≠ '\n' := by
      rintro rfl
      rw [Pending.offer_refused hs (.inl rfl)] at hoffer
      cases hoffer
    exact ⟨fun _ _ _ ↦ Pending.noConfusion, (if_neg hne).symm⟩
  | refused => exact ⟨Pending.not_quoted_start s.line hc, rfl⟩

/-! ## The invariant -/

/-- What the state knows of the text it has read. -/
structure Follows (s : Scan) (text : List Char) : Prop where
  line : s.line = 1 + text.count '\n'
  closed : s.Closed → quotes.eval text = .outside
  quoted : ∀ quote opened inner, s.pending = .quoted quote opened inner →
    ∃ before, text = before ++ quote :: inner.reverse ∧ Opens before quote inner.reverse ∧
      opened = 1 + before.count '\n'

theorem follows_nil : Follows {} [] where
  line := rfl
  closed _ := rfl
  quoted _ _ _ h := by cases h

theorem lineAfter_eq (text : List Char) (c : Char) :
    lineAfter (1 + text.count '\n') c = 1 + (text ++ [c]).count '\n' := by
  rw [List.count_append, List.count_singleton]
  unfold lineAfter
  by_cases hc : c = '\n' <;> simp [hc, Nat.add_assoc]

theorem Follows.step (h : s.Follows text) (c : Char) : (s.step c).Follows (text ++ [c]) := by
  have hsame (hc : c ≠ '\n') : s.line = 1 + (text ++ [c]).count '\n' := by
    rw [← lineAfter_eq, h.line, lineAfter, if_neg hc]
  have hnext : lineAfter s.line c = 1 + (text ++ [c]).count '\n' := by
    rw [h.line, lineAfter_eq]
  rcases s.closed_or_quoted with hs | ⟨quote, opened, inner, hs⟩
  · have houtside := h.closed hs
    by_cases hc : isQuote c = true
    · obtain ⟨hpending, hline⟩ := step_closed_quote hs hc
      refine ⟨hline.trans (hsame (ne_newline_of_isQuote hc)),
        fun hclosed ↦ absurd hpending (hclosed _ _ _), fun quote opened inner hquoted ↦ ?_⟩
      rw [hpending] at hquoted
      cases hquoted
      exact ⟨text, rfl, .nil houtside hc, h.line⟩
    · rw [Bool.not_eq_true] at hc
      obtain ⟨hclosed, hline⟩ := step_closed hs hc
      refine ⟨hline.trans hnext, fun _ ↦ ?_, fun quote opened inner hquoted ↦
        absurd hquoted (hclosed quote opened inner)⟩
      rw [DFA.eval_append_singleton, houtside]
      exact QuoteState.next_outside hc
  · obtain ⟨before, rfl, hopens, hopened⟩ := h.quoted quote opened inner hs
    by_cases hc : c = quote
    · subst hc
      obtain ⟨hpending, hline⟩ := step_quoted_self hs
      refine ⟨hline.trans (hsame (ne_newline_of_isQuote hopens.isQuote)), fun _ ↦ ?_,
        fun quote opened inner hquoted ↦ ?_⟩
      · rw [DFA.eval_append_singleton]
        exact QuoteState.next_quote hopens.quote?_eval
      · rw [hpending] at hquoted
        cases hquoted
    · obtain ⟨hpending, hline⟩ := step_quoted_ne hs hc
      refine ⟨hline.trans hnext, fun hclosed ↦ absurd hpending (hclosed _ _ _),
        fun quote opened inner hquoted ↦ ?_⟩
      rw [hpending] at hquoted
      cases hquoted
      rw [List.reverse_cons]
      exact ⟨before, by rw [List.append_assoc, List.cons_append], hopens.concat hc, hopened⟩

theorem Follows.steps (h : s.Follows text) (more : List Char) :
    (s.steps more).Follows (text ++ more) := by
  induction more generalizing s text with
  | nil => rwa [List.append_nil]
  | cons c more ih =>
    have hrest := ih (h.step c)
    rwa [List.append_assoc] at hrest

end Scan

/-! ## Failure -/

theorem follows_source (source : String) :
    (Scan.steps {} source.toList).Follows source.toList :=
  Scan.follows_nil.steps source.toList

theorem opens_of_error {source : String} {e : ScanError} (h : tokenize source = .error e) :
    ∃ before quote inner, source.toList = before ++ quote :: inner ∧ Opens before quote inner ∧
      e = .unterminatedString quote (1 + before.count '\n') := by
  rcases (Scan.steps {} source.toList).closed_or_quoted with hs | ⟨quote, opened, inner, hs⟩
  · rw [tokenize, Scan.finish_of_closed hs] at h
    cases h
  · obtain ⟨before, htext, hopens, rfl⟩ := (follows_source source).quoted quote opened inner hs
    refine ⟨before, quote, inner.reverse, htext, hopens, ?_⟩
    rw [tokenize, Scan.finish, hs] at h
    exact (Except.error.inj h).symm

theorem eval_quotes_of_ok {source : String} {tokens : List Token}
    (h : tokenize source = .ok tokens) : quotes.eval source.toList = .outside :=
  (follows_source source).closed (Scan.closed_of_finish h)

/-- A text has no tokens exactly if its quotes leave it inside a string, and the error names the
quote that opens this string and the line it stands on. -/
theorem tokenize_fails_inside_quotes (source : String) :
    ((∃ e, tokenize source = .error e) ↔ quotes.eval source.toList ≠ .outside) ∧
    ∀ e, tokenize source = .error e ↔
      ∃ before quote inner, source.toList = before ++ quote :: inner ∧ Opens before quote inner ∧
        e = .unterminatedString quote (1 + before.count '\n') := by
  have hinside {before inner : List Char} {quote : Char}
      (htext : source.toList = before ++ quote :: inner) (hopens : Opens before quote inner) :
      quotes.eval source.toList ≠ .outside := by
    intro houtside
    have hquote := hopens.quote?_eval
    rw [← htext, houtside] at hquote
    cases hquote
  have hfails : (∃ e, tokenize source = .error e) ↔ quotes.eval source.toList ≠ .outside := by
    constructor
    · rintro ⟨e, he⟩
      obtain ⟨before, quote, inner, htext, hopens, -⟩ := opens_of_error he
      exact hinside htext hopens
    · intro hne
      cases h : tokenize source with
      | ok tokens => exact absurd (eval_quotes_of_ok h) hne
      | error e => exact ⟨e, rfl⟩
  refine ⟨hfails, fun e ↦ ⟨opens_of_error, ?_⟩⟩
  rintro ⟨before, quote, inner, htext, hopens, rfl⟩
  obtain ⟨e, he⟩ := hfails.mpr (hinside htext hopens)
  obtain ⟨before', quote', inner', htext', hopens', rfl⟩ := opens_of_error he
  have hsplit := htext.symm.trans htext'
  obtain rfl := hopens.before_eq hopens' hsplit
  obtain ⟨rfl, -⟩ := List.cons.inj (List.append_cancel_left hsplit)
  exact he

end Scriptlet
