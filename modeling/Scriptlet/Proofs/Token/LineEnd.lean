import Scriptlet.Proofs.Token.Munch

/-!
# Scanning behind a line end

A line end refuses to belong to any token but an open string. So a text that ends outside strings
can be followed by a line end and a second text, and the scanner finds the tokens of the first and
then those of the second, a few lines further down.

The state of the scanner behind the line end is its initial state, except for the line and for the
tokens that have been found. Reading a character respects such a difference (`Scan.step_behind`),
and so does reading a text.
-/

namespace Scriptlet

/-- The token `k` lines further down. -/
def Token.lower (k : Nat) (t : Token) : Token := { t with line := t.line + k }

def Pending.lower (k : Nat) : Pending → Pending
  | .quoted quote opened text => .quoted quote (opened + k) text
  | piece => piece

def ScanError.lower (k : Nat) : ScanError → ScanError
  | unterminatedString quote line => unterminatedString quote (line + k)

/-- What comes of a text that stands `k` lines further down, behind the given tokens. -/
def outcomeBehind (k : Nat) (before : List Token) :
    Except ScanError (List Token) → Except ScanError (List Token)
  | .ok tokens => .ok (before ++ tokens.map (Token.lower k))
  | .error e => .error (e.lower k)

def Uptake.lower (k : Nat) : Uptake → Uptake
  | .grown piece => .grown (piece.lower k)
  | uptake => uptake

namespace Pending

theorem offer_lower (piece : Pending) (k : Nat) (c : Char) :
    (piece.lower k).offer c = (piece.offer c).lower k := by
  cases piece with
  | gap => rfl
  | whole text =>
    show (whole text).offer c = ((whole text).offer c).lower k
    rw [offer]
    split
    · rfl
    split <;> rfl
  | fraction text =>
    show (fraction text).offer c = ((fraction text).offer c).lower k
    rw [offer]
    split <;> rfl
  | word text =>
    show (word text).offer c = ((word text).offer c).lower k
    rw [offer]
    split <;> rfl
  | symbol first =>
    show (symbol first).offer c = ((symbol first).offer c).lower k
    rw [offer]
    split <;> rfl
  | quoted quote opened text =>
    rw [lower, offer, offer]
    split <;> rfl

theorem start_add (line k : Nat) (c : Char) : start (line + k) c = (start line c).lower k := by
  unfold start
  split
  · rfl
  split
  · rfl
  split
  · rfl
  split <;> rfl

theorem settle_lower (piece : Pending) (line k : Nat) :
    (piece.lower k).settle (line + k) = (piece.settle line).map (Token.lower k) := by
  cases piece <;> rfl

/-- Line ends and quotes belong to no token but a string. -/
theorem offer_refused {piece : Pending}
    (h : ∀ quote opened text, piece ≠ .quoted quote opened text) {c : Char}
    (hc : c = '\n' ∨ isQuote c = true) : piece.offer c = .refused := by
  rw [isQuote_iff] at hc
  cases piece with
  | gap | whole text | fraction text | word text => rcases hc with rfl | rfl | rfl <;> rfl
  | symbol first =>
    have hpair : TokenKind.ofPair? first c = none := by
      rcases hc with rfl | rfl | rfl <;> simp [TokenKind.ofPair?]
    rw [offer, hpair]
  | quoted quote opened text => exact absurd rfl (h quote opened text)

end Pending

namespace Scan

/-- The state `k` lines further down, with tokens found before. -/
def behind (k : Nat) (before : List Token) (s : Scan) : Scan where
  line := s.line + k
  pending := s.pending.lower k
  found := s.found.map (Token.lower k) ++ before

variable {s : Scan}

theorem lineAfter_add (line k : Nat) (c : Char) :
    lineAfter (line + k) c = lineAfter line c + k := by
  unfold lineAfter
  split
  · exact Nat.add_right_comm line k 1
  · rfl

theorem step_behind (k : Nat) (before : List Token) (s : Scan) (c : Char) :
    (s.behind k before).step c = (s.step c).behind k before := by
  have hoffer : (s.behind k before).pending.offer c = (s.pending.offer c).lower k :=
    s.pending.offer_lower k c
  rw [step, step, hoffer]
  cases s.pending.offer c with
  | grown piece =>
    simp only [Uptake.lower, behind, lineAfter_add]
  | closed kind lexeme => rfl
  | refused =>
    simp only [Uptake.lower, behind, lineAfter_add, Pending.start_add, Pending.settle_lower,
      List.map_append, List.append_assoc]

theorem steps_behind (k : Nat) (before : List Token) (s : Scan) (text : List Char) :
    (s.behind k before).steps text = (s.steps text).behind k before := by
  induction text generalizing s with
  | nil => rfl
  | cons c text ih => rw [steps_cons, steps_cons, step_behind, ih]

theorem closed_of_finish {ts : List Token} (h : s.finish = .ok ts) : s.Closed := by
  intro quote opened text hquoted
  rw [finish, hquoted] at h
  cases h

theorem finish_behind (k : Nat) (before : List Token) (s : Scan) :
    (s.behind k before).finish = outcomeBehind k before.reverse s.finish := by
  obtain ⟨line, pending, found⟩ := s
  cases pending with
  | quoted quote opened text => rfl
  | gap | whole text | fraction text | word text | symbol first =>
    simp only [finish, behind, Pending.lower, Pending.settle, outcomeBehind, Token.lower,
      List.map_append, List.map_cons, List.map_nil, List.map_reverse, List.reverse_append,
      List.append_assoc]

/-- Behind a line end the scanner starts anew. -/
theorem step_newline {ts : List Token} (h : s.finish = .ok ts) :
    s.step '\n' = behind s.line ts.reverse {} := by
  have hclosed := closed_of_finish h
  rw [finish_of_closed hclosed] at h
  cases h
  rw [step, Pending.offer_refused hclosed (.inl rfl), List.reverse_reverse]
  simp only [behind, lineAfter, if_true, Nat.add_comm 1]
  rfl

end Scan

/-- Behind a text with tokens and a line end a second text is scanned as it is alone, on lines
further down. -/
theorem tokenize_append_newline {a : String} {ta : List Token} (ha : tokenize a = .ok ta)
    (b : String) :
    tokenize (a ++ "\n" ++ b) = outcomeBehind (Scan.steps {} a.toList).line ta (tokenize b) := by
  have hchars : (a ++ "\n" ++ b).toList = a.toList ++ '\n' :: b.toList := by
    rw [String.toList_append, String.toList_append, List.append_assoc]
    rfl
  rw [tokenize, hchars, Scan.steps_append, Scan.steps_cons, Scan.step_newline ha,
    Scan.steps_behind, Scan.finish_behind, List.reverse_reverse, tokenize]

/-- The tokens of two texts with a line end between them are those of the first and those of the
second, lines aside. -/
theorem tokenize_newline {a b : String} {ta tb : List Token} (ha : tokenize a = .ok ta)
    (hb : tokenize b = .ok tb) :
    ∃ k, tokenize (a ++ "\n" ++ b) = .ok (ta ++ tb.map (Token.lower k)) := by
  refine ⟨(Scan.steps {} a.toList).line, ?_⟩
  rw [tokenize_append_newline ha, hb, outcomeBehind]

end Scriptlet
