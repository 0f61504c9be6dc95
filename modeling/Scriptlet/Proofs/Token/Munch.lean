import Mathlib.Data.List.Chain
import Scriptlet.Proofs.Token.RawText

/-!
# Maximal munch

The tokens of a text are what is left when the text is cut into written forms with gaps between
them, each of them as long as it can be.

## Cuts

A `Cut` is a gap followed by pieces, each a token with its written form and the gap behind it.
`Cut.Munches` is what makes it a decomposition into tokens: gaps are gaps, pieces are written forms,
and where no gap separates two pieces the second does not begin with a character that extends the
first.

## The correspondence

From a state in which nothing is pending, a written form leaves a state that amounts to one token
more and that refuses every character which does not extend the form (`Scan.steps_raw`). So a cut
is read piece by piece (`Scan.steps_cut`). In the other direction a text is cut from its beginning,
since what stands behind its first written form is a shorter text (`exists_cut`).
-/

namespace Scriptlet

/-! ## Cuts -/

/-- A token with its written form and the gap behind it. -/
structure Piece where
  kind : TokenKind
  lexeme : String
  raw : List Char
  gap : List Char

namespace Piece

def text (p : Piece) : List Char := p.raw ++ p.gap

def content (p : Piece) : TokenKind × String := (p.kind, p.lexeme)

/-- If no gap separates the pieces, the second does not begin with a character that extends the
first. -/
def Apart (p q : Piece) : Prop :=
  p.gap = [] → ∀ c, q.raw.head? = some c → ¬ Extends p.kind p.raw c

end Piece

/-- A text as a gap and pieces. -/
structure Cut where
  lead : List Char
  pieces : List Piece

namespace Cut

def text (cut : Cut) : List Char := cut.lead ++ cut.pieces.flatMap Piece.text

def contents (cut : Cut) : List (TokenKind × String) := cut.pieces.map Piece.content

/-- The cut is a decomposition into tokens that are all as long as they can be. -/
structure Munches (cut : Cut) : Prop where
  lead : ∀ c ∈ cut.lead, isGap c = true
  gaps : ∀ p ∈ cut.pieces, ∀ c ∈ p.gap, isGap c = true
  raws : ∀ p ∈ cut.pieces, RawText p.kind p.lexeme p.raw
  maximal : cut.pieces.IsChain Piece.Apart

end Cut

/-! ## The machine on written forms -/

namespace Scan

def contents (s : Scan) : List (TokenKind × String) :=
  (s.pending.settle s.line ++ s.found).reverse.map Token.content

/-- No string is open. -/
def Closed (s : Scan) : Prop := ∀ quote opened text, s.pending ≠ .quoted quote opened text

/-- The pending piece made a token. -/
def settled (s : Scan) : Scan :=
  { s with pending := .gap, found := s.pending.settle s.line ++ s.found }

variable {s : Scan} {c : Char}

@[simp]
theorem contents_settled (s : Scan) : s.settled.contents = s.contents := rfl

theorem finish_of_closed (h : s.Closed) :
    s.finish = .ok (s.pending.settle s.line ++ s.found).reverse := by
  unfold finish
  split
  · rename_i quote opened text hs
    exact absurd hs (h quote opened text)
  · rfl

/-- A character that the pending piece refuses is read as if the piece were settled. -/
theorem step_of_refused (h : s.pending.offer c = .refused) : s.step c = s.settled.step c := by
  rw [step, h]
  rfl

theorem step_of_gap (hs : s.pending = .gap) :
    s.step c = { s with line := lineAfter s.line c, pending := .start s.line c } := by
  rw [step, hs]
  rfl

theorem contents_of_gap (hs : s.pending = .gap) :
    s.contents = s.found.reverse.map Token.content := by
  rw [contents, hs, Pending.settle, List.nil_append]

/-- Gaps change nothing between tokens but the line. -/
theorem found_steps_gap {gap : List Char} (hgap : ∀ c ∈ gap, isGap c = true) :
    ∀ {s : Scan}, s.pending = .gap →
      (s.steps gap).pending = .gap ∧ (s.steps gap).found = s.found := by
  induction gap with
  | nil => exact fun hs ↦ ⟨hs, rfl⟩
  | cons c gap ih =>
    intro s hs
    have hc : isGap c = true := hgap c List.mem_cons_self
    have hstart : Pending.start s.line c = .gap := by simp [Pending.start, hc]
    have hstep : (s.step c).pending = .gap := by rw [step_of_gap hs, hstart]
    have hrest := ih (fun d hd ↦ hgap d (List.mem_cons_of_mem c hd)) hstep
    rw [steps_cons]
    refine ⟨hrest.1, hrest.2.trans ?_⟩
    rw [step_of_gap hs]

theorem steps_gap {gap : List Char} (hgap : ∀ c ∈ gap, isGap c = true) (hs : s.pending = .gap) :
    (s.steps gap).pending = .gap ∧ (s.steps gap).contents = s.contents := by
  obtain ⟨hpending, hfound⟩ := found_steps_gap hgap hs
  rw [contents_of_gap hpending, contents_of_gap hs, hfound]
  exact ⟨hpending, rfl⟩

/-- The state has the piece pending, and has found no token since `before`. -/
structure Holds (before after : Scan) (piece : Pending) : Prop where
  pending : after.pending = piece
  found : after.found = before.found

/-- The state amounts to one token more than `before`, which ends on the current line, and refuses
every character that does not extend the token. -/
structure Took (before after : Scan) (kind : TokenKind) (lexeme : String) (raw : List Char) :
    Prop where
  closed : after.Closed
  contents : after.contents = before.contents ++ [(kind, lexeme)]
  found : after.settled.found = ⟨kind, lexeme, after.line⟩ :: before.found
  refuses : ∀ c, ¬ Extends kind raw c → after.pending.offer c = .refused

theorem holds_start (hs : s.pending = .gap) (c : Char) :
    Holds s (s.step c) (.start s.line c) := by
  rw [step_of_gap hs]
  exact ⟨rfl, rfl⟩

namespace Holds

variable {before after : Scan}

theorem grow {piece longer : Pending} {c : Char} (h : Holds before after piece)
    (hoffer : piece.offer c = .grown longer) : Holds before (after.step c) longer := by
  have hstep : after.step c = { after with line := lineAfter after.line c, pending := longer } := by
    rw [step, h.pending, hoffer]
  rw [hstep]
  exact ⟨rfl, h.found⟩

theorem growAll {m : List Char → Pending} {p : Char → Prop}
    (hoffer : ∀ text c, p c → (m text).offer c = .grown (m (c :: text))) {cs : List Char}
    (hcs : ∀ c ∈ cs, p c) : ∀ {after : Scan} {text : List Char},
      Holds before after (m text) → Holds before (after.steps cs) (m (cs.reverse ++ text)) := by
  induction cs with
  | nil => exact fun h ↦ h
  | cons c cs ih =>
    intro after text h
    have hstep := h.grow (hoffer text c (hcs c List.mem_cons_self))
    have hrest := ih (fun d hd ↦ hcs d (List.mem_cons_of_mem c hd)) hstep
    rw [steps_cons, List.reverse_cons, List.append_assoc, List.singleton_append]
    exact hrest

theorem close {piece : Pending} {kind : TokenKind} {lexeme : String} {raw : List Char}
    (h : Holds before after piece) (hbefore : before.pending = .gap)
    (hoffer : piece.offer c = .closed kind lexeme) :
    Took before (after.step c) kind lexeme raw := by
  have hstep : after.step c
      = { after with pending := .gap, found := ⟨kind, lexeme, after.line⟩ :: before.found } := by
    rw [step, h.pending, hoffer, h.found]
  rw [hstep]
  refine ⟨fun _ _ _ ↦ Pending.noConfusion, ?_, rfl, fun _ _ ↦ rfl⟩
  rw [contents_of_gap rfl, contents_of_gap hbefore]
  simp [Token.content]

theorem took {piece : Pending} {kind : TokenKind} {lexeme : String} {raw : List Char}
    (h : Holds before after piece) (hbefore : before.pending = .gap)
    (hsettle : ∀ line, piece.settle line = [⟨kind, lexeme, line⟩])
    (hrefuses : ∀ c, ¬ Extends kind raw c → piece.offer c = .refused) :
    Took before after kind lexeme raw where
  closed quote opened text hquoted := by
    have hnone := hsettle 0
    rw [← h.pending, hquoted] at hnone
    cases hnone
  contents := by
    rw [contents_of_gap hbefore, contents, h.pending, hsettle, h.found]
    simp [Token.content]
  found := by
    simp only [settled, h.pending, hsettle, h.found, List.singleton_append]
  refuses c hc := by
    rw [h.pending]
    exact hrefuses c hc

end Holds

theorem took_string (hs : s.pending = .gap) {quote : Char} {inner : List Char}
    (hquote : isQuote quote = true) (hinner : quote ∉ inner) :
    Took s (s.steps (quote :: (inner ++ [quote]))) .string (String.ofList inner)
      (quote :: (inner ++ [quote])) := by
  have hgap : isGap quote = false := by
    rcases isQuote_iff.mp hquote with rfl | rfl <;> rfl
  have hstart : Pending.start s.line quote = .quoted quote s.line [] := by
    simp [Pending.start, hgap, hquote]
  have hopen : Holds s (s.step quote) (.quoted quote s.line []) := hstart ▸ holds_start hs quote
  have hheld := hopen.growAll (m := .quoted quote s.line) (p := (· ≠ quote))
    (fun text c hc ↦ by simp [Pending.offer, hc]) fun c hc heq ↦ hinner (heq ▸ hc)
  rw [steps_cons, steps_append]
  exact hheld.close hs (by simp [Pending.offer])

theorem took_number (hs : s.pending = .gap) {raw : List Char} (h : IsNumberText raw) :
    Took s (s.steps raw) .number (String.ofList raw) raw := by
  obtain ⟨whole, hne, hwhole, hraw⟩ := h
  obtain ⟨d, ds, rfl⟩ := List.exists_cons_of_ne_nil hne
  have hd : d.isDigit = true := hwhole d List.mem_cons_self
  have hword := continuesWord_of_isDigit hd
  have hstart : Pending.start s.line d = .whole [d] := by
    simp [Pending.start, isGap_of_continuesWord hword, isQuote_of_continuesWord hword, hd]
  have hopen : Holds s (s.step d) (.whole [d]) := hstart ▸ holds_start hs d
  have hheld := hopen.growAll (m := .whole) (p := (·.isDigit = true))
    (fun text c hc ↦ by simp [Pending.offer, hc]) fun c hc ↦ hwhole c (List.mem_cons_of_mem d hc)
  rcases hraw with rfl | ⟨fraction, hfraction, rfl⟩
  · have hpoint : '.' ∉ d :: ds := fun hmem ↦ absurd (hwhole '.' hmem) (by decide)
    refine hheld.took hs (fun line ↦ by simp [Pending.settle]) fun c hc ↦ ?_
    simp only [Extends, not_or, not_and, not_not] at hc
    have hdot : c ≠ '.' := fun heq ↦ hpoint (hc.2 heq)
    simp [Pending.offer, hc.1, hdot]
  · have hpoint : Holds s (((s.step d).steps ds).step '.')
        (.fraction ('.' :: (ds.reverse ++ [d]))) := hheld.grow rfl
    have hall := hpoint.growAll (m := .fraction) (p := (·.isDigit = true))
      (fun text c hc ↦ by simp [Pending.offer, hc]) hfraction
    rw [steps_append, steps_cons]
    refine hall.took hs (fun line ↦ by simp [Pending.settle]) fun c hc ↦ ?_
    simp only [Extends, not_or] at hc
    simp [Pending.offer, hc.1]

theorem took_word (hs : s.pending = .gap) {raw : List Char} {kind : TokenKind}
    (h : IsWordText raw) (hkind : TokenKind.ofWord (String.ofList raw) = kind)
    (hclass : kind = .identifier ∨ kind ∈ TokenKind.keywords) :
    Took s (s.steps raw) kind (String.ofList raw) raw := by
  rcases raw with _ | ⟨c, rest⟩
  · exact h.elim
  obtain ⟨hc, hrest⟩ := h
  have hword := continuesWord_of_startsWord hc
  have hstart : Pending.start s.line c = .word [c] := by
    simp [Pending.start, isGap_of_continuesWord hword, isQuote_of_continuesWord hword,
      isDigit_of_startsWord hc, hc]
  have hopen : Holds s (s.step c) (.word [c]) := hstart ▸ holds_start hs c
  have hheld := hopen.growAll (m := .word) (p := (continuesWord · = true))
    (fun text d hd ↦ by simp [Pending.offer, hd]) hrest
  have hlexeme : (rest.reverse ++ [c]).reverse = c :: rest := by simp
  refine hheld.took hs (fun line ↦ by rw [Pending.settle, hlexeme, hkind]) fun d hd ↦ ?_
  rw [extends_word_iff hclass, Bool.not_eq_true] at hd
  simp [Pending.offer, hd]

theorem took_symbol (hs : s.pending = .gap) {c : Char} (hc : IsPlain c) :
    Took s (s.steps [c]) (TokenKind.ofSymbol c) (String.ofList [c]) [c] := by
  obtain ⟨hgap, hquote, hdigit, hword⟩ := hc
  have hstart : Pending.start s.line c = .symbol c := by
    simp [Pending.start, hgap, hquote, hdigit, hword]
  have hopen : Holds s (s.step c) (.symbol c) := hstart ▸ holds_start hs c
  refine hopen.took hs (fun line ↦ rfl) fun d hd ↦ ?_
  rw [extends_symbol_iff, ne_eq, not_not] at hd
  rw [Pending.offer, hd]

theorem took_pair (hs : s.pending = .gap) {c d : Char} {kind : TokenKind} (hc : IsPlain c)
    (hpair : TokenKind.ofPair? c d = some kind) :
    Took s (s.steps [c, d]) kind (String.ofList [c, d]) [c, d] := by
  obtain ⟨hgap, hquote, hdigit, hword⟩ := hc
  have hstart : Pending.start s.line c = .symbol c := by
    simp [Pending.start, hgap, hquote, hdigit, hword]
  have hopen : Holds s (s.step c) (.symbol c) := hstart ▸ holds_start hs c
  exact hopen.close hs (by rw [Pending.offer, hpair])

theorem steps_raw (hs : s.pending = .gap) {kind : TokenKind} {lexeme : String} {raw : List Char}
    (h : RawText kind lexeme raw) : Took s (s.steps raw) kind lexeme raw := by
  cases h with
  | string hquote hinner => exact took_string hs hquote hinner
  | number h => exact took_number hs h
  | keyword hkind hword =>
    obtain ⟨hshape, hback⟩ := ofWord_of_spelling hkind hword
    have htook : Took s (s.steps lexeme.toList) kind (String.ofList lexeme.toList) lexeme.toList :=
      took_word hs hshape (by rw [String.ofList_toList, hback]) (Or.inr hkind)
    rwa [String.ofList_toList] at htook
  | @identifier raw h hkey =>
    refine took_word hs h ?_ (Or.inl rfl)
    rcases ofWord_cases (String.ofList raw) with ⟨hkind, hword⟩ | ⟨hkind, -⟩
    · exact absurd hword (hkey _ hkind)
    · exact hkind
  | @symbol kind spelling hkind hspelling =>
    rcases symbol_cases hkind hspelling with ⟨c, hc, hplain, hback⟩ | ⟨c, d, hcd, hplain, hback⟩
    · have htook := took_symbol hs hplain
      rwa [hback, ← hc, String.ofList_toList] at htook
    · have htook := took_pair hs hplain hback
      rwa [← hcd, String.ofList_toList] at htook
  | @other c hgap hquote hdigit hword hsymbol =>
    have htook := took_symbol hs (c := c) ⟨hgap, hquote, hdigit, hword⟩
    rcases ofSymbol_cases c with hother | ⟨hkind, hspelling⟩
    · rwa [hother] at htook
    · exact absurd hspelling (hsymbol _ hkind)

/-- Behind a token, a text that does not extend it is read as if nothing were pending. -/
theorem Took.steps_eq {before after : Scan} {kind : TokenKind} {lexeme : String}
    {raw text : List Char} (h : Took before after kind lexeme raw)
    (hnext : ∀ c, text.head? = some c → ¬ Extends kind raw c) :
    text = [] ∨ after.steps text = after.settled.steps text := by
  rcases text with _ | ⟨c, text⟩
  · exact Or.inl rfl
  · right
    rw [steps_cons, steps_cons, step_of_refused (h.refuses c (hnext c rfl))]

end Scan

/-! ## Cuts are read -/

namespace Cut

variable {lead : List Char} {p : Piece} {pieces : List Piece}

/-- Behind the first written form stands another cut, which its gap leads. -/
theorem text_cons : text ⟨lead, p :: pieces⟩ = lead ++ (p.raw ++ text ⟨p.gap, pieces⟩) := by
  simp [text, Piece.text]

theorem munches_nil : Munches ⟨[], []⟩ := ⟨by simp, by simp, by simp, by simp⟩

theorem munches_cons_lead {c : Char} :
    Munches ⟨c :: lead, pieces⟩ ↔ isGap c = true ∧ Munches ⟨lead, pieces⟩ := by
  constructor
  · intro h
    obtain ⟨hc, hlead⟩ := List.forall_mem_cons.mp h.lead
    exact ⟨hc, hlead, h.gaps, h.raws, h.maximal⟩
  · rintro ⟨hc, h⟩
    exact ⟨List.forall_mem_cons.mpr ⟨hc, h.lead⟩, h.gaps, h.raws, h.maximal⟩

theorem Munches.tail (h : Munches ⟨lead, p :: pieces⟩) : Munches ⟨p.gap, pieces⟩ where
  lead := h.gaps p List.mem_cons_self
  gaps q hq := h.gaps q (List.mem_cons_of_mem p hq)
  raws q hq := h.raws q (List.mem_cons_of_mem p hq)
  maximal := h.maximal.tail

/-- Where a cut begins with no gap it begins with its first piece. -/
theorem head?_text (h : Munches ⟨[], p :: pieces⟩) :
    (text ⟨[], p :: pieces⟩).head? = p.raw.head? := by
  obtain ⟨c, rest, hraw, -⟩ := (h.raws p List.mem_cons_self).exists_head
  rw [text_cons, hraw]
  rfl

theorem Munches.not_extends (h : Munches ⟨lead, p :: pieces⟩) {c : Char}
    (hc : (text ⟨p.gap, pieces⟩).head? = some c) : ¬ Extends p.kind p.raw c := by
  have htail := h.tail
  rcases hgap : p.gap with _ | ⟨d, gap⟩
  · rw [hgap] at hc htail
    rcases pieces with _ | ⟨q, pieces⟩
    · cases hc
    · rw [head?_text htail] at hc
      exact (List.isChain_cons_cons.mp h.maximal).1 hgap c hc
  · rw [hgap] at hc
    have hd : d = c := Option.some.inj hc
    have hmem : d ∈ p.gap := by rw [hgap]; exact List.mem_cons_self
    exact not_extends_of_isGap (hd ▸ h.gaps p List.mem_cons_self d hmem)

theorem Munches.cons {cut : Cut} (h : cut.Munches) {kind : TokenKind} {lexeme : String}
    {raw : List Char} (hraw : RawText kind lexeme raw)
    (hnext : ∀ c, cut.text.head? = some c → ¬ Extends kind raw c) :
    Munches ⟨[], ⟨kind, lexeme, raw, cut.lead⟩ :: cut.pieces⟩ where
  lead c hc := by cases hc
  gaps := List.forall_mem_cons.mpr ⟨h.lead, h.gaps⟩
  raws := List.forall_mem_cons.mpr ⟨hraw, h.raws⟩
  maximal := by
    obtain ⟨gap, pieces⟩ := cut
    rcases pieces with _ | ⟨q, pieces⟩
    · exact .singleton _
    · refine List.isChain_cons_cons.mpr ⟨fun hgap c hc ↦ hnext c ?_, h.maximal⟩
      obtain rfl : gap = [] := hgap
      rw [head?_text h]
      exact hc

end Cut

/-- A cut is read as its tokens, from any state in which nothing is pending. -/
theorem Scan.steps_cut {lead : List Char} {pieces : List Piece} (h : Cut.Munches ⟨lead, pieces⟩)
    {s : Scan} (hs : s.pending = .gap) :
    (s.steps (Cut.text ⟨lead, pieces⟩)).Closed ∧
      (s.steps (Cut.text ⟨lead, pieces⟩)).contents
        = s.contents ++ Cut.contents ⟨lead, pieces⟩ := by
  induction pieces generalizing lead s with
  | nil =>
    obtain ⟨hpending, hcontents⟩ := steps_gap h.lead hs
    have htext : Cut.text ⟨lead, []⟩ = lead := List.append_nil lead
    rw [htext]
    refine ⟨fun quote opened text hquoted ↦ ?_, hcontents.trans (List.append_nil _).symm⟩
    rw [hpending] at hquoted
    cases hquoted
  | cons p pieces ih =>
    obtain ⟨hpending, hcontents⟩ := steps_gap h.lead hs
    have htook := steps_raw hpending (h.raws p List.mem_cons_self)
    have hrest := ih h.tail (s := ((s.steps lead).steps p.raw).settled) rfl
    have hsum : s.contents ++ Cut.contents ⟨lead, p :: pieces⟩
        = ((s.steps lead).steps p.raw).settled.contents ++ Cut.contents ⟨p.gap, pieces⟩ := by
      rw [contents_settled, htook.contents, hcontents, List.append_assoc]
      rfl
    rw [Cut.text_cons, steps_append, steps_append, hsum]
    rcases htook.steps_eq fun c ↦ h.not_extends with hnil | heq
    · rw [hnil] at hrest ⊢
      exact ⟨htook.closed, hrest.2⟩
    · rw [heq]
      exact hrest

/-! ## Texts are cut -/

/-- A text is cut into tokens, unless it ends inside a string. -/
theorem exists_cut (text : List Char) {s : Scan} (hs : s.pending = .gap) :
    (∃ cut : Cut, cut.Munches ∧ cut.text = text) ∨
      ∃ quote opened inner, (s.steps text).pending = .quoted quote opened inner := by
  rcases text with _ | ⟨c, text⟩
  · exact Or.inl ⟨⟨[], []⟩, Cut.munches_nil, rfl⟩
  by_cases hgap : isGap c = true
  · have hstep : (s.step c).pending = .gap := by
      simp [Scan.step_of_gap hs, Pending.start, hgap]
    rcases exists_cut text hstep with ⟨cut, hcut, rfl⟩ | hopen
    · exact Or.inl ⟨⟨c :: cut.lead, cut.pieces⟩, Cut.munches_cons_lead.mpr ⟨hgap, hcut⟩, rfl⟩
    · exact Or.inr hopen
  rw [Bool.not_eq_true] at hgap
  rcases exists_raw text hgap with ⟨kind, lexeme, raw, rest, htext, hraw, hnext⟩ | ⟨hquote, hclose⟩
  · have htook := Scan.steps_raw hs hraw
    have hlength : rest.length < (c :: text).length := by
      obtain ⟨d, ds, rfl, -⟩ := hraw.exists_head
      rw [htext, List.length_append, List.length_cons]
      omega
    rcases exists_cut rest (s := (s.steps raw).settled) rfl with ⟨cut, hcut, rfl⟩ | hopen
    · refine Or.inl ⟨_, hcut.cons hraw hnext, ?_⟩
      rw [Cut.text_cons, htext]
      rfl
    · right
      obtain ⟨quote, opened, inner, hopen⟩ := hopen
      refine ⟨quote, opened, inner, ?_⟩
      rcases htook.steps_eq hnext with hnil | heq
      · rw [hnil] at hopen
        cases hopen
      · rw [htext, Scan.steps_append, heq, hopen]
  · right
    have hstart : Pending.start s.line c = .quoted c s.line [] := by
      simp [Pending.start, hgap, hquote]
    have hopen : Scan.Holds s (s.step c) (.quoted c s.line []) :=
      hstart ▸ Scan.holds_start hs c
    have hheld := hopen.growAll (m := .quoted c s.line) (p := (· ≠ c))
      (fun inner d hd ↦ by simp [Pending.offer, hd]) fun d hd heq ↦ hclose (heq ▸ hd)
    exact ⟨_, _, _, hheld.pending⟩
termination_by text.length
decreasing_by
  · exact Nat.lt_succ_self text.length
  · exact hlength

/-! ## The tokens of a text -/

/-- The kinds and texts that a state amounts to are those of the tokens it ends with. -/
theorem tokenize_of_closed {source : String} (h : (Scan.steps {} source.toList).Closed) :
    ∃ tokens, tokenize source = .ok tokens ∧
      tokens.map Token.content = (Scan.steps {} source.toList).contents :=
  ⟨_, Scan.finish_of_closed h, rfl⟩

theorem tokenize_of_munches {source : String} {cut : Cut} (h : cut.Munches)
    (htext : cut.text = source.toList) :
    ∃ tokens, tokenize source = .ok tokens ∧ tokens.map Token.content = cut.contents := by
  obtain ⟨hclosed, hcontents⟩ := Scan.steps_cut (s := {}) h rfl
  have hcut : Cut.text ⟨cut.lead, cut.pieces⟩ = source.toList := htext
  rw [hcut] at hclosed hcontents
  obtain ⟨tokens, htokens, hmap⟩ := tokenize_of_closed hclosed
  exact ⟨tokens, htokens, hmap.trans hcontents⟩

theorem munches_of_tokenize {source : String} {tokens : List Token}
    (h : tokenize source = .ok tokens) :
    ∃ cut : Cut, cut.Munches ∧ cut.text = source.toList ∧
      cut.contents = tokens.map Token.content := by
  rcases exists_cut source.toList (s := {}) rfl with ⟨cut, hcut, htext⟩ |
      ⟨quote, opened, inner, hopen⟩
  · obtain ⟨tokens', htokens', hmap⟩ := tokenize_of_munches hcut htext
    rw [h] at htokens'
    cases htokens'
    exact ⟨cut, hcut, htext, hmap.symm⟩
  · rw [tokenize, Scan.finish, hopen] at h
    cases h

/-- Forms of one token are equally long, whichever quote they are written with. -/
theorem RawText.length_eq {kind : TokenKind} {lexeme : String} {raw raw' : List Char}
    (h : RawText kind lexeme raw) (h' : RawText kind lexeme raw') : raw.length = raw'.length := by
  rcases h.shape with ⟨hkind, rfl⟩ | ⟨hkind, quote, -, -, rfl⟩ <;>
    rcases h'.shape with ⟨hkind', rfl⟩ | ⟨hkind', quote', -, -, rfl⟩
  · rfl
  · exact absurd hkind' hkind
  · exact absurd hkind hkind'
  · simp

namespace Cut

/-- A text leads with the same gap in every cut. -/
theorem Munches.takeWhile_text {cut : Cut} (h : cut.Munches) :
    cut.text.takeWhile isGap = cut.lead := by
  obtain ⟨lead, pieces⟩ := cut
  have hstop : (pieces.flatMap Piece.text).takeWhile isGap = [] := by
    rcases pieces with _ | ⟨p, pieces⟩
    · rfl
    · obtain ⟨c, rest, hraw, hc⟩ := (h.raws p List.mem_cons_self).exists_head
      simp [Piece.text, hraw, hc]
  rw [text, List.takeWhile_append_of_pos h.lead, hstop, List.append_nil]

theorem Munches.lead_eq {cut cut' : Cut} (h : cut.Munches) (h' : cut'.Munches)
    (htext : cut.text = cut'.text) : cut.lead = cut'.lead := by
  rw [← h.takeWhile_text, ← h'.takeWhile_text, htext]

/-- A cut is known from its text and its tokens. -/
theorem Munches.eq_of_contents {cut cut' : Cut} (h : cut.Munches) (h' : cut'.Munches)
    (htext : cut.text = cut'.text) (hcontents : cut.contents = cut'.contents) : cut = cut' := by
  obtain ⟨lead, pieces⟩ := cut
  obtain ⟨lead', pieces'⟩ := cut'
  obtain rfl : lead = lead' := h.lead_eq h' htext
  induction pieces generalizing lead pieces' with
  | nil =>
    obtain rfl : pieces' = [] := List.map_eq_nil_iff.mp hcontents.symm
    rfl
  | cons p pieces ih =>
    rcases pieces' with _ | ⟨q, pieces'⟩
    · cases hcontents
    obtain ⟨hcontent, hrest⟩ := List.cons.inj hcontents
    obtain ⟨kind, lexeme, raw, gap⟩ := p
    obtain ⟨kind', lexeme', raw', gap'⟩ := q
    obtain ⟨rfl, rfl⟩ := Prod.mk.inj hcontent
    have hraw : RawText kind lexeme raw := h.raws _ List.mem_cons_self
    have hraw' : RawText kind lexeme raw' := h'.raws _ List.mem_cons_self
    rw [text_cons, text_cons] at htext
    obtain ⟨rfl, htail⟩ :=
      List.append_inj (List.append_cancel_left htext) (hraw.length_eq hraw')
    obtain rfl : gap = gap' := h.tail.lead_eq h'.tail htail
    have heq := ih gap h.tail pieces' h'.tail htail hrest
    cases heq
    rfl

end Cut

/-- A text has tokens of certain kinds and texts exactly if it can be cut into them with each as
long as it can be, and there is at most one such cut. -/
theorem tokenize_iff_munches (source : String) :
    (∀ contents, (∃ tokens, tokenize source = .ok tokens ∧
        tokens.map Token.content = contents) ↔
      ∃ cut : Cut, cut.Munches ∧ cut.text = source.toList ∧ cut.contents = contents) ∧
    ∀ cut cut' : Cut, cut.Munches → cut'.Munches → cut.text = source.toList →
      cut'.text = source.toList → cut = cut' := by
  constructor
  · intro contents
    constructor
    · rintro ⟨tokens, htokens, rfl⟩
      exact munches_of_tokenize htokens
    · rintro ⟨cut, hcut, htext, rfl⟩
      exact tokenize_of_munches hcut htext
  · intro cut cut' hcut hcut' htext htext'
    obtain ⟨tokens, htokens, hmap⟩ := tokenize_of_munches hcut htext
    obtain ⟨tokens', htokens', hmap'⟩ := tokenize_of_munches hcut' htext'
    rw [htokens] at htokens'
    cases htokens'
    exact hcut.eq_of_contents hcut' (htext.trans htext'.symm) (hmap.symm.trans hmap')

end Scriptlet
