import Scriptlet.Proofs.Token.Munch

/-!
# Rendering and reading back

`render` writes tokens with a single space between neighbours. What it writes is read back as the
same tokens, lines aside, exactly if each token alone is read back from its own source text.

A token of that sort is one whose source text is a written form of it, and a single space is a gap,
behind which nothing extends a form. So the texts are read one after another (`yields_render`), as
all written forms are in front of what does not extend them (`Yields.cons`). Conversely a cut of a
rendered text with the tokens' kinds and texts cannot be any other: its forms are as long as the
source texts are, and neither a form nor the text of a token that has one begins with a gap
(`rawText_of_cut_render`).

Tokens that come out of a text are all of that sort. A string among them lacks one of the quotes,
and `Token.quoteFor` finds one that it lacks.
-/

namespace Scriptlet

/-- The text has these tokens, lines aside. -/
def Yields (source : String) (ts : List Token) : Prop :=
  ∃ us, tokenize source = .ok us ∧ sameTokens us ts = true

/-- The token is read back from its own source text. -/
def Token.SelfLexing (t : Token) : Prop := Yields t.text [t]

theorem yields_iff_exists_cut {source : String} {ts : List Token} :
    Yields source ts ↔ ∃ cut : Cut, cut.Munches ∧ cut.text = source.toList ∧
      cut.contents = ts.map Token.content := by
  simp only [Yields, sameTokens, decide_eq_true_eq]
  constructor
  · rintro ⟨us, hus, hsame⟩
    rw [← hsame]
    exact munches_of_tokenize hus
  · rintro ⟨cut, hcut, htext, hcontents⟩
    rw [← hcontents]
    exact tokenize_of_munches hcut htext

theorem yields_empty : Yields "" [] := ⟨[], rfl, rfl⟩

theorem Yields.gap {source gap : String} {ts : List Token} (h : Yields source ts)
    (hgap : ∀ c ∈ gap.toList, isGap c = true) : Yields (gap ++ source) ts := by
  obtain ⟨cut, hcut, htext, hcontents⟩ := yields_iff_exists_cut.mp h
  have hlead : ∀ c ∈ gap.toList ++ cut.lead, isGap c = true := fun c hc ↦
    (List.mem_append.mp hc).elim (hgap c) (hcut.lead c)
  refine yields_iff_exists_cut.mpr ⟨⟨gap.toList ++ cut.lead, cut.pieces⟩,
    ⟨hlead, hcut.gaps, hcut.raws, hcut.maximal⟩, ?_, hcontents⟩
  rw [String.toList_append, ← htext, Cut.text, Cut.text, List.append_assoc]

theorem Yields.cons_raw {source raw : String} {ts : List Token} (h : Yields source ts) {t : Token}
    (ht : RawText t.kind t.lexeme raw.toList)
    (hnext : ∀ c, source.toList.head? = some c → ¬ Extends t.kind raw.toList c) :
    Yields (raw ++ source) (t :: ts) := by
  obtain ⟨cut, hcut, htext, hcontents⟩ := yields_iff_exists_cut.mp h
  rw [← htext] at hnext
  refine yields_iff_exists_cut.mpr ⟨_, hcut.cons ht hnext, ?_, ?_⟩
  · rw [Cut.text_cons, String.toList_append, ← htext]
    rfl
  · rw [List.map_cons, ← hcontents]
    rfl

theorem Yields.cons {source : String} {ts : List Token} (h : Yields source ts) {t : Token}
    (ht : RawText t.kind t.lexeme t.text.toList)
    (hnext : ∀ c, source.toList.head? = some c → ¬ Extends t.kind t.text.toList c) :
    Yields (t.text ++ source) (t :: ts) :=
  h.cons_raw ht hnext

/-- Nothing extends a written form across a space. -/
theorem Yields.cons_space {source : String} {ts : List Token} (h : Yields source ts) {t : Token}
    (ht : RawText t.kind t.lexeme t.text.toList) :
    Yields (t.text ++ (" " ++ source)) (t :: ts) := by
  have hspace : ∀ c ∈ " ".toList, isGap c = true := List.forall_mem_singleton.mpr rfl
  refine (h.gap hspace).cons ht fun c hc ↦ ?_
  obtain rfl : ' ' = c := by simpa using hc
  exact not_extends_of_isGap rfl

/-! ## Source texts -/

namespace Token

variable {t : Token}

theorem toList_text_of_ne (h : t.kind ≠ .string) : t.text.toList = t.lexeme.toList := by
  unfold text
  split
  · contradiction
  · rfl

theorem toList_text_of_string (h : t.kind = .string) :
    t.text.toList = quoteFor t.lexeme :: (t.lexeme.toList ++ [quoteFor t.lexeme]) := by
  simp [text, h]

/-- A string that lacks one of the quotes lacks the one it is written with. -/
theorem quoteFor_not_mem {quote : Char} {inner : String} (hquote : isQuote quote = true)
    (hinner : quote ∉ inner.toList) :
    isQuote (quoteFor inner) = true ∧ quoteFor inner ∉ inner.toList := by
  by_cases hdouble : '"' ∈ inner.toList
  · have hsingle : quote = '\'' := by
      rcases isQuote_iff.mp hquote with rfl | rfl
      · exact absurd hdouble hinner
      · rfl
    subst hsingle
    simp [quoteFor, hdouble, hinner, isQuote]
  · simp [quoteFor, hdouble, isQuote]

theorem rawText_text_of_string (h : t.kind = .string) {quote : Char} (hquote : isQuote quote = true)
    (hinner : quote ∉ t.lexeme.toList) : RawText t.kind t.lexeme t.text.toList := by
  obtain ⟨hquoteFor, hfree⟩ := quoteFor_not_mem hquote hinner
  have hform := RawText.string hquoteFor hfree
  rwa [String.ofList_toList, ← h, ← toList_text_of_string h] at hform

/-- If a token has a written form at all, its source text is one. -/
theorem rawText_text {raw : List Char} (h : RawText t.kind t.lexeme raw) :
    RawText t.kind t.lexeme t.text.toList := by
  rcases h.shape with ⟨hkind, rfl⟩ | ⟨hkind, quote, hquote, hinner, -⟩
  · rwa [toList_text_of_ne hkind]
  · exact rawText_text_of_string hkind hquote hinner

theorem length_raw {raw : List Char} (h : RawText t.kind t.lexeme raw) :
    raw.length = t.text.toList.length :=
  h.length_eq (rawText_text h)

/-- The source text of a token with a written form does not begin with a gap. -/
theorem takeWhile_isGap_text {raw rest : List Char} (h : RawText t.kind t.lexeme raw) :
    (t.text.toList ++ rest).takeWhile isGap = [] := by
  obtain ⟨c, cs, htext, hc⟩ := (rawText_text h).exists_head
  simp [htext, hc]

end Token

/-! ## Rendered texts -/

theorem toList_render_singleton (t : Token) : (render [t]).toList = t.text.toList := by
  simp [render]

theorem toList_render_cons (t u : Token) (ts : List Token) :
    (render (t :: u :: ts)).toList = t.text.toList ++ ' ' :: (render (u :: ts)).toList := by
  simp [render, String.toList_intercalate, List.intercalate]

theorem yields_render {ts : List Token} (h : ∀ t ∈ ts, RawText t.kind t.lexeme t.text.toList) :
    Yields (render ts) ts := by
  induction ts with
  | nil => exact yields_empty
  | cons t ts ih =>
    obtain ⟨ht, hts⟩ := List.forall_mem_cons.mp h
    rcases ts with _ | ⟨u, ts⟩
    · have hrender : render [t] = t.text ++ "" := by
        rw [String.append_empty, ← String.toList_inj, toList_render_singleton]
      rw [hrender]
      exact yields_empty.cons ht fun c hc ↦ by cases hc
    · have hrender : render (t :: u :: ts) = t.text ++ (" " ++ render (u :: ts)) := by
        rw [← String.toList_inj, toList_render_cons, String.toList_append, String.toList_append]
        rfl
      rw [hrender]
      exact (ih hts).cons_space ht

/-- In a rendered text the tokens stand only where they were written. -/
theorem rawText_of_cut_render {ts : List Token} {cut : Cut} (h : cut.Munches)
    (htext : cut.text = (render ts).toList) (hcontents : cut.contents = ts.map Token.content) :
    ∀ t ∈ ts, RawText t.kind t.lexeme t.text.toList := by
  induction ts generalizing cut with
  | nil => exact fun t ht ↦ by cases ht
  | cons t ts ih =>
    obtain ⟨lead, pieces⟩ := cut
    rcases pieces with _ | ⟨p, pieces⟩
    · cases hcontents
    obtain ⟨hcontent, hrest⟩ := List.cons.inj hcontents
    have hraw : RawText t.kind t.lexeme p.raw := by
      obtain ⟨hkind, hlexeme⟩ := Prod.mk.inj hcontent
      rw [← hkind, ← hlexeme]
      exact h.raws p List.mem_cons_self
    obtain ⟨rest, hrender⟩ : ∃ rest, (render (t :: ts)).toList = t.text.toList ++ rest := by
      rcases ts with _ | ⟨u, ts⟩
      · exact ⟨[], by rw [toList_render_singleton, List.append_nil]⟩
      · exact ⟨_, toList_render_cons t u ts⟩
    -- no gap leads the cut, so that its first form is the source text itself
    obtain rfl : lead = [] := by
      have hlead := h.takeWhile_text
      rw [htext, hrender, Token.takeWhile_isGap_text hraw] at hlead
      exact hlead.symm
    rw [← htext, Cut.text_cons, List.nil_append] at hrender
    obtain ⟨hform, -⟩ := List.append_inj hrender (Token.length_raw hraw)
    refine List.forall_mem_cons.mpr ⟨hform ▸ hraw, ?_⟩
    rcases ts with _ | ⟨u, ts⟩
    · exact fun u hu ↦ by cases hu
    rw [Cut.text_cons, toList_render_cons, List.nil_append, hform] at htext
    have hbehind := List.append_cancel_left htext
    have htail := h.tail
    obtain ⟨gap, hgap⟩ : ∃ gap, p.gap = ' ' :: gap := by
      have hlead := htail.takeWhile_text
      rw [hbehind, List.takeWhile_cons_of_pos rfl] at hlead
      exact ⟨_, hlead.symm⟩
    rw [hgap] at htail hbehind
    exact ih (Cut.munches_cons_lead.mp htail).2 (List.cons.inj hbehind).2 hrest

theorem rawText_of_mem_contents {cut : Cut} (h : cut.Munches) {t : Token}
    (ht : t.content ∈ cut.contents) : RawText t.kind t.lexeme t.text.toList := by
  obtain ⟨p, hp, hcontent⟩ := List.mem_map.mp ht
  obtain ⟨hkind, hlexeme⟩ := Prod.mk.inj hcontent
  have hraw := h.raws p hp
  rw [hkind, hlexeme] at hraw
  exact Token.rawText_text hraw

theorem rawText_of_tokenize {source : String} {ts : List Token} (h : tokenize source = .ok ts)
    {t : Token} (ht : t ∈ ts) : RawText t.kind t.lexeme t.text.toList := by
  obtain ⟨cut, hcut, -, hcontents⟩ := munches_of_tokenize h
  refine rawText_of_mem_contents hcut ?_
  rw [hcontents]
  exact List.mem_map_of_mem ht

theorem yields_render_iff {ts : List Token} :
    Yields (render ts) ts ↔ ∀ t ∈ ts, RawText t.kind t.lexeme t.text.toList := by
  refine ⟨fun h ↦ ?_, yields_render⟩
  obtain ⟨cut, hcut, htext, hcontents⟩ := yields_iff_exists_cut.mp h
  exact rawText_of_cut_render hcut htext hcontents

theorem Token.selfLexing_iff {t : Token} :
    t.SelfLexing ↔ RawText t.kind t.lexeme t.text.toList := by
  have hrender : render [t] = t.text := String.toList_inj.mp (toList_render_singleton t)
  rw [SelfLexing, ← hrender, yields_render_iff, hrender]
  simp

/-- Rendering is undone by reading exactly for tokens that are read back one by one, and the tokens
of a text are all of that sort. -/
theorem render_yields_iff_selfLexing :
    (∀ source ts, tokenize source = .ok ts →
      (∀ t ∈ ts, t.SelfLexing) ∧ Yields (render ts) ts) ∧
    ∀ ts, Yields (render ts) ts ↔ ∀ t ∈ ts, t.SelfLexing := by
  have hiff : ∀ ts, Yields (render ts) ts ↔ ∀ t ∈ ts, t.SelfLexing := by
    intro ts
    simp only [Token.selfLexing_iff]
    exact yields_render_iff
  refine ⟨fun source ts hts ↦ ?_, hiff⟩
  have hself : ∀ t ∈ ts, t.SelfLexing :=
    fun t ht ↦ Token.selfLexing_iff.mpr (rawText_of_tokenize hts ht)
  exact ⟨hself, (hiff ts).mpr hself⟩

end Scriptlet
