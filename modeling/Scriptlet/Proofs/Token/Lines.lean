import Scriptlet.Proofs.Token.Quotes

/-!
# Lines of tokens

The line of a token is the one that its written form ends on, counted by the line ends of the text
up to there. Line ends occur in gaps and inside strings, and nowhere else. So the lines of a text
are scanned apart wherever a line end stands outside strings, and what comes behind it is counted on
from there.

A cut says where the written forms end (`Cut.upTo`), and so which line each token has to carry. The
scanner reads the cut piece by piece. When it has taken a written form the token is given the
current line, and the current line counts the line ends of all that was read (`Scan.Follows`).
-/

namespace Scriptlet

namespace Cut

variable {lead before : List Char} {p : Piece} {pieces : List Piece} {i j : Nat}

/-- The text up to the end of the written form at a place. -/
def upTo (cut : Cut) (i : Nat) : List Char :=
  cut.lead ++ ((cut.pieces.take i).flatMap Piece.text ++ (cut.pieces[i]?.map Piece.raw).getD [])

theorem upTo_zero : upTo ⟨lead, p :: pieces⟩ 0 = lead ++ p.raw := by
  simp [upTo]

theorem upTo_succ :
    upTo ⟨lead, p :: pieces⟩ (i + 1) = lead ++ p.raw ++ upTo ⟨p.gap, pieces⟩ i := by
  simp [upTo, Piece.text]

theorem upTo_prefix_text (cut : Cut) (i : Nat) : cut.upTo i <+: cut.text := by
  obtain ⟨lead, pieces⟩ := cut
  induction pieces generalizing lead i with
  | nil => simp [upTo, text]
  | cons p pieces ih =>
    rw [text_cons, ← List.append_assoc]
    rcases i with _ | i
    · rw [upTo_zero]
      exact List.prefix_append _ _
    · rw [upTo_succ, List.prefix_append_right_inj]
      exact ih i p.gap

theorem upTo_prefix_upTo (cut : Cut) (hij : i ≤ j) : cut.upTo i <+: cut.upTo j := by
  obtain ⟨lead, pieces⟩ := cut
  induction pieces generalizing lead i j with
  | nil => simp [upTo]
  | cons p pieces ih =>
    rcases j with _ | j
    · obtain rfl : i = 0 := Nat.le_zero.mp hij
      exact List.prefix_refl _
    · rw [upTo_succ]
      rcases i with _ | i
      · rw [upTo_zero]
        exact List.prefix_append _ _
      · rw [upTo_succ, List.prefix_append_right_inj]
        exact ih (Nat.le_of_succ_le_succ hij) p.gap

/-- The tokens of a cut that stands behind a text. -/
def tokensBehind (before : List Char) (cut : Cut) : List Token :=
  cut.pieces.mapIdx fun i p ↦ ⟨p.kind, p.lexeme, 1 + (before ++ cut.upTo i).count '\n'⟩

theorem tokensBehind_cons : tokensBehind before ⟨lead, p :: pieces⟩
    = ⟨p.kind, p.lexeme, 1 + (before ++ lead ++ p.raw).count '\n'⟩
      :: tokensBehind (before ++ lead ++ p.raw) ⟨p.gap, pieces⟩ := by
  simp only [tokensBehind, List.mapIdx_cons, upTo_zero, upTo_succ, List.append_assoc]

theorem contents_tokensBehind (before : List Char) (cut : Cut) :
    (cut.tokensBehind before).map Token.content = cut.contents := by
  refine List.ext_getElem ?_ fun i hi hi' ↦ ?_
  · simp [tokensBehind, contents]
  · simp [tokensBehind, contents, Token.content, Piece.content]

end Cut

namespace Scan

theorem Follows.settled {s : Scan} {text : List Char} (h : s.Follows text) (hs : s.Closed) :
    s.settled.Follows text where
  line := h.line
  closed _ := h.closed hs
  quoted _ _ _ hquoted := by cases hquoted

/-- A cut is read as its tokens, each with the line that its written form ends on. -/
theorem found_steps_cut {lead before : List Char} {pieces : List Piece}
    (h : Cut.Munches ⟨lead, pieces⟩) {s : Scan} (hs : s.pending = .gap)
    (hbefore : s.Follows before) :
    (s.steps (Cut.text ⟨lead, pieces⟩)).settled.found
      = (Cut.tokensBehind before ⟨lead, pieces⟩).reverse ++ s.found := by
  induction pieces generalizing lead before s with
  | nil =>
    obtain ⟨hpending, hfound⟩ := found_steps_gap h.lead hs
    have htext : Cut.text ⟨lead, []⟩ = lead := List.append_nil lead
    rw [htext]
    simp [settled, hpending, hfound, Pending.settle, Cut.tokensBehind]
  | cons p pieces ih =>
    obtain ⟨hpending, hfound⟩ := found_steps_gap h.lead hs
    have htook := steps_raw hpending (h.raws p List.mem_cons_self)
    have hread := (hbefore.steps lead).steps p.raw
    have hrest := ih h.tail rfl (hread.settled htook.closed)
    have hsum : (Cut.tokensBehind before ⟨lead, p :: pieces⟩).reverse ++ s.found
        = (Cut.tokensBehind (before ++ lead ++ p.raw) ⟨p.gap, pieces⟩).reverse
          ++ ((s.steps lead).steps p.raw).settled.found := by
      rw [htook.found, hfound, hread.line, Cut.tokensBehind_cons, List.reverse_cons,
        List.append_assoc, List.singleton_append]
    rw [Cut.text_cons, steps_append, steps_append, hsum]
    rcases htook.steps_eq fun c ↦ h.not_extends with hnil | heq
    · rw [hnil] at hrest ⊢
      exact hrest
    · rw [heq]
      exact hrest

end Scan

theorem exists_cut_of_tokenize {source : String} {tokens : List Token}
    (h : tokenize source = .ok tokens) :
    ∃ cut : Cut, cut.Munches ∧ cut.text = source.toList ∧ tokens = cut.tokensBehind [] := by
  obtain ⟨cut, hcut, htext, -⟩ := munches_of_tokenize h
  refine ⟨cut, hcut, htext, ?_⟩
  have hfound := Scan.found_steps_cut (s := {}) hcut rfl Scan.follows_nil
  have hcuttext : Cut.text ⟨cut.lead, cut.pieces⟩ = source.toList := htext
  have hfinish := Scan.finish_of_closed (Scan.closed_of_finish h)
  rw [hcuttext, List.append_nil] at hfound
  calc tokens = (Scan.steps {} source.toList).settled.found.reverse :=
        Except.ok.inj (h.symm.trans hfinish)
    _ = cut.tokensBehind [] := by rw [hfound, List.reverse_reverse]

/-- Every token carries the line that its written form ends on: one more than the line ends up to
there. So lines never decrease, and tokens have the same line if no line end stands between the ends
of their written forms. -/
theorem tokens_carry_line_of_end {source : String} {tokens : List Token}
    (h : tokenize source = .ok tokens) :
    ∃ cut : Cut, cut.Munches ∧ cut.text = source.toList ∧
      cut.contents = tokens.map Token.content ∧
      (∀ i (hi : i < tokens.length), cut.upTo i <+: source.toList ∧
        tokens[i].line = 1 + (cut.upTo i).count '\n') ∧
      tokens.Pairwise (fun t u ↦ t.line ≤ u.line) ∧
      ∀ i j (hij : i ≤ j) (hj : j < tokens.length), ∃ between,
        cut.upTo j = cut.upTo i ++ between ∧
          (tokens[i].line = tokens[j].line ↔ '\n' ∉ between) := by
  obtain ⟨cut, hcut, htext, rfl⟩ := exists_cut_of_tokenize h
  have hline (i : Nat) (hi : i < (cut.tokensBehind []).length) :
      (cut.tokensBehind [])[i].line = 1 + (cut.upTo i).count '\n' := by
    simp only [Cut.tokensBehind, List.getElem_mapIdx, List.nil_append]
  refine ⟨cut, hcut, htext, (cut.contents_tokensBehind []).symm,
    fun i hi ↦ ⟨htext ▸ cut.upTo_prefix_text i, hline i hi⟩, ?_, ?_⟩
  · refine List.pairwise_iff_getElem.mpr fun i j hi hj hij ↦ ?_
    rw [hline i hi, hline j hj]
    obtain ⟨between, hbetween⟩ := cut.upTo_prefix_upTo (Nat.le_of_lt hij)
    rw [← hbetween, List.count_append]
    omega
  · intro i j hij hj
    obtain ⟨between, hbetween⟩ := cut.upTo_prefix_upTo hij
    refine ⟨between, hbetween.symm, ?_⟩
    rw [hline i (Nat.lt_of_le_of_lt hij hj), hline j hj, ← hbetween, List.count_append,
      ← List.count_eq_zero]
    omega

/-- A string that begins on the second line and ends on the third, and a name behind it. -/
theorem line_of_string_is_its_last :
    tokenize "a\n'b\nc' d"
        = .ok [⟨.identifier, "a", 1⟩, ⟨.string, "b\nc", 3⟩, ⟨.identifier, "d", 3⟩] ∧
      ∃ cut : Cut, cut.Munches ∧ cut.text = "a\n'b\nc' d".toList ∧
        (cut.upTo 1).count '\n' = 2 ∧
        ∃ between, cut.upTo 2 = cut.upTo 1 ++ between ∧ '\n' ∉ between := by
  have htokens : tokenize "a\n'b\nc' d"
      = .ok [⟨.identifier, "a", 1⟩, ⟨.string, "b\nc", 3⟩, ⟨.identifier, "d", 3⟩] := by
    decide
  obtain ⟨cut, hcut, htext, -, hline, -, hsame⟩ := tokens_carry_line_of_end htokens
  obtain ⟨between, hbetween, hiff⟩ := hsame 1 2 (by decide) (by decide)
  have hcount : 3 = 1 + (cut.upTo 1).count '\n' := (hline 1 (by decide)).2
  exact ⟨htokens, cut, hcut, htext, by omega, between, hbetween, hiff.mp rfl⟩

/-! ## Joined lines -/

/-- Two texts with a line end between them are scanned apart, if the first has tokens. Whatever
comes of the second alone, tokens or a string without an end, comes behind the first on lines that
count on from there. -/
theorem joined_lines_scan_apart {a : String} {ta : List Token} (ha : tokenize a = .ok ta)
    (b : String) :
    (∀ tb, tokenize b = .ok tb →
      tokenize (a ++ "\n" ++ b) = .ok (ta ++ tb.map (Token.lower (a.toList.count '\n' + 1)))) ∧
    ∀ quote line, tokenize b = .error (.unterminatedString quote line) →
      tokenize (a ++ "\n" ++ b)
        = .error (.unterminatedString quote (line + (a.toList.count '\n' + 1))) := by
  have hline : (Scan.steps {} a.toList).line = a.toList.count '\n' + 1 := by
    rw [(follows_source a).line, Nat.add_comm]
  have hjoined := tokenize_append_newline ha b
  rw [hline] at hjoined
  refine ⟨fun tb hb ↦ ?_, fun quote line hb ↦ ?_⟩
  · rw [hjoined, hb, outcomeBehind]
  · rw [hjoined, hb, outcomeBehind, ScanError.lower]

/-- A string over two lines in front, and behind the seam a name or a quote that is never closed. -/
theorem seam_behind_string_of_two_lines :
    tokenize "'a\nb'" = .ok [⟨.string, "a\nb", 2⟩] ∧
      tokenize ("'a\nb'" ++ "\n" ++ "c") = .ok [⟨.string, "a\nb", 2⟩, ⟨.identifier, "c", 3⟩] ∧
      tokenize ("'a\nb'" ++ "\n" ++ "\n'c") = .error (.unterminatedString '\'' 4) := by
  have ha : tokenize "'a\nb'" = .ok [⟨.string, "a\nb", 2⟩] := by decide
  have hc : tokenize "c" = .ok [⟨.identifier, "c", 1⟩] := by decide
  have hopen : tokenize "\n'c" = .error (.unterminatedString '\'' 2) := by decide
  refine ⟨ha, ?_, ?_⟩
  · exact (joined_lines_scan_apart ha "c").1 _ hc
  · exact (joined_lines_scan_apart ha "\n'c").2 _ _ hopen

end Scriptlet
