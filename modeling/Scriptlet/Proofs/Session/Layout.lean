import Scriptlet.Session
import Scriptlet.Proofs.Parse.Lines
import Scriptlet.Proofs.Token.RoundTrip

/-!
# Layout does not matter to runs

A source text is read through its tokens, and their lines do not matter to what it does. So two
texts with the same tokens, such as a text and what is rendered of its tokens, run alike in every
session: the outcome is the same, or both are refused for the same reason, each with a line of its
own. The first free tag is the same at the start, hence also the tags of the functions that are
defined.
-/

namespace Scriptlet

theorem yields_render_of_tokenize {source : String} {ts : List Token}
    (h : tokenize source = .ok ts) : Yields (render ts) ts :=
  yields_render_iff.mpr fun _ ht ↦ rawText_of_tokenize h ht

namespace Session

/-- The session `s` runs both texts with the same outcome, or refuses both for the same reason
without any effect. -/
def RunsAlike (host : Host) (depth : Nat) (s : Session) (a b : String) : Prop :=
  s.run host depth a = s.run host depth b ∨
    ∃ e e' : ParseError, e.SameFault e' ∧
      s.run host depth a = (s, ⟨"", .error (.parse e)⟩) ∧
      s.run host depth b = (s, ⟨"", .error (.parse e')⟩)

variable (host : Host) (depth : Nat) (s : Session)

theorem runsAlike_of_sameTokens {a b : String} {ts us : List Token} (ha : tokenize a = .ok ts)
    (hb : tokenize b = .ok us) (h : sameTokens ts us = true) : s.RunsAlike host depth a b := by
  simp only [RunsAlike, run, compile, ha, hb]
  rcases Parse.parse_of_sameTokens h with ⟨p, hts, hus⟩ | ⟨e, e', hts, hus, hfault⟩
  · left
    rw [hts, hus]
  · right
    rw [hts, hus]
    exact ⟨e, e', hfault, rfl, rfl⟩

/-- Layout and lines do not matter. Whatever is read from two token lists that agree up to lines, by
any grammar and from any place, is the same tree up to the same place, or fails at the same place
with the same error up to its line. So texts with the same tokens run alike, and a text runs like
what is rendered of its tokens. -/
theorem layout_does_not_matter :
    (∀ (g : Grammar) (ts us : List Token), sameTokens ts us = true → ∀ n,
      (∀ min, Parse.EndsAlike ts us
        ((Parse.expression ⟨g, Parse.endLine ts⟩ min).run (ts.drop n))
        ((Parse.expression ⟨g, Parse.endLine us⟩ min).run (us.drop n))) ∧
      Parse.EndsAlike ts us
        ((Parse.statement ⟨g, Parse.endLine ts⟩).run (ts.drop n))
        ((Parse.statement ⟨g, Parse.endLine us⟩).run (us.drop n)) ∧
      Parse.EndsAlike ts us
        ((Parse.block ⟨g, Parse.endLine ts⟩).run (ts.drop n))
        ((Parse.block ⟨g, Parse.endLine us⟩).run (us.drop n)) ∧
      Parse.EndsAlike ts us
        ((Parse.program ⟨g, Parse.endLine ts⟩).run (ts.drop n))
        ((Parse.program ⟨g, Parse.endLine us⟩).run (us.drop n))) ∧
    ∀ host depth (s : Session) a ts, tokenize a = .ok ts →
      (∀ b us, tokenize b = .ok us → sameTokens ts us = true → s.RunsAlike host depth a b) ∧
      s.RunsAlike host depth a (render ts) := by
  refine ⟨fun g ts us h n ↦ ⟨fun min ↦ ?_, ?_, ?_, ?_⟩,
    fun host depth s a ts ha ↦ ⟨fun b us hb h ↦ ?_, ?_⟩⟩
  · exact (Parse.lineBlind_expression min).endsAlike h
      (Parse.agree_expression (Nat.le_refl _) min).right.loosen
      (Parse.agree_expression (Nat.le_refl _) min).right.loosen
  · exact Parse.lineBlind_statement.endsAlike h
      (Parse.agree_statement (Nat.le_refl _)).right.loosen
      (Parse.agree_statement (Nat.le_refl _)).right.loosen
  · exact Parse.lineBlind_block.endsAlike h
      (Parse.agree_block (Nat.le_succ _)).right.loosen
      (Parse.agree_block (Nat.le_succ _)).right.loosen
  · exact Parse.lineBlind_program.endsAlike h (Parse.agree_program _) (Parse.agree_program _)
  · exact runsAlike_of_sameTokens host depth s ha hb h
  · obtain ⟨us, hus, hsame⟩ := yields_render_of_tokenize ha
    refine runsAlike_of_sameTokens host depth s ha hus ?_
    rw [sameTokens_iff] at hsame ⊢
    exact hsame.symm

/-- The tokens of `let x 3` on three lines, and on one. -/
def onThreeLines : List Token := [⟨.keyLet, "let", 1⟩, ⟨.identifier, "x", 3⟩, ⟨.number, "3", 3⟩]

@[inherit_doc onThreeLines]
def onOneLine : List Token := [⟨.keyLet, "let", 1⟩, ⟨.identifier, "x", 1⟩, ⟨.number, "3", 1⟩]

/-- From the second token on, both lists start with the same expression. As a whole both are
refused, on the line where the first token that does not fit stands in each. -/
theorem runsAlike_on_three_lines :
    Parse.EndsAlike onThreeLines onOneLine
        (.ok (Expr.name "x") [⟨.number, "3", 3⟩]) (.ok (Expr.name "x") [⟨.number, "3", 1⟩]) ∧
      initial.RunsAlike Host.none 0 "let\n\nx 3" "let x 3" ∧
      (initial.run Host.none 0 "let\n\nx 3").2.result
        = .error (.parse (.unexpectedToken (.token .assign) ⟨.number, "3", 3⟩)) ∧
      (initial.run Host.none 0 "let x 3").2.result
        = .error (.parse (.unexpectedToken (.token .assign) ⟨.number, "3", 1⟩)) := by
  have ha : tokenize "let\n\nx 3" = .ok onThreeLines := by decide
  have hb : tokenize "let x 3" = .ok onOneLine := by decide
  have hsame : sameTokens onThreeLines onOneLine = true := by decide
  have hread := (layout_does_not_matter.1 .standard _ _ hsame 1).1 .lowest
  have hrun := (layout_does_not_matter.2 Host.none 0 initial _ _ ha).1 _ _ hb hsame
  refine ⟨hread, hrun, ?_, ?_⟩
  · simp only [run, compile, ha]
    rfl
  · simp only [run, compile, hb]
    rfl

end Session

end Scriptlet
