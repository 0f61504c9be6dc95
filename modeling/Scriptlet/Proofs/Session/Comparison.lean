import Scriptlet.Proofs.Number.Grammar
import Scriptlet.Proofs.Session.Literals
import Scriptlet.Proofs.Session.WrittenValues

/-!
# Literals compared with their texts

There are two ways from a text to a number: as a literal of a program, and as a string that is
compared with a number. Where both apply they give the same number, so a literal equals the string
with the same text, and blanks around that text make no difference.

A literal may lose a point at its end before it is read, and a string its blanks. Both are then read
as the same numeral and rounded in the same way, and what is rounded equals itself, be it zero or an
infinity.
-/

namespace Scriptlet

namespace Number

theorem exists_numeral_of_isNumberText {lexeme : String} (h : IsNumberText lexeme.toList) :
    ∃ n, Numeral.read? lexeme.toList = some n ∧
      literalValue lexeme = .ok (.number (ofNumeral n)) := by
  have hdecimal := IsDecimal.of_isNumberText h
  have hread := (Numeral.isSome_read?_iff hdecimal.chars).mpr ⟨hdecimal.digit, hdecimal.points⟩
  obtain ⟨n, hn⟩ := Option.isSome_iff_exists.mp hread
  refine ⟨n, hn, ?_⟩
  rw [literalValue, ofLiteral?_of_isDecimal hdecimal, hn, Option.map_some]

end Number

/-! ## The comparison in a program -/

/-- The tokens of a literal and of the same text in quotes, with an equality sign between them. -/
def comparisonTokens (lexeme : String) : List Token :=
  [⟨.number, lexeme, 1⟩, ⟨.equalEqual, "==", 1⟩, ⟨.string, lexeme, 1⟩]

/-- A number text has no quotes in it. -/
theorem rawText_quoted {lexeme : String} (h : IsNumberText lexeme.toList) :
    RawText .string lexeme ("'" ++ lexeme ++ "'").toList := by
  have hinner : '\'' ∉ lexeme.toList := by
    intro hmem
    rcases (IsDecimal.of_isNumberText h).chars _ hmem with hdigit | hpoint
    · exact absurd hdigit (by decide)
    · exact absurd hpoint (by decide)
  have hquote : isQuote '\'' = true := rfl
  have hraw := RawText.string hquote hinner
  rw [String.ofList_toList] at hraw
  simpa using hraw

theorem yields_comparison {lexeme : String} (h : IsNumberText lexeme.toList) :
    Yields ("return " ++ lexeme ++ " == '" ++ lexeme ++ "';")
      (returnTokens (comparisonTokens lexeme)) := by
  have hnumber : RawText .number lexeme lexeme.toList := by
    have hraw := RawText.number h
    rwa [String.ofList_toList] at hraw
  have hequal : RawText .equalEqual "==" "==".toList := .symbol (by decide) (by decide)
  have hsemicolon : RawText .semicolon ";" ";".toList := .symbol (by decide) (by decide)
  have hend := yields_empty.cons_raw (t := ⟨.semicolon, ";", 1⟩) hsemicolon fun c hc ↦ by cases hc
  have hstring := hend.cons_raw (t := ⟨.string, lexeme, 1⟩) (rawText_quoted h) fun c _ hextends ↦ by
    simp [Extends, TokenKind.keywords] at hextends
  have hcomparison := (hstring.cons_space (t := ⟨.equalEqual, "==", 1⟩) hequal).cons_space
    (t := ⟨.number, lexeme, 1⟩) hnumber
  have htext : "return " ++ lexeme ++ " == '" ++ lexeme ++ "';"
      = "return " ++ (lexeme ++ (" " ++ ("==" ++ (" " ++ ("'" ++ lexeme ++ "'"))))) ++ ";" := by
    rw [← String.toList_inj]
    simp
  rw [htext]
  refine yields_return ?_
  simpa [String.append_assoc, comparisonTokens, Token.text] using hcomparison

namespace Session

variable (host : Host) (depth : Nat) (s : Session)

theorem run_comparison {lexeme : String} (h : IsNumberText lexeme.toList) :
    s.run host depth ("return " ++ lexeme ++ " == '" ++ lexeme ++ "';")
      = (s, ⟨"", .ok (some (.boolean true))⟩) := by
  obtain ⟨n, hread, hvalue⟩ := Number.exists_numeral_of_isNumberText h
  have hequal : Value.looseEq (.number (Number.ofNumeral n)) (.string lexeme) = true := by
    have htext : Number.ofText lexeme = Number.ofNumeral n := by
      rw [← Number.ofText_of_read? hread, String.ofList_toList]
    have hloose : Value.looseEq (.number (Number.ofNumeral n)) (.string lexeme)
        = (Number.ofNumeral n == Number.ofText lexeme) := by
      rw [Value.looseEq]
    rw [hloose, htext]
    exact Number.beq_self (Number.isNaN_ofNumeral n)
  have hparse : parse (returnTokens (comparisonTokens lexeme))
      = .ok [.returns (.binary .equal (.number lexeme) (.string lexeme))] := rfl
  rw [run_of_yields host depth s (yields_comparison h) hparse]
  refine runProgram_returns host depth s ?_ rfl
  have happly : BinaryOp.equal.apply (.number (Number.ofNumeral n)) (.string lexeme)
      = .ok (.boolean true) := by
    rw [BinaryOp.apply, hequal]
  rw [Eval.expr, Eval.expr, Eval.expr, hvalue]
  calc Eval.ofExcept (BinaryOp.equal.apply (.number (Number.ofNumeral n)) (.string lexeme))
      = Eval.ofExcept (.ok (.boolean true)) := by rw [happly]
    _ = pure (.boolean true) := rfl

/-- The texts of number tokens are the same numbers as literals and as strings, whatever blanks
stand around the strings. So a program that compares the two finds them equal. -/
theorem literal_equals_its_text (lexeme : String) :
    (IsNumberText lexeme.toList ↔ ∃ source tokens, tokenize source = .ok tokens ∧
      ∃ t ∈ tokens, t.kind = .number ∧ t.lexeme = lexeme) ∧
    (IsNumberText lexeme.toList → ∃ x, literalValue lexeme = .ok (.number x) ∧
      (∀ before after : String, (∀ c ∈ before.toList, isBlank c = true) →
        (∀ c ∈ after.toList, isBlank c = true) →
        Number.ofText (before ++ lexeme ++ after) = x) ∧
      ∀ (host : Host) (depth : Nat) (s : Session),
        s.run host depth ("return " ++ lexeme ++ " == '" ++ lexeme ++ "';")
          = (s, ⟨"", .ok (some (.boolean true))⟩)) := by
  refine ⟨⟨fun h ↦ ?_, ?_⟩, fun h ↦ ?_⟩
  · -- among others, the comparison itself is a text with this token
    obtain ⟨tokens, htokens, hsame⟩ := yields_comparison h
    have hmem : (TokenKind.number, lexeme) ∈ tokens.map Token.content := by
      rw [of_decide_eq_true hsame]
      simp [returnTokens, comparisonTokens, Token.content]
    obtain ⟨t, ht, hcontent⟩ := List.mem_map.mp hmem
    obtain ⟨hkind, hlexeme⟩ := Prod.mk.inj hcontent
    exact ⟨_, tokens, htokens, t, ht, hkind, hlexeme⟩
  · rintro ⟨source, tokens, htokens, t, ht, hkind, rfl⟩
    exact isNumberText_of_tokenize htokens ht hkind
  · obtain ⟨n, hread, hvalue⟩ := Number.exists_numeral_of_isNumberText h
    refine ⟨Number.ofNumeral n, hvalue, fun before after hbefore hafter ↦ ?_,
      fun host depth s ↦ run_comparison host depth s h⟩
    have htext : before ++ lexeme ++ after
        = String.ofList (before.toList ++ (lexeme.toList ++ after.toList)) := by
      rw [← String.toList_inj]
      simp
    rw [htext]
    exact Number.ofText_of_blanks hread hbefore hafter

/-- A text that ends in its point, with blanks around the string. -/
theorem pointed_seven_equals_its_text :
    IsNumberText "7.".toList ∧ initial.run Host.none 0 "return 7. == '7.';"
        = (initial, ⟨"", .ok (some (.boolean true))⟩) ∧
      ∃ x, literalValue "7." = .ok (.number x) ∧ Number.ofText "\t7.\n" = x := by
  have hseven : IsNumberText "7.".toList :=
    ⟨['7'], List.cons_ne_nil _ _, List.forall_mem_singleton.mpr rfl, .inr ⟨[], by simp, rfl⟩⟩
  have htab : ∀ c ∈ "\t".toList, isBlank c = true := List.forall_mem_singleton.mpr rfl
  have hnewline : ∀ c ∈ "\n".toList, isBlank c = true := List.forall_mem_singleton.mpr rfl
  obtain ⟨x, hvalue, htext, hrun⟩ := (literal_equals_its_text "7.").2 hseven
  exact ⟨hseven, hrun Host.none 0 initial, x, hvalue, htext "\t" "\n" htab hnewline⟩

end Session

end Scriptlet
