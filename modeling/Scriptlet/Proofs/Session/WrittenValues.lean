import Scriptlet.Proofs.Number.Display
import Scriptlet.Proofs.Number.Literals
import Scriptlet.Proofs.Parse.Lines
import Scriptlet.Proofs.Session.Concatenation
import Scriptlet.Proofs.Token.RoundTrip

/-!
# Values written as literals

A string in quotes and a displayed number are expressions for themselves: a program that returns
what was written returns the value, and leaves the session as it was.

Of a string the quotes are taken off again, whatever stands between them. A displayed number is a
number token as long as it has no exponent, and its text is rounded to the number. A minus in front
of it is a token of its own, and negating turns the sign of the rounded number around.
-/

namespace Scriptlet

/-! ## Texts of literals -/

namespace Number

variable {text : List Char} {p : Nat} {x : Float}

theorem ofLiteral?_of_readsAs (hnumber : IsNumberText text) (h : ReadsAs text p) :
    ofLiteral? (String.ofList text) = some (ofParts false p) := by
  obtain ⟨-, n, hread, hnegative, hpattern⟩ := h
  have hdecimal : IsDecimal (String.ofList text).toList := by
    rw [String.toList_ofList]
    exact .of_isNumberText hnumber
  rw [ofLiteral?_of_isDecimal hdecimal, String.toList_ofList, hread, Option.map_some, ofNumeral,
    hnegative, hpattern]

theorem isExtreme_eq_false (hlow : 1e-6 ≤ x.abs) (hhigh : x.abs < 1e21) : isExtreme x = false := by
  rw [isExtreme, Bool.or_eq_false_iff, decide_eq_false_iff_not, decide_eq_false_iff_not]
  exact ⟨not_lt_of_le hlow, fun h ↦ not_lt_of_le h hhigh⟩

/-- Without an exponent the text of a number is that of a token. -/
theorem isNumberText_bodyText (hpos : 0 < magnitude x) (h : magnitude x < Binary64.infinity)
    (hextreme : isExtreme x = false) : IsNumberText (bodyText x) := by
  obtain ⟨hdigits, -⟩ := Decimal.bounds_shortest hpos h
  have hpositional := isNumberText_positional (digitsAndPoint_ne_nil hdigits)
    (fun c hc ↦ isDigit_of_mem_digitsAndPoint hc)
    (digitsAndPoint (Decimal.shortest (magnitude x))).2
  unfold bodyText
  rwa [if_neg (Bool.eq_false_iff.mp hextreme)]

/-- A displayed number without an exponent is a literal, with a minus in front of it or none. -/
theorem exists_literal (hfinite : x.isFinite = true)
    (hrange : (x == 0.0) = true ∨ 1e-6 ≤ x.abs ∧ x.abs < 1e21) :
    ∃ negative text p, display x = signText negative ++ String.ofList text ∧
      IsNumberText text ∧ ReadsAs text p ∧ p ≤ Binary64.infinity ∧
      (ofParts negative p == x) = true := by
  have hlt := isFinite_iff.mp hfinite
  rcases Nat.eq_zero_or_pos (magnitude x) with hzero | hpos
  · -- zero is displayed without its sign
    have hnumber : IsNumberText ['0'] :=
      ⟨['0'], List.cons_ne_nil _ _, List.forall_mem_singleton.mpr rfl, .inl rfl⟩
    have hreads : ReadsAs ['0'] 0 := ⟨rfl, { whole := ['0'] }, by decide, rfl, by decide⟩
    refine ⟨false, ['0'], 0, display_of_zero hzero, hnumber, hreads, Nat.zero_le _, ?_⟩
    exact beq_iff.mpr ⟨by decide +kernel, .inr ⟨by decide +kernel, hzero⟩⟩
  · have hextreme : isExtreme x = false := by
      rcases hrange with hzero | ⟨hlow, hhigh⟩
      · exact absurd (beq_zero_iff.mp hzero) (Nat.ne_of_gt hpos)
      · exact isExtreme_eq_false hlow hhigh
    refine ⟨isNegative x, bodyText x, magnitude x, display_of_finite hpos hlt,
      isNumberText_bodyText hpos hlt hextreme, readsAs_bodyText hpos hlt, Nat.le_of_lt hlt, ?_⟩
    rw [ofParts_self]
    exact beq_self (isNaN_eq_false_iff.mpr (Nat.le_of_lt hlt))

end Number

/-! ## Tokens of a return -/

/-- The tokens of a statement that returns what the given tokens stand for. -/
def returnTokens (ts : List Token) : List Token :=
  ⟨.keyReturn, "return", 1⟩ :: (ts ++ [⟨.semicolon, ";", 1⟩])

theorem yields_return {body : String} {ts : List Token}
    (h : Yields (body ++ ";") (ts ++ [⟨.semicolon, ";", 1⟩])) :
    Yields ("return " ++ body ++ ";") (returnTokens ts) := by
  have hreturn : RawText .keyReturn "return" "return".toList := .keyword (by decide) (by decide)
  have htext : "return " ++ body ++ ";" = "return" ++ (" " ++ (body ++ ";")) := by
    rw [← String.toList_inj]
    simp
  rw [htext]
  exact h.cons_space (t := ⟨.keyReturn, "return", 1⟩) hreturn

theorem yields_token {t : Token} (h : RawText t.kind t.lexeme t.text.toList)
    (hend : ¬ Extends t.kind t.text.toList ';') :
    Yields (t.text ++ ";") [t, ⟨.semicolon, ";", 1⟩] := by
  have hsemicolon : RawText .semicolon ";" ";".toList := .symbol (by decide) (by decide)
  have hlast := yields_empty.cons (t := ⟨.semicolon, ";", 1⟩) hsemicolon fun c hc ↦ by cases hc
  refine Yields.cons hlast h fun c hc ↦ ?_
  obtain rfl : ';' = c := Option.some.inj hc
  exact hend

namespace Session

variable (host : Host) (depth : Nat) (s : Session)

theorem run_of_yields {source : String} {ts : List Token} {p : Program} (h : Yields source ts)
    (hp : parse ts = .ok p) : s.run host depth source = s.runProgram host depth p := by
  obtain ⟨us, hus, hsame⟩ := h
  rcases Parse.parse_of_sameTokens hsame with ⟨q, hq, hp'⟩ | ⟨e, e', -, he, -⟩
  · obtain rfl : p = q := Except.ok.inj (hp.symm.trans hp')
    exact run_of_parse host depth s hus hq
  · cases hp.symm.trans he

/-- A program that returns the value of an expression without an effect. -/
theorem runProgram_returns {e : Expr} {v : Value}
    (h : Eval.expr host (Eval.callWithin host depth) e = pure v) (hv : v.isCallable = false) :
    s.runProgram host depth [.returns e] = (s, ⟨"", .ok (some v)⟩) := by
  simp only [runProgram, load, Statement.numberAllFrom, Statement.numberFrom, evaluate,
    Eval.program, Eval.block, Eval.statements, Eval.statement, h, hv, pure_bind]
  rfl

theorem run_return_string {t : Token} (hkind : t.kind = .string) {quote : Char}
    (hquote : isQuote quote = true) (hinner : quote ∉ t.lexeme.toList) :
    s.run host depth ("return " ++ t.text ++ ";") = (s, ⟨"", .ok (some (.string t.lexeme))⟩) := by
  have hraw := Token.rawText_text_of_string hkind hquote hinner
  have hend : ¬ Extends t.kind t.text.toList ';' := by
    rw [hkind]
    exact fun h ↦ absurd h.1 (by decide)
  have hparse : parse (returnTokens [t]) = .ok [.returns (.string t.lexeme)] := by
    obtain ⟨kind, lexeme, line⟩ := t
    obtain rfl : kind = .string := hkind
    rfl
  rw [run_of_yields host depth s (yields_return (yields_token hraw hend)) hparse]
  refine runProgram_returns host depth s ?_ rfl
  simp only [Eval.expr]

section Numbers

variable {text : List Char} {p : Nat} (hnumber : IsNumberText text) (hreads : Number.ReadsAs text p)

include hnumber hreads

theorem literalValue_of_readsAs :
    literalValue (String.ofList text) = .ok (.number (Number.ofParts false p)) := by
  rw [literalValue, Number.ofLiteral?_of_readsAs hnumber hreads]

omit hreads in
theorem yields_number : Yields (String.ofList text ++ ";")
    [⟨.number, String.ofList text, 1⟩, ⟨.semicolon, ";", 1⟩] := by
  have hraw : RawText .number (String.ofList text) (String.ofList text).toList := by
    rw [String.toList_ofList]
    exact .number hnumber
  have hend : ¬ Extends .number (String.ofList text).toList ';' := by
    simp [Extends]
  exact yields_token (t := ⟨.number, String.ofList text, 1⟩) hraw hend

theorem run_return_number :
    s.run host depth ("return " ++ String.ofList text ++ ";")
      = (s, ⟨"", .ok (some (.number (Number.ofParts false p)))⟩) := by
  have hparse : parse (returnTokens [⟨.number, String.ofList text, 1⟩])
      = .ok [.returns (.number (String.ofList text))] := rfl
  rw [run_of_yields host depth s (yields_return (yields_number hnumber)) hparse]
  refine runProgram_returns host depth s ?_ rfl
  rw [Eval.expr, literalValue_of_readsAs hnumber hreads]
  rfl

/-- The minus is an operator on the literal behind it. -/
theorem run_return_negative (hp : p ≤ Binary64.infinity) :
    s.run host depth ("return " ++ ("-" ++ String.ofList text) ++ ";")
      = (s, ⟨"", .ok (some (.number (Number.ofParts true p)))⟩) := by
  have hminus : RawText .minus "-" "-".toList := .symbol (by decide) (by decide)
  have hyields : Yields ("-" ++ String.ofList text ++ ";")
      [⟨.minus, "-", 1⟩, ⟨.number, String.ofList text, 1⟩, ⟨.semicolon, ";", 1⟩] := by
    rw [String.append_assoc]
    exact (yields_number hnumber).cons (t := ⟨.minus, "-", 1⟩) hminus
      fun c _ h ↦ absurd h.1 (by decide)
  have hparse : parse (returnTokens [⟨.minus, "-", 1⟩, ⟨.number, String.ofList text, 1⟩])
      = .ok [.returns (.unary .negate (.number (String.ofList text)))] := rfl
  rw [run_of_yields host depth s (yields_return hyields) hparse]
  refine runProgram_returns host depth s ?_ rfl
  have hneg : -Number.ofParts false p = Number.ofParts true p := Number.neg_ofParts false hp
  rw [Eval.expr, literalValue_of_readsAs hnumber hreads, ← hneg]
  rfl

end Numbers

/-- What is written for a string that lacks one of the quotes, or for a number that needs no
exponent, is an expression for it: returning it gives back the value, prints nothing and leaves the
session as it was. -/
theorem written_values_return_themselves :
    (∀ t : Token, t.kind = .string → '"' ∉ t.lexeme.toList ∨ '\'' ∉ t.lexeme.toList →
      s.run host depth ("return " ++ t.text ++ ";") = (s, ⟨"", .ok (some (.string t.lexeme))⟩)) ∧
    ∀ x : Float, x.isFinite = true → (x == 0.0) = true ∨ 1e-6 ≤ x.abs ∧ x.abs < 1e21 →
      ∃ y, s.run host depth ("return " ++ Number.display x ++ ";")
        = (s, ⟨"", .ok (some (.number y))⟩) ∧ (y == x) = true := by
  constructor
  · rintro t hkind (hinner | hinner)
    · exact run_return_string host depth s hkind rfl hinner
    · exact run_return_string host depth s hkind rfl hinner
  · intro x hfinite hrange
    obtain ⟨negative, text, p, hdisplay, hnumber, hreads, hp, hequal⟩ :=
      Number.exists_literal hfinite hrange
    refine ⟨Number.ofParts negative p, ?_, hequal⟩
    rw [hdisplay]
    rcases negative with _ | _
    · rw [Number.signText_false, String.empty_append]
      exact run_return_number host depth s hnumber hreads
    · rw [Number.signText_true]
      exact run_return_negative host depth s hnumber hreads hp

/-- A string with a quote and a line end in it, and a negative number next to those with an
exponent. -/
theorem quoted_line_and_small_number_return_themselves :
    initial.run Host.none 0 ("return " ++ (Token.mk .string "it's\nthere" 1).text ++ ";")
        = (initial, ⟨"", .ok (some (.string "it's\nthere"))⟩) ∧
      1e-6 ≤ (-1e-6 : Float).abs ∧ (-1e-6 : Float).abs < 1e21 ∧
      ∃ y, initial.run Host.none 0 ("return " ++ Number.display (-1e-6) ++ ";")
        = (initial, ⟨"", .ok (some (.number y))⟩) ∧ (y == -1e-6) = true := by
  have hlow : 1e-6 ≤ (-1e-6 : Float).abs := by decide +kernel
  have hhigh : (-1e-6 : Float).abs < 1e21 := by decide +kernel
  obtain ⟨hstring, hnumber⟩ := written_values_return_themselves Host.none 0 initial
  exact ⟨hstring ⟨.string, "it's\nthere", 1⟩ rfl (.inl (by decide)), hlow, hhigh,
    hnumber (-1e-6) (by decide +kernel) (.inr ⟨hlow, hhigh⟩)⟩

end Session

end Scriptlet
