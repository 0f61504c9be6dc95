import Scriptlet.Session
import Scriptlet.Proofs.Eval.Pointwise
import Scriptlet.Proofs.Number.Literals
import Scriptlet.Proofs.Parse.Numerals
import Scriptlet.Proofs.Token.RoundTrip

/-!
# Number literals of source texts

A number is kept as its text until it is evaluated, and then the text may turn out to be no number.
This does not happen to programs that are read from source texts. The texts of number tokens are
literals, the parser copies them into the tree, and trees become the bodies of functions, which a
session keeps from one run to the next.

So the invariant of a session is that every function in its scope has literals only, and that every
builtin there is `print`; the host may offer natives that fail with any message, but no script can
reach them.
-/

namespace Scriptlet

def AreLiterals (lexemes : List String) : Prop :=
  ∀ lexeme ∈ lexemes, (Number.ofLiteral? lexeme).isSome = true

/-! ## Tokens -/

theorem isNumberText_of_tokenize {source : String} {ts : List Token} (h : tokenize source = .ok ts)
    {t : Token} (ht : t ∈ ts) (hkind : t.kind = .number) : IsNumberText t.lexeme.toList := by
  have hraw := rawText_of_tokenize h ht
  generalize t.text.toList = raw, t.lexeme = lexeme at hraw ⊢
  rw [hkind] at hraw
  cases hraw with
  | number h =>
    rw [String.toList_ofList]
    exact h
  | keyword hkeyword _ => exact absurd hkeyword (by decide)
  | symbol hsymbol _ => exact absurd hsymbol (by decide)

theorem areLiterals_of_tokenize {source : String} {ts : List Token}
    (h : tokenize source = .ok ts) : AreLiterals (numberTexts ts) := by
  intro lexeme hlexeme
  obtain ⟨t, ht, hkind, rfl⟩ := mem_numberTexts.mp hlexeme
  exact Number.isSome_ofLiteral? (isNumberText_of_tokenize h ht hkind)

/-! ## Messages -/

/-- The error says of some text that it is no number literal. -/
def RuntimeError.BlamesLiteral (e : RuntimeError) : Prop :=
  ∃ cause lexeme, e = .typeMismatch cause ∧
    cause.details = "'" ++ lexeme ++ "' is not a number literal"

/-- No other error reads like it: most messages begin with another character, and that of a logical
operator ends with the name of a type. -/
theorem RuntimeError.not_blamesLiteral {e : RuntimeError} (h : e.isOrdinary = true) :
    ¬ e.BlamesLiteral := by
  rintro ⟨cause, lexeme, rfl, hdetails⟩
  have hfirst := congrArg (fun s ↦ s.toList.head?) hdetails
  have hlast := congrArg (fun s ↦ s.toList.getLast?) hdetails
  cases cause with
  | notALiteral | reported => cases h
  | notANumber | undefinedSum | operandNotLiteral | operandNotNumber =>
    simp [TypeError.details] at hfirst
  | illogical op found =>
    cases found <;>
      simp [TypeError.details, ValueType.name, List.getLast?_cons, List.getLast?_append] at hlast

/-! ## Evaluation -/

/-- The texts of the numbers in a value. Only script functions have any. -/
def Value.numerals : Value → List String
  | .function f => (Statement.function f.tag f.name f.params f.body).numerals
  | _ => []

/-- The values of a session that has run source texts only. -/
def Value.IsFromSource (v : Value) : Prop :=
  AreLiterals v.numerals ∧ ∀ f, v = .builtin f → f.native = .print

theorem Value.isFromSource_of_isCallable {v : Value} (h : v.isCallable = false) :
    v.IsFromSource := by
  refine ⟨?_, ?_⟩
  · cases v with
    | function => cases h
    | _ => exact fun _ hlexeme ↦ absurd hlexeme List.not_mem_nil
  · rintro f rfl
    cases h

/-- What has number literals only, and no builtin but `print`. -/
def Fragment.fromSource (host : Host) : Fragment host where
  expression e := AreLiterals e.numerals
  statement s := AreLiterals s.numerals
  value := Value.IsFromSource
  parts h part hpart lexeme hlexeme := h lexeme (Expr.mem_collect.mpr (.inr ⟨part, hpart, hlexeme⟩))
  expressions h e he lexeme hlexeme :=
    h lexeme (Statement.mem_collect.mpr (.inr (.inl ⟨e, he, hlexeme⟩)))
  body h r hr lexeme hlexeme :=
    h lexeme (Statement.mem_collect.mpr (.inr (.inr ⟨r, hr, hlexeme⟩)))
  plain := Value.isFromSource_of_isCallable
  function := ⟨fun h ↦ h.1, fun h ↦ ⟨h, fun _ hf ↦ by cases hf⟩⟩
  native := by
    intro f args v hf _ hinvoke
    rcases Builtin.invoke_print (hf.2 f rfl) args with hprint | ⟨_, _, _, hprint⟩ <;>
      rw [hprint] at hinvoke <;> cases hinvoke
    exact Value.isFromSource_of_isCallable rfl
  failure e := ¬ e.BlamesLiteral
  ordinary := RuntimeError.not_blamesLiteral
  literal := by
    intro lexeme e h hliteral
    obtain ⟨x, hx⟩ := Option.isSome_iff_exists.mp (h lexeme List.mem_cons_self)
    rw [literalValue, hx] at hliteral
    cases hliteral
  nativeFailure := by
    intro f args e hf _ hinvoke
    rcases Builtin.invoke_print (hf.2 f rfl) args with hprint | ⟨_, _, _, hprint⟩ <;>
      rw [hprint] at hinvoke <;> cases hinvoke
    exact RuntimeError.not_blamesLiteral rfl

/-! ## Sessions -/

namespace Session

/-- Runs source texts one after another, also behind one that fails. -/
def runAll (host : Host) (depth : Nat) (s : Session) :
    List String → Session × List (Report (Option Value))
  | [] => (s, [])
  | source :: rest =>
    let (next, report) := s.run host depth source
    let (last, reports) := runAll host depth next rest
    (last, report :: reports)

variable {host : Host} {depth : Nat} {s : Session}

/-- What a run of a program of a fragment leaves and reports belongs to the fragment. -/
theorem holds_runProgram {F : Fragment host} {p : Program}
    (hp : ∀ r ∈ (s.load p).2, F.statement r) (hs : s.scope.Holds F.value) :
    (s.runProgram host depth p).1.scope.Holds F.value ∧
      ∀ e, (s.runProgram host depth p).2.result = .error (.runtime e) → F.failure e := by
  have hends : Eval.Ends _ (Scope.Evolves F true s.scope)
      ((Eval.program host depth (s.load p).2).run { scope := s.scope }) :=
    (Eval.evolving_laws F).program (Eval.callLaw_evolving host depth F) hp _ hs
  have hfails : Eval.FailsOnlyWith F.failure _ (Eval.program host depth (s.load p).2)
      { scope := s.scope } :=
    (Eval.failsOnlyWith_laws F).of_program (fun _ _ _ h ↦ by cases h) depth hp hs
  have hrun : s.runProgram host depth p
      = (s.load p).1.evaluate (Eval.program host depth (s.load p).2) := rfl
  have hscope : (s.load p).1.scope = s.scope := rfl
  rw [hrun, evaluate, hscope]
  rcases hresult : (Eval.program host depth (s.load p).2).run { scope := s.scope } with
    ⟨a, w⟩ | ⟨e | _, w⟩ <;> rw [hresult] at hends
  · exact ⟨hends.2.holds hs, fun e he ↦ by cases he⟩
  · refine ⟨hends.holds hs, fun e' he ↦ ?_⟩
    cases he
    exact hfails e w hresult
  · exact ⟨hends.holds hs, fun e he ↦ by cases he⟩

/-- A source text is refused before anything runs, or its tokens are those of a program. -/
theorem compile_cases (source : String) :
    (∃ e, compile source = .error e ∧ ∀ r, e ≠ .runtime r) ∨
      ∃ ts p, tokenize source = .ok ts ∧ parse ts = .ok p ∧ compile source = .ok p := by
  rw [compile]
  rcases tokenize source with e | ts
  · exact .inl ⟨.scan e, rfl, fun _ h ↦ by cases h⟩
  · rcases hp : parse ts with e | p
    · exact .inl ⟨.parse e, by simp only [hp], fun _ h ↦ by cases h⟩
    · exact .inr ⟨ts, p, rfl, hp, by simp only [hp]⟩

theorem holds_run (host : Host) (depth : Nat) (hs : s.scope.Holds Value.IsFromSource)
    (source : String) :
    (s.run host depth source).1.scope.Holds Value.IsFromSource ∧
      ∀ e, (s.run host depth source).2.result = .error (.runtime e) → ¬ e.BlamesLiteral := by
  rw [run]
  rcases compile_cases source with ⟨e, hcompile, he⟩ | ⟨ts, p, hts, hp, hcompile⟩ <;> rw [hcompile]
  · refine ⟨hs, fun r hr ↦ ?_⟩
    cases hr
    exact absurd rfl (he r)
  · refine holds_runProgram (F := .fromSource host) (fun r hr lexeme hlexeme ↦ ?_) hs
    apply areLiterals_of_tokenize hts
    rw [← Parse.numerals_of_parse hp, ← Statement.numerals_numberAllFrom s.nextTag p]
    exact List.mem_flatMap.mpr ⟨r, hr, hlexeme⟩

theorem holds_runAll (host : Host) (depth : Nat) (hs : s.scope.Holds Value.IsFromSource)
    (sources : List String) :
    (s.runAll host depth sources).1.scope.Holds Value.IsFromSource ∧
      ∀ report ∈ (s.runAll host depth sources).2, ∀ e,
        report.result = .error (.runtime e) → ¬ e.BlamesLiteral := by
  induction sources generalizing s with
  | nil => exact ⟨hs, fun _ h ↦ absurd h List.not_mem_nil⟩
  | cons source rest ih =>
    obtain ⟨hnext, hreport⟩ := holds_run host depth hs source
    obtain ⟨hlast, hreports⟩ := ih hnext
    exact ⟨hlast, List.forall_mem_cons.mpr ⟨hreport, hreports⟩⟩

theorem holds_initial : initial.scope.Holds Value.IsFromSource := by
  have hbindings : initial.scope.bindings = [("print", .builtin ⟨0, "print", 1, .print⟩)] := rfl
  refine Scope.holds_of_forall_bindings fun p hp ↦ ?_
  rw [hbindings, List.mem_singleton] at hp
  rw [hp]
  refine ⟨fun _ h ↦ absurd h List.not_mem_nil, ?_⟩
  rintro f ⟨⟩
  rfl

/-- Whatever source texts a session runs, no run ever finds a number that is no literal. The texts
of the number tokens are literals, they are the numbers of the program that is read, and the numbers
of all functions that the session comes to hold are literals too. -/
theorem source_has_no_malformed_literal (host : Host) (depth : Nat) :
    (∀ source ts t, tokenize source = .ok ts → t ∈ ts → t.kind = .number →
      (Number.ofLiteral? t.lexeme).isSome = true) ∧
    (∀ source ts p, tokenize source = .ok ts → parse ts = .ok p →
      p.flatMap Statement.numerals = numberTexts ts ∧ AreLiterals (numberTexts ts)) ∧
    ∀ sources,
      (initial.runAll host depth sources).1.scope.Holds (fun v ↦ AreLiterals v.numerals) ∧
      ∀ report ∈ (initial.runAll host depth sources).2, ∀ e,
        report.result = .error (.runtime e) → ¬ e.BlamesLiteral := by
  refine ⟨fun source ts t h ht hkind ↦ ?_, fun source ts p h hp ↦ ?_, fun sources ↦ ?_⟩
  · exact Number.isSome_ofLiteral? (isNumberText_of_tokenize h ht hkind)
  · exact ⟨Parse.numerals_of_parse hp, areLiterals_of_tokenize h⟩
  · obtain ⟨hscope, hreports⟩ := holds_runAll host depth holds_initial sources
    exact ⟨fun level name v hv ↦ (hscope level name v hv).1, hreports⟩

/-- A text that defines a function with a literal that ends in a point, one that is refused, and one
that takes a call of the function for the operand of a sign. -/
def pointTexts : List String := ["function f() \x7b return 1. \x7d", "f(", "-f()"]

def pointTokens : List Token :=
  [⟨.keyFunction, "function", 1⟩, ⟨.identifier, "f", 1⟩, ⟨.leftParen, "(", 1⟩,
    ⟨.rightParen, ")", 1⟩, ⟨.leftBrace, "\x7b", 1⟩, ⟨.keyReturn, "return", 1⟩, ⟨.number, "1.", 1⟩,
    ⟨.rightBrace, "\x7d", 1⟩]

theorem pointTexts_blame_no_literal :
    (Number.ofLiteral? "1.").isSome = true ∧
      ∃ defined refused failed,
        (initial.runAll Host.none 1 pointTexts).2 = [defined, refused, failed] ∧
        failed.result = .error (.runtime (.typeMismatch (.operandNotLiteral .negate))) ∧
        ¬ RuntimeError.BlamesLiteral (.typeMismatch (.operandNotLiteral .negate)) := by
  have hfirst : tokenize "function f() \x7b return 1. \x7d" = .ok pointTokens := by decide
  have hsecond : tokenize "f(" = .ok [⟨.identifier, "f", 1⟩, ⟨.leftParen, "(", 1⟩] := by decide
  have hthird : tokenize "-f()" = .ok [⟨.minus, "-", 1⟩, ⟨.identifier, "f", 1⟩,
      ⟨.leftParen, "(", 1⟩, ⟨.rightParen, ")", 1⟩] := by decide
  have hruns : ∃ defined refused failed,
      (initial.runAll Host.none 1 pointTexts).2 = [defined, refused, failed] ∧
        failed.result = .error (.runtime (.typeMismatch (.operandNotLiteral .negate))) := by
    simp only [pointTexts, runAll, run, compile, hfirst, hsecond, hthird]
    exact ⟨_, _, _, rfl, rfl⟩
  obtain ⟨defined, refused, failed, hreports, hfailed⟩ := hruns
  have h := source_has_no_malformed_literal Host.none 1
  refine ⟨?_, defined, refused, failed, hreports, hfailed, ?_⟩
  · exact h.1 _ _ ⟨.number, "1.", 1⟩ hfirst (by decide) rfl
  · exact (h.2.2 pointTexts).2 failed (by simp [hreports]) _ hfailed

end Session

end Scriptlet
