import Scriptlet.Session
import Scriptlet.Proofs.Parse.Joining
import Scriptlet.Proofs.Eval.Rules
import Scriptlet.Proofs.Eval.Sequences

/-!
# Running texts one after another

Running two source texts one after the other is running them as one text, with a line end between
them.

Scanning, parsing and numbering each take the concatenation to a concatenation, and so does
evaluation: the second part is evaluated if the first ends normally, and then it sees nothing of the
first but the world (`program_append`). Nor does it look at what has been printed, so what it prints
itself can be told apart (`printsOnly_rules`).
-/

namespace Scriptlet

/-! ## Printing -/

def World.behind (text : String) (w : World) : World := { w with printed := text ++ w.printed }

theorem World.scope_behind (text : String) (w : World) : (w.behind text).scope = w.scope := rfl

namespace Eval

def outcomeBehind {α : Type} (text : String) :
    EStateM.Result Halt World α → EStateM.Result Halt World α
  | .ok a w => .ok a (w.behind text)
  | .error e w => .error e (w.behind text)

/-- The evaluation adds to what has been printed, and does not look at it. -/
def PrintsOnly (α : Type) (act : EvalM α) : Prop :=
  ∀ text w, act.run (w.behind text) = outcomeBehind text (act.run w)

section Printing

variable {α β : Type}

theorem PrintsOnly.bind {x : EvalM α} {f : α → EvalM β} (hx : PrintsOnly α x)
    (hf : ∀ a, PrintsOnly β (f a)) : PrintsOnly β (x >>= f) := by
  intro text w
  rw [EStateM.run_bind, EStateM.run_bind, hx text w]
  rcases x.run w with ⟨a, v⟩ | ⟨e, v⟩
  · exact hf a text v
  · rfl

theorem printsOnly_lookup (name : String) : PrintsOnly Value (lookup name) := by
  intro text w
  rw [run_lookup, run_lookup, World.scope_behind]
  split <;> rfl

theorem printsOnly_ofNative (r : NativeResult) : PrintsOnly Value (ofNative r) := by
  intro text w
  obtain ⟨printed, result⟩ := r
  have hprinted : text ++ w.printed ++ printed = text ++ (w.printed ++ printed) :=
    String.append_assoc
  have hworld : World.mk w.scope (text ++ w.printed ++ printed)
      = World.behind text ⟨w.scope, w.printed ++ printed⟩ := by
    rw [hprinted]
    rfl
  rcases result with e | v
  · exact congrArg (EStateM.Result.error (Halt.error e)) hworld
  · exact congrArg (EStateM.Result.ok v) hworld

theorem printsOnly_assign (name : String) (v : Value) : PrintsOnly Unit (assign name v) := by
  intro text w
  rw [run_assign, run_assign, World.scope_behind]
  split <;> rfl

theorem printsOnly_within (frame : Frame) {body : EvalM α} (hbody : PrintsOnly α body) :
    PrintsOnly α (within frame body) := by
  intro text w
  have hrun := hbody text { w with scope := w.scope.push frame }
  have hstart : { w.behind text with scope := (w.behind text).scope.push frame }
      = World.behind text { w with scope := w.scope.push frame } := rfl
  rw [run_within, run_within, hstart, hrun]
  rcases body.run { w with scope := w.scope.push frame } with ⟨a, v⟩ | ⟨e, v⟩
  · rfl
  · rfl

/-- No effect looks at what has been printed. -/
theorem printsOnly_rules : StatementRules PrintsOnly PrintsOnly := by
  have hsequence : SequenceRules PrintsOnly :=
    { pure := fun a text w ↦ rfl
      throw := fun e text w ↦ rfl
      bind := fun hx hf ↦ hx.bind hf }
  exact
    { hsequence with
      expressions :=
        { hsequence with
          lookup := printsOnly_lookup
          ofNative := printsOnly_ofNative }
      ofExpression := fun hx ↦ hx
      isDefined := fun name text w ↦ rfl
      define := fun name v text w ↦ rfl
      assign := printsOnly_assign
      within := printsOnly_within }

end Printing

/-- What has been printed before an evaluation only stands in front of what it prints. -/
theorem run_program_of_printed (host : Host) (depth : Nat) (p : List (Statement Nat)) (w : World) :
    (program host depth p).run w
      = outcomeBehind w.printed ((program host depth p).run { scope := w.scope }) := by
  have hworld : w = World.behind w.printed { scope := w.scope } := by
    show w = ⟨w.scope, w.printed ++ ""⟩
    rw [String.append_empty]
  have hprints : PrintsOnly _ (program host depth p) := printsOnly_rules.program depth p
  rw [← hprints, ← hworld]

end Eval

/-! ## Numbering -/

theorem continuesBranch_numberFrom {ι : Type} (next : Nat) (s : Statement ι) :
    Parse.continuesBranch (s.numberFrom next).1 = Parse.continuesBranch s := by
  cases s <;> rfl

theorem independent_numberAllFrom {ι : Type} {q : List (Statement ι)} (hq : Parse.Independent q)
    (next : Nat) : Parse.Independent (Statement.numberAllFrom next q).1 := by
  rcases q with _ | ⟨s, q⟩
  · intro r hr
    cases hr
  · intro r hr
    have hfirst : (s.numberFrom next).1 = r := Option.some.inj hr
    rw [← hfirst, continuesBranch_numberFrom]
    exact hq s rfl

/-! ## Runs -/

namespace Session

/-- What a run gives: the session after it, the text it printed and its result. -/
abbrev Outcome := Session × Report (Option Value)

/-- Goes on in the session after a run that ended without a value. The outcome of any other run
stands. -/
def followedBy (first : Outcome) (next : Session → Outcome) : Outcome :=
  match first.2.result with
  | .ok none =>
    let second := next first.1
    (second.1, ⟨first.2.printed ++ second.2.printed, second.2.result⟩)
  | _ => first

/-- The outcomes agree in result, printed text and scope. -/
structure SameRun (o o' : Outcome) : Prop where
  result : o.2.result = o'.2.result
  printed : o.2.printed = o'.2.printed
  scope : o.1.scope = o'.1.scope

variable (host : Host) (depth : Nat) (s : Session)

theorem runProgram_append {q : Program} (hq : Parse.Independent q) (p : Program) :
    SameRun (s.runProgram host depth (p ++ q))
      (followedBy (s.runProgram host depth p) fun s ↦ s.runProgram host depth q) := by
  have hind := independent_numberAllFrom hq (Statement.numberAllFrom s.nextTag p).2
  simp only [runProgram, load, evaluate, Statement.numberAllFrom_append,
    Eval.program_append depth hind, EStateM.run_bind]
  rcases (Eval.program host depth (Statement.numberAllFrom s.nextTag p).1).run { scope := s.scope }
    with ⟨_ | v, w⟩ | ⟨_ | _, w⟩
  · -- the first program ends normally, and the second starts where it ended
    dsimp only [followedBy]
    rw [Eval.run_program_of_printed]
    rcases (Eval.program host depth _).run { scope := w.scope } with ⟨a, v⟩ | ⟨_ | _, v⟩
    · exact ⟨rfl, rfl, rfl⟩
    · exact ⟨rfl, rfl, rfl⟩
    · exact ⟨rfl, rfl, rfl⟩
  · exact ⟨rfl, rfl, rfl⟩
  · exact ⟨rfl, rfl, rfl⟩
  · exact ⟨rfl, rfl, rfl⟩

theorem run_of_parse {source : String} {ts : List Token} {p : Program}
    (hts : tokenize source = .ok ts) (hp : parse ts = .ok p) :
    s.run host depth source = s.runProgram host depth p := by
  simp only [run, compile, hts, hp]

/-- Running two texts one after the other is running them as one text with a line end between them,
if both can be read and the tokens of the first are complete. The second text starts with no `elif`
or `else`, since it could not be read by itself if it did. -/
theorem run_newline_sameRun {a b : String} {ta tb : List Token} {p q : Program}
    (ha : tokenize a = .ok ta) (hp : parse ta = .ok p) (hcomplete : Parse.Complete ta)
    (hb : tokenize b = .ok tb) (hq : parse tb = .ok q) :
    SameRun (s.run host depth (a ++ "\n" ++ b))
      (followedBy (s.run host depth a) fun s ↦ s.run host depth b) := by
  obtain ⟨k, hab⟩ := tokenize_newline ha hb
  have hpq := Parse.parse_append hp hcomplete hq k
  have hnext : (fun s : Session ↦ s.run host depth b) = fun s ↦ s.runProgram host depth q :=
    funext fun s ↦ run_of_parse host depth s hb hq
  rw [run_of_parse host depth s hab hpq, run_of_parse host depth s ha hp, hnext]
  exact runProgram_append host depth s (Parse.independent_of_parse hq) p

/-- A branch that was taken in the first text does not matter to the chain in the second. -/
theorem sameRun_behind_taken_branch :
    SameRun
      (initial.run Host.none 1
        ("if (true) \x7b let x = 1; \x7d" ++ "\n" ++ "if (x) \x7b return 2 \x7d"))
      (followedBy (initial.run Host.none 1 "if (true) \x7b let x = 1; \x7d")
        fun s ↦ s.run Host.none 1 "if (x) \x7b return 2 \x7d") := by
  have ha : tokenize "if (true) \x7b let x = 1; \x7d"
      = .ok [⟨.keyIf, "if", 1⟩, ⟨.leftParen, "(", 1⟩, ⟨.keyTrue, "true", 1⟩,
          ⟨.rightParen, ")", 1⟩, ⟨.leftBrace, "\x7b", 1⟩, ⟨.keyLet, "let", 1⟩,
          ⟨.identifier, "x", 1⟩, ⟨.assign, "=", 1⟩, ⟨.number, "1", 1⟩, ⟨.semicolon, ";", 1⟩,
          ⟨.rightBrace, "\x7d", 1⟩] := by
    decide
  have hb : tokenize "if (x) \x7b return 2 \x7d"
      = .ok [⟨.keyIf, "if", 1⟩, ⟨.leftParen, "(", 1⟩, ⟨.identifier, "x", 1⟩,
          ⟨.rightParen, ")", 1⟩, ⟨.leftBrace, "\x7b", 1⟩, ⟨.keyReturn, "return", 1⟩,
          ⟨.number, "2", 1⟩, ⟨.rightBrace, "\x7d", 1⟩] := by
    decide
  exact run_newline_sameRun Host.none 1 initial ha rfl (by decide) hb rfl

end Session

end Scriptlet
