import Scriptlet.Proofs.Parse.Cursor

/-!
# Reading without bounds

The recursion equations of the readers, with the bounds gone. Each says how a reader goes on after
the token in front of it, in terms of `expression`, `statement` and `block` themselves.

The equations for expressions and statements are those of the standard grammar, one for each way
in which a phrase can start. Later modules use them in place of the definitions.
-/

namespace Scriptlet.Parse

variable {cx : Context} {t : Token} {ts : List Token}

/-! ## The loop of tails -/

def tailsOf (cx : Context) (min : Precedence) (left : Expr) : ParseM Expr := do
  tails cx (expression cx) min (← get).length left

theorem run_tailsOf_nil (min : Precedence) (left : Expr) :
    (tailsOf cx min left).run [] = .ok left [] := rfl

/-- The tokens that end an expression bind nothing, so they need no test of their own. -/
theorem precedence_of_endsExpression {kind : TokenKind} (h : kind.endsExpression = true) :
    kind.precedence = .lowest := by
  cases kind <;> first | rfl | cases h

theorem run_tailsOf_stop {min : Precedence} (left : Expr) (h : t.kind.precedence ≤ min) :
    (tailsOf cx min left).run (t :: ts) = .ok left (t :: ts) := by
  have htest : (t.kind.endsExpression || t.kind.precedence ≤ min) = true := by
    rw [Bool.or_eq_true]
    exact Or.inr (decide_eq_true h)
  rw [tailsOf, run_bind_of_ok (EStateM.run_get _), List.length_cons, tails,
    run_bind_of_ok (run_peek _), List.head?_cons]
  dsimp only
  rw [if_pos htest, EStateM.run_pure]

theorem run_tailsOf_cons {min : Precedence} {rule : TailRule} (left : Expr)
    (h : ¬ t.kind.precedence ≤ min) (hrule : cx.grammar.tail? t.kind = some rule) :
    (tailsOf cx min left).run (t :: ts)
      = (tail cx (expression cx) left t.kind.precedence rule >>= tailsOf cx min).run
          (t :: ts) := by
  have htest : ¬ (t.kind.endsExpression || t.kind.precedence ≤ min) = true := by
    rw [Bool.or_eq_true]
    rintro (hend | hle)
    · rw [precedence_of_endsExpression hend] at h
      exact h (Nat.zero_le _)
    · exact h (of_decide_eq_true hle)
  have hinner : ∀ r : List Token, r.length < ts.length + 1 → ∀ min,
      Agree 1 (expression cx min) (expression cx min) r :=
    fun r _ min ↦ (agree_expression (Nat.le_refl _) min).right
  rw [tailsOf, run_bind_of_ok (EStateM.run_get _), List.length_cons, tails,
    run_bind_of_ok (run_peek _), List.head?_cons]
  dsimp only
  rw [if_neg htest, hrule]
  refine ((agree_tail hinner left _ rule (Nat.le_refl _)).bind fun longer r _ hr ↦ ?_).run_eq
  rw [List.length_cons] at hr
  exact (agree_tails hinner min (by omega) (by omega) (Nat.le_refl _)).of_run_eq rfl rfl

/-! ## Expressions -/

theorem run_expression_nil (min : Precedence) :
    (expression cx min).run [] = .error (.unexpectedEnd .expression cx.endLine) [] := rfl

theorem run_expression_refused (min : Precedence) (hrule : cx.grammar.term? t.kind = none) :
    (expression cx min).run (t :: ts) = .error (.noTermRule t) (t :: ts) := by
  rw [expression, run_bind_of_ok (EStateM.run_get _), List.length_cons, expressionAt,
    run_bind_of_ok (run_peek _), List.head?_cons]
  dsimp only
  rw [hrule]
  rfl

theorem run_expression_cons {rule : TermRule} (min : Precedence)
    (hrule : cx.grammar.term? t.kind = some rule) :
    (expression cx min).run (t :: ts)
      = (term cx (expression cx) ts.length rule >>= tailsOf cx min).run (t :: ts) := by
  have hinner : ∀ r : List Token, r.length < ts.length + 1 → ∀ min,
      Agree 1 (expressionAt cx ts.length min) (expression cx min) r :=
    fun r hr min ↦ agree_expression (by omega) min
  rw [expression, run_bind_of_ok (EStateM.run_get _), List.length_cons, expressionAt,
    run_bind_of_ok (run_peek _), List.head?_cons]
  dsimp only
  rw [hrule]
  refine ((agree_term hinner rule ?_ ?_ ?_).bind fun left r _ hr ↦ ?_).run_eq
  · exact Nat.le_refl _
  · exact Nat.le_refl _
  · exact Nat.le_refl _
  · rw [List.length_cons] at hr
    exact (agree_tails hinner min (by omega) (by omega) (Nat.le_refl _)).of_run_eq rfl rfl

/-! ## Lists of statements -/

def sequence (cx : Context) (closing : Option TokenKind) (afterBranch : Bool) :
    ParseM (List (Statement Unit)) := do
  statements cx (statement cx) closing (← get).length afterBranch

theorem agree_sequence {b : Nat} (hb : ts.length ≤ b) (closing : Option TokenKind)
    (afterBranch : Bool) :
    Agree 0 (statements cx (statementAt cx b) closing b afterBranch)
      (sequence cx closing afterBranch) ts :=
  (agree_statements (fun _ hr ↦ agree_statement (Nat.le_trans hr hb)) closing (Nat.le_refl _) hb
    (Nat.le_refl _)).of_run_eq rfl rfl

theorem run_program (ts : List Token) :
    (program cx).run ts = (sequence cx none false).run ts :=
  (agree_sequence (Nat.le_refl _) none false).run_eq

theorem agree_block {b : Nat} (hb : ts.length ≤ b + 1) :
    Agree 1 (blockOf cx (statementAt cx b) b) (block cx) ts := by
  refine (agree_blockOf (fun r hr ↦ ?_) hb (Nat.le_succ _)).of_run_eq rfl rfl
  exact agree_statementAt (by omega) (by omega)

theorem run_block (ts : List Token) :
    (block cx).run ts
      = (do
          let _ ← expect cx .leftBrace
          sequence cx (some .rightBrace) false).run ts := by
  refine (Agree.bind (agree_expect cx .leftBrace ts) fun _ _ _ hr ↦ ?_).run_eq
  refine (agree_statements (fun r' hr' ↦ ?_) _ (Nat.le_refl _) ?_ (Nat.le_refl _)).of_run_eq rfl rfl
  · exact agree_statement (by omega)
  · omega

theorem run_sequence_nil (closing : Option TokenKind) (afterBranch : Bool) :
    (sequence cx closing afterBranch).run []
      = match closing with
        | some kind => .error (.unexpectedEnd (.token kind) cx.endLine) []
        | none => .ok [] [] := by
  cases closing <;> rfl

theorem run_statements_cons (s : ParseM (Statement Unit)) (closing : Option TokenKind) (b : Nat)
    (afterBranch : Bool) (t : Token) (ts : List Token) :
    (statements cx s closing (b + 1) afterBranch).run (t :: ts)
      = (if some t.kind = closing then do
          let _ ← advance
          return []
        else if (t.kind = .keyElif || t.kind = .keyElse) && !afterBranch then
          throw (.danglingBranch t)
        else do
          let x ← s
          let rest ← statements cx s closing b x.opensBranch
          return x :: rest : ParseM (List (Statement Unit))).run (t :: ts) := by
  cases closing <;> rfl

theorem run_sequence_close {closing : Option TokenKind} (afterBranch : Bool)
    (ht : some t.kind = closing) :
    (sequence cx closing afterBranch).run (t :: ts) = .ok [] ts := by
  rw [sequence, run_bind_of_ok (EStateM.run_get _), List.length_cons, run_statements_cons]
  rw [if_pos ht]
  rfl

theorem run_sequence_dangling {closing : Option TokenKind} (ht : some t.kind ≠ closing)
    (hk : t.kind = .keyElif ∨ t.kind = .keyElse) :
    (sequence cx closing false).run (t :: ts) = .error (.danglingBranch t) (t :: ts) := by
  have htest : ((t.kind = .keyElif || t.kind = .keyElse) && !false) = true := by
    rw [Bool.not_false, Bool.and_true, Bool.or_eq_true, decide_eq_true_iff, decide_eq_true_iff]
    exact hk
  rw [sequence, run_bind_of_ok (EStateM.run_get _), List.length_cons, run_statements_cons]
  rw [if_neg ht, if_pos htest]
  rfl

theorem run_sequence_cons {closing : Option TokenKind} {afterBranch : Bool}
    (ht : some t.kind ≠ closing)
    (hk : t.kind = .keyElif ∨ t.kind = .keyElse → afterBranch = true) :
    (sequence cx closing afterBranch).run (t :: ts)
      = (do
          let s ← statement cx
          let rest ← sequence cx closing s.opensBranch
          return s :: rest).run (t :: ts) := by
  have htest : ¬ ((t.kind = .keyElif || t.kind = .keyElse) && !afterBranch) = true := by
    rw [Bool.and_eq_true, Bool.or_eq_true, decide_eq_true_iff, decide_eq_true_iff]
    rintro ⟨hkind, hflag⟩
    rw [hk hkind] at hflag
    cases hflag
  rw [sequence, run_bind_of_ok (EStateM.run_get _), List.length_cons, run_statements_cons]
  rw [if_neg ht, if_neg htest]
  refine (Agree.bind (agree_statement (Nat.le_refl _)).right fun s r _ hr ↦ ?_).run_eq
  refine Agree.bind ?_ fun _ _ _ _ ↦ agree_pure _ _
  rw [List.length_cons] at hr
  refine (agree_statements (fun r' _ ↦ ?_) closing (Nat.le_refl _) ?_
    (Nat.le_refl _)).of_run_eq rfl rfl
  · exact (agree_statement (Nat.le_refl _)).right
  · omega

/-! ## Statements -/

def parenthesized (cx : Context) : ParseM Expr := do
  let _ ← expect cx .leftParen
  let e ← expression cx .lowest
  let _ ← expect cx .rightParen
  return e

def parameters (cx : Context) : ParseM (List String) := do
  items cx (expectName cx) .rightParen (← get).length

theorem agree_parenthesized {b : Nat} (hb : ts.length ≤ b + 1) :
    Agree 1 (condition cx b) (parenthesized cx) ts := by
  refine (agree_expect cx .leftParen ts).bind fun _ rest _ hrest ↦ ?_
  refine ((agree_expression (by omega) .lowest).bind fun e mid _ _ ↦ ?_).loosen
  exact ((agree_expect cx .rightParen mid).bind fun _ _ _ _ ↦ agree_pure _ _).loosen

theorem agree_parameters {b : Nat} (hb : ts.length ≤ b + 1) :
    Agree 1 (items cx (expectName cx) .rightParen b) (parameters cx) ts :=
  (agree_items (fun r _ ↦ agree_expectName cx r) (Nat.le_refl _) hb
    (Nat.le_succ _)).of_run_eq rfl rfl

/-- The statements that consist of a keyword, a condition and a block. -/
def branch? : TokenKind → Option (Expr → List (Statement Unit) → Statement Unit)
  | .keyIf => some .ifBranch
  | .keyElif => some .elifBranch
  | _ => none

theorem branch?_eq_some {kind : TokenKind}
    {build : Expr → List (Statement Unit) → Statement Unit} (h : branch? kind = some build) :
    kind = .keyIf ∧ build = .ifBranch ∨ kind = .keyElif ∧ build = .elifBranch := by
  unfold branch? at h
  split at h
  · exact .inl ⟨rfl, (Option.some.inj h).symm⟩
  · exact .inr ⟨rfl, (Option.some.inj h).symm⟩
  · cases h

theorem run_statement_nil :
    (statement cx).run [] = .error (.unexpectedEnd .statement cx.endLine) [] := rfl

/-- A statement that is there is read at the bound one above the number of tokens after the
first. -/
theorem run_statement_eq (t : Token) (ts : List Token) :
    (statement cx).run (t :: ts) = (statementAt cx (ts.length + 1)).run (t :: ts) := rfl

theorem run_statement_let (ht : t.kind = .keyLet) :
    (statement cx).run (t :: ts)
      = (do
          let name ← expectName cx
          let _ ← expect cx .assign
          let value ← expression cx .lowest
          let _ ← expect cx .semicolon
          return Statement.declare name value).run ts := by
  have hkey : (expect cx .keyLet).run (t :: ts) = .ok t ts := run_expect_eq_ok.mpr ⟨rfl, ht⟩
  rw [run_statement_eq, statementAt, run_bind_of_ok (run_peek _), List.head?_cons]
  simp only [ht]
  rw [declaration, run_bind_of_ok hkey]
  refine ((agree_expectName cx ts).bind fun _ r₁ _ h₁ ↦ ?_).run_eq
  refine ((agree_expect cx .assign r₁).bind fun _ r₂ _ h₂ ↦ ?_).loosen
  refine ((agree_expression (by omega) .lowest).bind fun _ r₃ _ _ ↦ ?_).loosen
  exact ((agree_expect cx .semicolon r₃).bind fun _ _ _ _ ↦ agree_pure _ _).loosen

theorem run_statement_branch {build : Expr → List (Statement Unit) → Statement Unit}
    (ht : branch? t.kind = some build) :
    (statement cx).run (t :: ts)
      = (do
          let test ← parenthesized cx
          return build test (← block cx)).run ts := by
  have hrest : ∀ make : Expr → List (Statement Unit) → Statement Unit,
      Agree 1
        (do
          let test ← condition cx ts.length
          return make test (← blockOf cx (statementAt cx ts.length) ts.length))
        (do
          let test ← parenthesized cx
          return make test (← block cx)) ts := by
    intro make
    refine (agree_parenthesized (Nat.le_succ _)).bind fun _ r _ hr ↦ ?_
    exact ((agree_block (by omega)).bind fun _ _ _ _ ↦ agree_pure _ _).loosen
  rw [run_statement_eq, statementAt, run_bind_of_ok (run_peek _), List.head?_cons]
  rcases branch?_eq_some ht with ⟨hkind, rfl⟩ | ⟨hkind, rfl⟩
  · simp only [hkind]
    rw [run_bind_of_ok (run_advance _)]
    exact (hrest _).run_eq
  · simp only [hkind]
    rw [run_bind_of_ok (run_advance _)]
    exact (hrest _).run_eq

theorem run_statement_else (ht : t.kind = .keyElse) :
    (statement cx).run (t :: ts)
      = (do return Statement.elseBranch (← block cx)).run ts := by
  rw [run_statement_eq, statementAt, run_bind_of_ok (run_peek _), List.head?_cons]
  simp only [ht]
  rw [run_bind_of_ok (run_advance _)]
  exact ((agree_block (Nat.le_succ _)).bind fun _ _ _ _ ↦ agree_pure _ _).run_eq

theorem run_statement_function (ht : t.kind = .keyFunction) :
    (statement cx).run (t :: ts)
      = (do
          let name ← expectName cx
          let _ ← expect cx .leftParen
          let params ← parameters cx
          let body ← block cx
          return Statement.function () name params body).run ts := by
  have hkey : (expect cx .keyFunction).run (t :: ts) = .ok t ts := run_expect_eq_ok.mpr ⟨rfl, ht⟩
  rw [run_statement_eq, statementAt, run_bind_of_ok (run_peek _), List.head?_cons]
  simp only [ht]
  rw [functionOf, run_bind_of_ok hkey]
  refine ((agree_expectName cx ts).bind fun _ r₁ _ h₁ ↦ ?_).run_eq
  refine ((agree_expect cx .leftParen r₁).bind fun _ r₂ _ h₂ ↦ ?_).loosen
  refine ((agree_parameters (by omega)).bind fun _ r₃ _ h₃ ↦ ?_).loosen
  exact ((agree_block (by omega)).bind fun _ _ _ _ ↦ agree_pure _ _).loosen

theorem run_statement_return (ht : t.kind = .keyReturn) :
    (statement cx).run (t :: ts)
      = (do
          let value ← expression cx .lowest
          endStatement cx
          return Statement.returns value).run ts := by
  rw [run_statement_eq, statementAt, run_bind_of_ok (run_peek _), List.head?_cons]
  simp only [ht]
  rw [run_bind_of_ok (run_advance _)]
  refine ((agree_expression (Nat.le_refl _) .lowest).bind fun _ r _ _ ↦ ?_).run_eq
  exact (agree_endStatement r).bind fun _ _ _ _ ↦ agree_pure _ _

theorem run_statement_block (ht : t.kind = .leftBrace) :
    (statement cx).run (t :: ts) = (do return Statement.block (← block cx)).run (t :: ts) := by
  rw [run_statement_eq, statementAt, run_bind_of_ok (run_peek _), List.head?_cons]
  simp only [ht]
  exact ((agree_block (Nat.le_refl _)).bind fun _ _ _ _ ↦ agree_pure _ _).run_eq

theorem run_peekKindAt_one (t : Token) (ts : List Token) :
    (peekKindAt 1).run (t :: ts) = .ok (ts.head?.map Token.kind) (t :: ts) := by
  cases ts <;> rfl

theorem run_statement_assign {eq : Token} (ht : t.kind = .identifier) (he : eq.kind = .assign) :
    (statement cx).run (t :: eq :: ts)
      = (do
          let value ← expression cx .lowest
          endStatement cx
          return Statement.assign t.lexeme value).run ts := by
  have hname : (expectName cx).run (t :: eq :: ts) = .ok t.lexeme (eq :: ts) :=
    run_expectName_eq_ok.mpr ⟨t, rfl, ht, rfl⟩
  have heq : (expect cx .assign).run (eq :: ts) = .ok eq ts := run_expect_eq_ok.mpr ⟨rfl, he⟩
  have hnext : (eq :: ts).head?.map Token.kind = some .assign := congrArg some he
  rw [run_statement_eq, statementAt, run_bind_of_ok (run_peek _), List.head?_cons]
  simp only [ht]
  rw [run_bind_of_ok (run_peekKindAt_one t _), hnext]
  simp only [decide_true, Bool.and_self, if_true]
  rw [assignment, run_bind_of_ok hname, run_bind_of_ok heq]
  refine ((agree_expression (Nat.le_succ _) .lowest).bind fun _ r _ _ ↦ ?_).run_eq
  exact (agree_endStatement r).bind fun _ _ _ _ ↦ agree_pure _ _

/-- The tokens that open a statement of their own, whatever the rules for expressions are. -/
def opensStatement : TokenKind → Bool
  | .keyLet | .keyIf | .keyElif | .keyElse | .keyFunction | .keyReturn | .leftBrace => true
  | _ => false

theorem run_statement_other (hopen : opensStatement t.kind = false)
    (hassign : ¬ (t.kind = .identifier ∧ ts.head?.map Token.kind = some .assign)) :
    (statement cx).run (t :: ts)
      = if (cx.grammar.term? t.kind).isSome then
          (do
            let value ← expression cx .lowest
            endStatement cx
            return Statement.expression value).run (t :: ts)
        else .error (.unknownStatement t) (t :: ts) := by
  have htest : ¬ (t.kind = .identifier && ts.head?.map Token.kind = some .assign) = true := by
    rw [Bool.and_eq_true, decide_eq_true_iff, decide_eq_true_iff]
    exact hassign
  rw [run_statement_eq, statementAt, run_bind_of_ok (run_peek _), List.head?_cons]
  dsimp only
  split
  iterate 7
    · rename_i hkind
      rw [hkind] at hopen
      cases hopen
  have hexpr : Agree 1 (expressionAt cx (ts.length + 1) .lowest) (expression cx .lowest)
      (t :: ts) := agree_expression (Nat.le_of_eq List.length_cons) .lowest
  rw [run_bind_of_ok (run_peekKindAt_one t ts), if_neg htest]
  split
  · refine (hexpr.bind fun _ r _ _ ↦ ?_).run_eq
    exact (agree_endStatement r).bind fun _ _ _ _ ↦ agree_pure _ _
  · rfl

/-! ## Parsing -/

theorem parse_eq_ok_iff_run {p : Program} :
    parse ts = .ok p ↔ ∃ rest, (program ⟨.standard, endLine ts⟩).run ts = .ok p rest := by
  rw [parse]
  rcases (program ⟨.standard, endLine ts⟩).run ts with ⟨q, rest⟩ | ⟨e, rest⟩
  · simp
  · simp

theorem parse_eq_error_iff_run {e : ParseError} :
    parse ts = .error e ↔ ∃ rest, (program ⟨.standard, endLine ts⟩).run ts = .error e rest := by
  rw [parse]
  rcases (program ⟨.standard, endLine ts⟩).run ts with ⟨q, rest⟩ | ⟨e, rest⟩
  · simp
  · simp

end Scriptlet.Parse
