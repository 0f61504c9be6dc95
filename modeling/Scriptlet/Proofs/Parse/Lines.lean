import Scriptlet.Proofs.Parse.Equations

/-!
# Lines do not matter to parsing

Every token carries the line it stands on, and the line goes into every error. It goes nowhere else:
reading two token lists that agree in kinds and texts gives the same tree and stops at the same
place, or fails at the same place with errors that differ in their lines only. This holds for every
grammar.

`LineBlind R p q` says so of two readers, whose results are then related by `R`. Both readers are
the same one, but in contexts that may differ in the line of the end. Trees are related by equality;
`R` is there for the steps in between, which hand on tokens. The proof goes through the readers one
by one, and each step is an application of the rule for sequences.
-/

namespace Scriptlet

/-! ## Errors on other lines -/

namespace ParseError

def onLine (line : Nat) : ParseError → ParseError
  | unexpectedToken expected found => unexpectedToken expected { found with line }
  | unexpectedEnd expected _ => unexpectedEnd expected line
  | noTermRule found => noTermRule { found with line }
  | noTailRule found => noTailRule { found with line }
  | unknownStatement found => unknownStatement { found with line }
  | danglingBranch found => danglingBranch { found with line }

/-- The second error is the first one on a line of its own. -/
def SameFault (e e' : ParseError) : Prop := e.onLine e'.line = e'

end ParseError

theorem Token.eq_of_content_eq {t u : Token} (h : t.content = u.content) :
    { t with line := u.line } = u := by
  obtain ⟨kind, lexeme, line⟩ := t
  cases h
  rfl

/-! ## Lists that agree up to lines -/

section Lists

variable {ts us : List Token}

theorem sameTokens_iff : sameTokens ts us = true ↔ ts.map Token.content = us.map Token.content := by
  rw [sameTokens, decide_eq_true_iff]

theorem length_of_sameTokens (h : sameTokens ts us = true) : ts.length = us.length := by
  have hlength := congrArg List.length (sameTokens_iff.mp h)
  rwa [List.length_map, List.length_map] at hlength

theorem sameTokens_drop (h : sameTokens ts us = true) (n : Nat) :
    sameTokens (ts.drop n) (us.drop n) = true := by
  rw [sameTokens_iff, List.map_drop, List.map_drop, sameTokens_iff.mp h]

theorem sameTokens_cases (h : sameTokens ts us = true) :
    ts = [] ∧ us = [] ∨ ∃ t u ts' us', ts = t :: ts' ∧ us = u :: us' ∧
      t.content = u.content ∧ sameTokens ts' us' = true := by
  rw [sameTokens_iff] at h
  rcases ts with _ | ⟨t, ts⟩ <;> rcases us with _ | ⟨u, us⟩
  · exact Or.inl ⟨rfl, rfl⟩
  · cases h
  · cases h
  · obtain ⟨hcontent, hrest⟩ := List.cons.inj h
    exact Or.inr ⟨t, u, ts, us, rfl, rfl, hcontent, sameTokens_iff.mpr hrest⟩

end Lists

namespace Parse

/-! ## The judgement -/

abbrev Outcome (α : Type) := EStateM.Result ParseError (List Token) α

/-- Both outcomes are successes with related results, or both are failures that differ in the line
only. The tokens that are left agree up to lines. -/
def SameReading {α : Type} (R : α → α → Prop) : Outcome α → Outcome α → Prop
  | .ok a ts, .ok b us => R a b ∧ sameTokens ts us = true
  | .error e ts, .error e' us => e.SameFault e' ∧ sameTokens ts us = true
  | _, _ => False

/-- On token lists that agree up to lines the readers do the same, up to lines. -/
def LineBlind {α : Type} (R : α → α → Prop) (p q : ParseM α) : Prop :=
  ∀ ts us, sameTokens ts us = true → SameReading R (p.run ts) (q.run us)

/-- What is said of the tokens that are read next. -/
def SameContent : Option Token → Option Token → Prop
  | some t, some u => t.content = u.content
  | none, none => True
  | _, _ => False

section Rules

variable {α β : Type} {R : α → α → Prop} {S : β → β → Prop}

theorem LineBlind.bind {p q : ParseM α} {f g : α → ParseM β} (hp : LineBlind R p q)
    (hf : ∀ a b, R a b → LineBlind S (f a) (g b)) : LineBlind S (p >>= f) (q >>= g) := by
  intro ts us h
  have hfirst := hp ts us h
  rw [EStateM.run_bind, EStateM.run_bind]
  rcases hts : p.run ts with ⟨a, rest⟩ | ⟨e, rest⟩ <;>
    rcases hus : q.run us with ⟨b, rest'⟩ | ⟨e', rest'⟩ <;> rw [hts, hus] at hfirst
  · exact hf a b hfirst.1 rest rest' hfirst.2
  · exact hfirst.elim
  · exact hfirst.elim
  · exact hfirst

/-- The rule for a first part whose result the second part does not use. -/
theorem LineBlind.andThen {p q : ParseM α} {f g : ParseM β} (hp : LineBlind R p q)
    (hf : LineBlind S f g) : LineBlind S (do let _ ← p; f) (do let _ ← q; g) :=
  hp.bind fun _ _ _ ↦ hf

theorem lineBlind_pure {a b : α} (h : R a b) : LineBlind R (pure a) (pure b) :=
  fun _ _ hsame ↦ ⟨h, hsame⟩

theorem lineBlind_throw {e e' : ParseError} (h : e.SameFault e') :
    LineBlind R (throw e) (throw e') :=
  fun _ _ hsame ↦ ⟨h, hsame⟩

theorem lineBlind_get : LineBlind (fun ts us ↦ sameTokens ts us = true) get get :=
  fun _ _ hsame ↦ ⟨hsame, hsame⟩

theorem lineBlind_peek : LineBlind SameContent peek peek := by
  intro ts us h
  rw [run_peek, run_peek]
  obtain ⟨rfl, rfl⟩ | ⟨t, u, ts, us, rfl, rfl, hcontent, -⟩ := sameTokens_cases h
  · exact ⟨trivial, h⟩
  · exact ⟨hcontent, h⟩

theorem lineBlind_peekKindAt (offset : Nat) :
    LineBlind Eq (peekKindAt offset) (peekKindAt offset) := by
  intro ts us h
  have hkind : ts[offset]?.map Token.kind = us[offset]?.map Token.kind := by
    have hcontent := congrArg (fun cs ↦ cs[offset]?.map Prod.fst) (sameTokens_iff.mp h)
    simpa [Token.content, Function.comp_def] using hcontent
  exact ⟨hkind, h⟩

theorem lineBlind_peekKind : LineBlind Eq peekKind peekKind := lineBlind_peekKindAt 0

theorem lineBlind_advance : LineBlind SameContent advance advance := by
  intro ts us h
  rw [run_advance, run_advance]
  obtain ⟨rfl, rfl⟩ | ⟨t, u, ts, us, rfl, rfl, hcontent, hrest⟩ := sameTokens_cases h
  · exact ⟨trivial, h⟩
  · exact ⟨hcontent, hrest⟩

end Rules

/-! ## Single steps -/

section Steps

variable {α : Type} {R : α → α → Prop} {g : Grammar} {l l' : Nat}

theorem lineBlind_failAtEnd (expected : Expected) :
    LineBlind R (failAtEnd ⟨g, l⟩ expected) (failAtEnd ⟨g, l'⟩ expected) :=
  lineBlind_throw rfl

theorem lineBlind_unexpected (expected : Expected) :
    LineBlind R (unexpected ⟨g, l⟩ expected) (unexpected ⟨g, l'⟩ expected) := by
  refine lineBlind_peek.bind fun a b hab ↦ ?_
  rcases a with _ | t <;> rcases b with _ | u
  · exact lineBlind_failAtEnd expected
  · exact hab.elim
  · exact hab.elim
  · exact lineBlind_throw (congrArg (ParseError.unexpectedToken expected)
      (Token.eq_of_content_eq hab))

theorem lineBlind_expect (kind : TokenKind) :
    LineBlind (fun t u ↦ t.content = u.content) (expect ⟨g, l⟩ kind) (expect ⟨g, l'⟩ kind) := by
  intro ts us h
  obtain ⟨rfl, rfl⟩ | ⟨t, u, ts, us, rfl, rfl, hcontent, hrest⟩ := sameTokens_cases h
  · exact ⟨rfl, h⟩
  · have hkind : t.kind = u.kind := congrArg Prod.fst hcontent
    rw [run_expect_cons, run_expect_cons, hkind]
    split
    · exact ⟨hcontent, hrest⟩
    · exact ⟨congrArg (ParseError.unexpectedToken _) (Token.eq_of_content_eq hcontent), h⟩

theorem lineBlind_expectName : LineBlind Eq (expectName ⟨g, l⟩) (expectName ⟨g, l'⟩) :=
  (lineBlind_expect .identifier).bind fun _ _ h ↦ lineBlind_pure (congrArg Prod.snd h)

end Steps

/-! ## Lists -/

section Items

variable {α : Type} {g : Grammar} {l l' : Nat} {i j : ParseM α}

theorem lineBlind_moreItems (hitem : LineBlind Eq i j) (closing : TokenKind) : ∀ b,
    LineBlind Eq (moreItems ⟨g, l⟩ i closing b) (moreItems ⟨g, l'⟩ j closing b)
  | 0 => lineBlind_unexpected _
  | b + 1 => by
    refine lineBlind_peekKind.bind fun next _ heq ↦ ?_
    subst heq
    split
    · refine lineBlind_advance.andThen (hitem.bind fun x _ hx ↦ ?_)
      refine (lineBlind_moreItems hitem closing b).bind fun xs _ hxs ↦ ?_
      exact lineBlind_pure (by rw [hx, hxs])
    · split
      · exact lineBlind_advance.andThen (lineBlind_pure rfl)
      · exact lineBlind_unexpected _

theorem lineBlind_items (hitem : LineBlind Eq i j) (closing : TokenKind) (b : Nat) :
    LineBlind Eq (items ⟨g, l⟩ i closing b) (items ⟨g, l'⟩ j closing b) := by
  refine lineBlind_peekKind.bind fun next _ heq ↦ ?_
  subst heq
  split
  · exact lineBlind_advance.andThen (lineBlind_pure rfl)
  · refine hitem.bind fun x _ hx ↦ ?_
    refine (lineBlind_moreItems hitem closing b).bind fun xs _ hxs ↦ ?_
    exact lineBlind_pure (by rw [hx, hxs])

end Items

/-! ## Expressions -/

section Expressions

variable {g : Grammar} {l l' : Nat} {o u : Precedence → ParseM Expr}

theorem lineBlind_term (ho : ∀ min, LineBlind Eq (o min) (u min)) (b : Nat) (rule : TermRule) :
    LineBlind Eq (term ⟨g, l⟩ o b rule) (term ⟨g, l'⟩ u b rule) := by
  cases rule with
  | number =>
    refine (lineBlind_expect .number).bind fun t v h ↦ lineBlind_pure ?_
    exact congrArg (fun content ↦ Expr.number (Prod.snd content)) h
  | string =>
    refine (lineBlind_expect .string).bind fun t v h ↦ lineBlind_pure ?_
    exact congrArg (fun content ↦ Expr.string (Prod.snd content)) h
  | boolean =>
    refine lineBlind_peekKind.bind fun next _ heq ↦ ?_
    subst heq
    split
    · exact lineBlind_advance.andThen (lineBlind_pure rfl)
    · exact lineBlind_advance.andThen (lineBlind_pure rfl)
    · exact lineBlind_unexpected _
  | nameOrCall =>
    refine lineBlind_expectName.bind fun name _ hname ↦ ?_
    subst hname
    refine lineBlind_peekKind.bind fun next _ heq ↦ ?_
    subst heq
    split
    · refine lineBlind_advance.andThen ((lineBlind_items (ho .lowest) _ b).bind fun es _ hes ↦ ?_)
      exact lineBlind_pure (by rw [hes])
    · exact lineBlind_pure rfl
  | group =>
    refine (lineBlind_expect .leftParen).andThen ((ho .lowest).bind fun e _ he ↦ ?_)
    exact (lineBlind_expect .rightParen).andThen (lineBlind_pure he)
  | unary =>
    refine lineBlind_peekKind.bind fun next _ heq ↦ ?_
    subst heq
    split
    · refine lineBlind_advance.andThen ((ho .unary).bind fun e _ he ↦ ?_)
      exact lineBlind_pure (by rw [he])
    · exact lineBlind_unexpected _

theorem lineBlind_binaryTail (ho : ∀ min, LineBlind Eq (o min) (u min)) (left : Expr)
    (min : Precedence) :
    LineBlind Eq (binaryTail ⟨g, l⟩ o left min) (binaryTail ⟨g, l'⟩ u left min) := by
  refine lineBlind_peekKind.bind fun next _ heq ↦ ?_
  subst heq
  split
  · refine lineBlind_advance.andThen ((ho min).bind fun e _ he ↦ ?_)
    exact lineBlind_pure (by rw [he])
  · exact lineBlind_unexpected _

theorem lineBlind_tail (ho : ∀ min, LineBlind Eq (o min) (u min)) (left : Expr)
    (min : Precedence) (rule : TailRule) :
    LineBlind Eq (tail ⟨g, l⟩ o left min rule) (tail ⟨g, l'⟩ u left min rule) := by
  cases rule with
  | binary => exact lineBlind_binaryTail ho left min
  | looseBinary => exact lineBlind_binaryTail ho left .lowest
  | mark => exact lineBlind_advance.andThen (lineBlind_pure rfl)

theorem lineBlind_tails (ho : ∀ min, LineBlind Eq (o min) (u min)) (min : Precedence) :
    ∀ b left, LineBlind Eq (tails ⟨g, l⟩ o min b left) (tails ⟨g, l'⟩ u min b left)
  | 0, _ => lineBlind_pure rfl
  | b + 1, left => by
    refine lineBlind_peek.bind fun next next' hnext ↦ ?_
    rcases next with _ | t <;> rcases next' with _ | v
    · exact lineBlind_pure rfl
    · exact hnext.elim
    · exact hnext.elim
    · have hkind : t.kind = v.kind := congrArg Prod.fst hnext
      dsimp only
      rw [← hkind]
      split
      · exact lineBlind_pure rfl
      · split
        · exact lineBlind_throw (congrArg ParseError.noTailRule (Token.eq_of_content_eq hnext))
        · refine (lineBlind_tail ho left _ _).bind fun longer _ hlonger ↦ ?_
          subst hlonger
          exact lineBlind_tails ho min b longer

theorem lineBlind_expressionAt : ∀ b min,
    LineBlind Eq (expressionAt ⟨g, l⟩ b min) (expressionAt ⟨g, l'⟩ b min)
  | 0, _ => lineBlind_failAtEnd _
  | b + 1, min => by
    refine lineBlind_peek.bind fun next next' hnext ↦ ?_
    rcases next with _ | t <;> rcases next' with _ | v
    · exact lineBlind_failAtEnd _
    · exact hnext.elim
    · exact hnext.elim
    · have hkind : t.kind = v.kind := congrArg Prod.fst hnext
      dsimp only
      rw [← hkind]
      split
      · exact lineBlind_throw (congrArg ParseError.noTermRule (Token.eq_of_content_eq hnext))
      · refine (lineBlind_term (lineBlind_expressionAt b) b _).bind fun left _ hleft ↦ ?_
        subst hleft
        exact lineBlind_tails (lineBlind_expressionAt b) min b left

theorem lineBlind_expression (min : Precedence) :
    LineBlind Eq (expression ⟨g, l⟩ min) (expression ⟨g, l'⟩ min) := by
  refine lineBlind_get.bind fun ts us h ↦ ?_
  rw [length_of_sameTokens h]
  exact lineBlind_expressionAt _ min

end Expressions

/-! ## Statements -/

section Statements

variable {g : Grammar} {l l' : Nat}

theorem lineBlind_endStatement : LineBlind Eq (endStatement ⟨g, l⟩) (endStatement ⟨g, l'⟩) := by
  refine lineBlind_peekKind.bind fun next _ heq ↦ ?_
  subst heq
  split
  · exact lineBlind_advance.andThen (lineBlind_pure rfl)
  · exact lineBlind_pure rfl
  · exact lineBlind_pure rfl
  · exact lineBlind_unexpected _

theorem lineBlind_condition (b : Nat) :
    LineBlind Eq (condition ⟨g, l⟩ b) (condition ⟨g, l'⟩ b) := by
  refine (lineBlind_expect .leftParen).andThen ?_
  refine (lineBlind_expressionAt b .lowest).bind fun e _ he ↦ ?_
  exact (lineBlind_expect .rightParen).andThen (lineBlind_pure he)

theorem lineBlind_declaration (b : Nat) :
    LineBlind Eq (declaration ⟨g, l⟩ b) (declaration ⟨g, l'⟩ b) := by
  refine (lineBlind_expect .keyLet).andThen (lineBlind_expectName.bind fun name _ hname ↦ ?_)
  refine (lineBlind_expect .assign).andThen ?_
  refine (lineBlind_expressionAt b .lowest).bind fun value _ hvalue ↦ ?_
  exact (lineBlind_expect .semicolon).andThen (lineBlind_pure (by rw [hname, hvalue]))

theorem lineBlind_assignment (b : Nat) :
    LineBlind Eq (assignment ⟨g, l⟩ b) (assignment ⟨g, l'⟩ b) := by
  refine lineBlind_expectName.bind fun name _ hname ↦ (lineBlind_expect .assign).andThen ?_
  refine (lineBlind_expressionAt b .lowest).bind fun value _ hvalue ↦ ?_
  exact lineBlind_endStatement.andThen (lineBlind_pure (by rw [hname, hvalue]))

variable {s r : ParseM (Statement Unit)}

theorem lineBlind_statements (hs : LineBlind Eq s r) (closing : Option TokenKind) :
    ∀ b afterBranch, LineBlind Eq (statements ⟨g, l⟩ s closing b afterBranch)
      (statements ⟨g, l'⟩ r closing b afterBranch)
  | 0, _ => by
    cases closing with
    | some kind => exact lineBlind_failAtEnd _
    | none => exact lineBlind_pure rfl
  | b + 1, afterBranch => by
    refine lineBlind_peek.bind fun next next' hnext ↦ ?_
    rcases next with _ | t <;> rcases next' with _ | v
    · dsimp only
      split
      · exact lineBlind_failAtEnd _
      · exact lineBlind_pure rfl
    · exact hnext.elim
    · exact hnext.elim
    · have hkind : t.kind = v.kind := congrArg Prod.fst hnext
      dsimp only
      rw [← hkind]
      split
      · exact lineBlind_advance.andThen (lineBlind_pure rfl)
      · split
        · exact lineBlind_throw (congrArg ParseError.danglingBranch (Token.eq_of_content_eq hnext))
        · refine hs.bind fun x _ hx ↦ ?_
          subst hx
          refine (lineBlind_statements hs closing b x.opensBranch).bind fun xs _ hxs ↦ ?_
          exact lineBlind_pure (by rw [hxs])

theorem lineBlind_blockOf (hs : LineBlind Eq s r) (b : Nat) :
    LineBlind Eq (blockOf ⟨g, l⟩ s b) (blockOf ⟨g, l'⟩ r b) :=
  (lineBlind_expect .leftBrace).andThen (lineBlind_statements hs _ b false)

theorem lineBlind_functionOf (hs : LineBlind Eq s r) (b : Nat) :
    LineBlind Eq (functionOf ⟨g, l⟩ s b) (functionOf ⟨g, l'⟩ r b) := by
  refine (lineBlind_expect .keyFunction).andThen (lineBlind_expectName.bind fun name _ hname ↦ ?_)
  refine (lineBlind_expect .leftParen).andThen ?_
  refine (lineBlind_items lineBlind_expectName _ b).bind fun params _ hparams ↦ ?_
  refine (lineBlind_blockOf hs b).bind fun body _ hbody ↦ ?_
  exact lineBlind_pure (by rw [hname, hparams, hbody])

theorem lineBlind_branchOf (hs : LineBlind Eq s r) (b : Nat)
    (build : Expr → List (Statement Unit) → Statement Unit) :
    LineBlind Eq
      (do
        let test ← condition ⟨g, l⟩ b
        return build test (← blockOf ⟨g, l⟩ s b))
      (do
        let test ← condition ⟨g, l'⟩ b
        return build test (← blockOf ⟨g, l'⟩ r b)) := by
  refine (lineBlind_condition b).bind fun test _ htest ↦ ?_
  refine (lineBlind_blockOf hs b).bind fun body _ hbody ↦ ?_
  exact lineBlind_pure (by rw [htest, hbody])

theorem lineBlind_statementAt : ∀ b,
    LineBlind Eq (statementAt ⟨g, l⟩ b) (statementAt ⟨g, l'⟩ b)
  | 0 => lineBlind_failAtEnd _
  | b + 1 => by
    have hinner := lineBlind_statementAt b
    rw [statementAt, statementAt]
    refine lineBlind_peek.bind fun next next' hnext ↦ ?_
    rcases next with _ | t <;> rcases next' with _ | v
    · exact lineBlind_failAtEnd _
    · exact hnext.elim
    · exact hnext.elim
    · have hkind : t.kind = v.kind := congrArg Prod.fst hnext
      dsimp only
      rw [← hkind]
      split
      -- the statements in the order in which their first tokens are tried
      · exact lineBlind_declaration b
      · exact lineBlind_advance.andThen (lineBlind_branchOf hinner b _)
      · exact lineBlind_advance.andThen (lineBlind_branchOf hinner b _)
      · refine lineBlind_advance.andThen ((lineBlind_blockOf hinner b).bind fun body _ hbody ↦ ?_)
        exact lineBlind_pure (by rw [hbody])
      · exact lineBlind_functionOf hinner b
      · refine lineBlind_advance.andThen ?_
        refine (lineBlind_expressionAt b .lowest).bind fun value _ hvalue ↦ ?_
        exact lineBlind_endStatement.andThen (lineBlind_pure (by rw [hvalue]))
      · refine (lineBlind_blockOf hinner b).bind fun body _ hbody ↦ ?_
        exact lineBlind_pure (by rw [hbody])
      · refine (lineBlind_peekKindAt 1).bind fun second _ heq ↦ ?_
        subst heq
        split
        · exact lineBlind_assignment b
        · split
          · refine (lineBlind_expressionAt (b + 1) .lowest).bind fun value _ hvalue ↦ ?_
            exact lineBlind_endStatement.andThen (lineBlind_pure (by rw [hvalue]))
          · exact lineBlind_throw
              (congrArg ParseError.unknownStatement (Token.eq_of_content_eq hnext))

theorem lineBlind_statement : LineBlind Eq (statement ⟨g, l⟩) (statement ⟨g, l'⟩) := by
  refine lineBlind_get.bind fun ts us h ↦ ?_
  rw [length_of_sameTokens h]
  exact lineBlind_statementAt _

theorem lineBlind_block : LineBlind Eq (block ⟨g, l⟩) (block ⟨g, l'⟩) := by
  refine lineBlind_get.bind fun ts us h ↦ ?_
  rw [length_of_sameTokens h]
  exact lineBlind_blockOf (lineBlind_statementAt _) _

theorem lineBlind_program : LineBlind Eq (program ⟨g, l⟩) (program ⟨g, l'⟩) := by
  refine lineBlind_get.bind fun ts us h ↦ ?_
  rw [length_of_sameTokens h]
  exact lineBlind_statements (lineBlind_statementAt _) none _ false

end Statements

/-! ## Places

Two lists that agree up to lines have the same places. A reader stays inside the list it is given,
so that the tokens that are left say at which place it stopped. -/

/-- The outcomes are the same tree, or errors that differ in the line only, and in either case both
cursors are at the same place. -/
def EndsAlike {α : Type} (ts us : List Token) : Outcome α → Outcome α → Prop
  | .ok a rest, .ok b rest' =>
    a = b ∧ ∃ q, q ≤ ts.length ∧ rest = ts.drop q ∧ rest' = us.drop q
  | .error e rest, .error e' rest' =>
    e.SameFault e' ∧ ∃ q, q ≤ ts.length ∧ rest = ts.drop q ∧ rest' = us.drop q
  | _, _ => False

section Places

variable {α : Type} {p q : ParseM α} {ts us rest rest' : List Token} {n : Nat}

theorem exists_place (h : sameTokens ts us = true) (hrest : rest <:+ ts) (hrest' : rest' <:+ us)
    (hsame : sameTokens rest rest' = true) :
    ∃ q, q ≤ ts.length ∧ rest = ts.drop q ∧ rest' = us.drop q := by
  refine ⟨ts.length - rest.length, Nat.sub_le _ _, List.suffix_iff_eq_drop.mp hrest, ?_⟩
  rw [length_of_sameTokens h, length_of_sameTokens hsame]
  exact List.suffix_iff_eq_drop.mp hrest'

theorem LineBlind.endsAlike (hblind : LineBlind Eq p q) (h : sameTokens ts us = true)
    (hp : Agree 0 p p (ts.drop n)) (hq : Agree 0 q q (us.drop n)) :
    EndsAlike ts us (p.run (ts.drop n)) (q.run (us.drop n)) := by
  have hboth := hblind _ _ (sameTokens_drop h n)
  have hdrop : ∀ {r vs : List Token}, r <:+ vs.drop n → r <:+ vs :=
    fun hr ↦ hr.trans (List.drop_suffix n _)
  rcases hts : p.run (ts.drop n) with ⟨a, rest⟩ | ⟨e, rest⟩ <;>
    rcases hus : q.run (us.drop n) with ⟨b, rest'⟩ | ⟨e', rest'⟩ <;> rw [hts, hus] at hboth
  · exact ⟨hboth.1, exists_place h (hdrop (hp.reads a rest hts).1) (hdrop (hq.reads b rest' hus).1)
      hboth.2⟩
  · exact hboth.elim
  · exact hboth.elim
  · exact ⟨hboth.1, exists_place h (hdrop (hp.stays e rest hts)) (hdrop (hq.stays e' rest' hus))
      hboth.2⟩

theorem agree_program {cx : Context} (ts : List Token) :
    Agree 0 (program cx) (program cx) ts :=
  (agree_sequence (Nat.le_refl _) none false).of_run_eq rfl (run_program ts)

theorem parse_of_sameTokens (h : sameTokens ts us = true) :
    (∃ p, parse ts = .ok p ∧ parse us = .ok p) ∨
      ∃ e e', parse ts = .error e ∧ parse us = .error e' ∧ e.SameFault e' := by
  have hboth : SameReading Eq ((program ⟨.standard, endLine ts⟩).run ts)
      ((program ⟨.standard, endLine us⟩).run us) := lineBlind_program ts us h
  rw [parse, parse]
  rcases hts : (program ⟨.standard, endLine ts⟩).run ts with ⟨a, rest⟩ | ⟨e, rest⟩ <;>
    rcases hus : (program ⟨.standard, endLine us⟩).run us with ⟨b, rest'⟩ | ⟨e', rest'⟩ <;>
    rw [hts, hus] at hboth
  · exact Or.inl ⟨a, rfl, by rw [hboth.1]⟩
  · exact hboth.elim
  · exact hboth.elim
  · exact Or.inr ⟨e, e', rfl, rfl, hboth.1⟩

end Places

end Parse

end Scriptlet
