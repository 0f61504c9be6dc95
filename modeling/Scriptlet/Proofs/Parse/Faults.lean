import Scriptlet.Proofs.Parse.Equations

/-!
# The errors that a grammar allows

A grammar can be put together in ways that make no sense: a rule may stand under a kind of token
that it cannot read, or an operator may have no rule at all. Each error that a parser ends with is
one that its grammar allows, and `Grammar.Allows` says which these are. That a token is missing can
happen under every grammar. The other errors need a reason in the tables: the rule that complains is
misplaced, or there is no rule for the token in front.

Two kinds of impossible errors come out of this. A change of the tables never takes a rule away, so
an operator never lacks one. And the rules of the standard grammar stand where they belong, so none
of them is ever offered a token that it cannot read.
-/

namespace Scriptlet

/-! ## What errors are about -/

/-- Whether it is a rule that wants this. Whatever else is wanted is fixed by the phrase that is
read. -/
def Expected.isOfRule : Expected → Bool
  | boolean | unaryOperator | binaryOperator => true
  | _ => false

/-- What was wanted, for an error that says so. -/
def ParseError.expected? : ParseError → Option Expected
  | unexpectedToken expected _ | unexpectedEnd expected _ => some expected
  | _ => none

namespace TermRule

def wants : TermRule → Expected
  | number => .token .number
  | string => .token .string
  | boolean => .boolean
  | nameOrCall => .token .identifier
  | group => .token .leftParen
  | unary => .unaryOperator

/-- Whether a term that is read by the rule can start with the kind. -/
def fits (rule : TermRule) (kind : TokenKind) : Bool :=
  match rule with
  | number => kind = .number
  | string => kind = .string
  | boolean => kind = .keyTrue || kind = .keyFalse
  | nameOrCall => kind = .identifier
  | group => kind = .leftParen
  | unary => kind.unaryOp?.isSome

end TermRule

/-- The errors that reading by the rules of the grammar can end with. -/
inductive Grammar.Allows (g : Grammar) : ParseError → Prop
  /-- Something is missing that the phrase needs. -/
  | missing {e : ParseError} {expected : Expected} (he : e.expected? = some expected)
      (h : expected.isOfRule = false) : g.Allows e
  /-- A rule stands under a kind that it does not fit. -/
  | misplaced {t : Token} {rule : TermRule} (hrule : g.term? t.kind = some rule)
      (h : rule.fits t.kind = false) : g.Allows (.unexpectedToken rule.wants t)
  | noTerm {t : Token} (h : g.term? t.kind = none) : g.Allows (.noTermRule t)
  /-- An operator has no rule. -/
  | noTail {t : Token} (hop : t.kind.binaryOp? ≠ none) (h : g.tail? t.kind = none) :
      g.Allows (.noTailRule t)
  | unknown {t : Token} (h : g.term? t.kind = none) : g.Allows (.unknownStatement t)
  | dangling {t : Token} (h : t.kind = .keyElif ∨ t.kind = .keyElse) : g.Allows (.danglingBranch t)

theorem TokenKind.binaryOp?_of_lt {kind : TokenKind} {min : Precedence}
    (h : ¬ kind.precedence ≤ min) : kind.binaryOp? ≠ none := by
  intro hnone
  rw [precedence_eq, hnone] at h
  exact h (Nat.zero_le _)

namespace Parse

/-- On these tokens the reader fails only with errors that its grammar allows. -/
def FailsAllowed {α : Type} (cx : Context) (p : ParseM α) (ts : List Token) : Prop :=
  ∀ e rest, p.run ts = .error e rest → cx.grammar.Allows e

/-! ## Single steps -/

section Steps

variable {α β : Type} {cx : Context} {p : ParseM α} {f : α → ParseM β} {ts mid : List Token} {a : α}

theorem FailsAllowed.bind (hp : FailsAllowed cx p ts)
    (hf : ∀ a rest, FailsAllowed cx (f a) rest) : FailsAllowed cx (p >>= f) ts := by
  intro e rest h
  rw [EStateM.run_bind] at h
  rcases hrun : p.run ts with ⟨a, mid⟩ | ⟨e', mid⟩ <;> rw [hrun] at h
  · exact hf a mid e rest h
  · cases h
    exact hp _ _ hrun

theorem FailsAllowed.bind_of_ok (hp : p.run ts = .ok a mid) (h : FailsAllowed cx (f a) mid) :
    FailsAllowed cx (p >>= f) ts := by
  intro e rest hrun
  rw [run_bind_of_ok hp] at hrun
  exact h e rest hrun

theorem failsAllowed_pure (a : α) (ts : List Token) : FailsAllowed cx (pure a) ts :=
  fun _ _ h ↦ by cases h

theorem failsAllowed_throw {e : ParseError} (he : cx.grammar.Allows e) (ts : List Token) :
    FailsAllowed cx (throw e : ParseM α) ts :=
  fun _ _ h ↦ by cases h; exact he

theorem failsAllowed_failAtEnd {expected : Expected} (h : expected.isOfRule = false)
    (ts : List Token) : FailsAllowed cx (failAtEnd cx expected : ParseM α) ts :=
  failsAllowed_throw (.missing rfl h) ts

theorem expected?_of_run_unexpected {expected : Expected} {e : ParseError} {rest : List Token}
    (h : (unexpected cx expected : ParseM α).run ts = .error e rest) :
    e.expected? = some expected := by
  rcases ts with _ | ⟨t, ts⟩
  · rw [run_unexpected_nil] at h
    cases h
    rfl
  · rw [run_unexpected_cons] at h
    cases h
    rfl

theorem failsAllowed_unexpected {expected : Expected} (h : expected.isOfRule = false)
    (ts : List Token) : FailsAllowed cx (unexpected cx expected : ParseM α) ts :=
  fun _ _ hrun ↦ .missing (expected?_of_run_unexpected hrun) h

theorem run_expect_of_misfit {kind : TokenKind} (h : ∀ t us, ts = t :: us → t.kind ≠ kind) :
    (expect cx kind).run ts = (unexpected cx (.token kind)).run ts := by
  rcases ts with _ | ⟨t, ts⟩
  · rw [run_expect_nil, run_unexpected_nil]
  · rw [run_expect_cons, if_neg (h t ts rfl), run_unexpected_cons]

theorem failsAllowed_expect (kind : TokenKind) (ts : List Token) :
    FailsAllowed cx (expect cx kind) ts := by
  by_cases h : ∃ t us, ts = t :: us ∧ t.kind = kind
  · obtain ⟨t, us, hts⟩ := h
    intro e rest hrun
    rw [run_expect_eq_ok.mpr hts] at hrun
    cases hrun
  · intro e rest hrun
    rw [run_expect_of_misfit fun t us hts hkind ↦ h ⟨t, us, hts, hkind⟩] at hrun
    exact .missing (expected?_of_run_unexpected hrun) rfl

theorem failsAllowed_expectName (ts : List Token) : FailsAllowed cx (expectName cx) ts :=
  (failsAllowed_expect .identifier ts).bind fun _ _ ↦ failsAllowed_pure _ _

end Steps

/-! ## Lists -/

section Lists

variable {α : Type} {cx : Context} {item : ParseM α}

theorem failsAllowed_moreItems (hitem : ∀ r, FailsAllowed cx item r) (closing : TokenKind) :
    ∀ b ts, FailsAllowed cx (moreItems cx item closing b) ts
  | 0, ts => failsAllowed_unexpected rfl ts
  | b + 1, ts => by
    refine .bind_of_ok (run_peekKind ts) ?_
    split
    · refine .bind_of_ok (run_advance ts) ((hitem _).bind fun x rest ↦ ?_)
      exact (failsAllowed_moreItems hitem closing b rest).bind fun _ _ ↦ failsAllowed_pure _ _
    · split
      · exact .bind_of_ok (run_advance ts) (failsAllowed_pure _ _)
      · exact failsAllowed_unexpected rfl ts

theorem failsAllowed_items (hitem : ∀ r, FailsAllowed cx item r) (closing : TokenKind) (b : Nat)
    (ts : List Token) : FailsAllowed cx (items cx item closing b) ts := by
  refine .bind_of_ok (run_peekKind ts) ?_
  split
  · exact .bind_of_ok (run_advance ts) (failsAllowed_pure _ _)
  · refine (hitem ts).bind fun x rest ↦ ?_
    exact (failsAllowed_moreItems hitem closing b rest).bind fun _ _ ↦ failsAllowed_pure _ _

end Lists

/-! ## Expressions -/

section Expressions

variable {cx : Context} {o : Precedence → ParseM Expr} {t : Token} {ts : List Token}

/-- A rule that does not fit the token in front of it says what it wants. -/
theorem run_term_of_misfit {rule : TermRule} (b : Nat)
    (h : ∀ t us, ts = t :: us → rule.fits t.kind = false) :
    (term cx o b rule).run ts = (unexpected cx rule.wants : ParseM Expr).run ts := by
  have hexpect {β : Type} {kind : TokenKind} {f : Token → ParseM β}
      (hkind : ∀ t us, ts = t :: us → decide (t.kind = kind) = false) :
      (expect cx kind >>= f).run ts = (unexpected cx (.token kind)).run ts := by
    rw [EStateM.run_bind, run_expect_of_misfit fun t us hts ↦ of_decide_eq_false (hkind t us hts)]
    cases ts <;> rfl
  cases rule with
  | number | string | group => exact hexpect h
  | nameOrCall =>
    rw [term, expectName, bind_assoc]
    exact hexpect h
  | boolean =>
    rcases ts with _ | ⟨t, ts⟩
    · rfl
    · obtain ⟨htrue, hfalse⟩ : t.kind ≠ .keyTrue ∧ t.kind ≠ .keyFalse := by
        simpa [TermRule.fits] using h t ts rfl
      rw [term, run_bind_of_ok (run_peekKind _), List.head?_cons, Option.map_some]
      split
      · rename_i heq
        exact absurd (Option.some.inj heq) htrue
      · rename_i heq
        exact absurd (Option.some.inj heq) hfalse
      · rfl
  | unary =>
    rcases ts with _ | ⟨t, ts⟩
    · rfl
    · have hop : t.kind.unaryOp? = none :=
        Option.not_isSome_iff_eq_none.mp (Bool.eq_false_iff.mp (h t ts rfl))
      rw [term, run_bind_of_ok (run_peekKind _), List.head?_cons, Option.map_some,
        Option.bind_some, hop]
      rfl

theorem run_binaryTail_of_misfit (left : Expr) (min : Precedence)
    (h : ∀ t us, ts = t :: us → t.kind.binaryOp? = none) :
    (binaryTail cx o left min).run ts = (unexpected cx .binaryOperator : ParseM Expr).run ts := by
  rcases ts with _ | ⟨t, ts⟩
  · rfl
  · rw [binaryTail, run_bind_of_ok (run_peekKind _), List.head?_cons, Option.map_some,
      Option.bind_some, h t ts rfl]

variable (ho : ∀ min r, FailsAllowed cx (o min) r)

include ho

theorem failsAllowed_term {rule : TermRule} (b : Nat) (hfits : rule.fits t.kind = true) :
    FailsAllowed cx (term cx o b rule) (t :: ts) := by
  cases rule with
  | number | string => exact (failsAllowed_expect _ _).bind fun _ _ ↦ failsAllowed_pure _ _
  | boolean =>
    refine .bind_of_ok (run_peekKind _) ?_
    rw [List.head?_cons, Option.map_some]
    split
    · exact .bind_of_ok (run_advance _) (failsAllowed_pure _ _)
    · exact .bind_of_ok (run_advance _) (failsAllowed_pure _ _)
    · rename_i htrue hfalse
      rw [TermRule.fits, Bool.or_eq_true, decide_eq_true_iff, decide_eq_true_iff] at hfits
      rcases hfits with hkind | hkind <;> rw [hkind] at htrue hfalse
      · exact absurd rfl htrue
      · exact absurd rfl hfalse
  | nameOrCall =>
    refine (failsAllowed_expectName _).bind fun name rest ↦ ?_
    refine .bind_of_ok (run_peekKind rest) ?_
    split
    · refine .bind_of_ok (run_advance rest) ?_
      exact (failsAllowed_items (ho .lowest) _ b _).bind fun _ _ ↦ failsAllowed_pure _ _
    · exact failsAllowed_pure _ _
  | group =>
    refine (failsAllowed_expect _ _).bind fun _ r ↦ (ho .lowest r).bind fun e r' ↦ ?_
    exact (failsAllowed_expect _ r').bind fun _ _ ↦ failsAllowed_pure _ _
  | unary =>
    obtain ⟨op, hop⟩ := Option.isSome_iff_exists.mp hfits
    refine .bind_of_ok (run_peekKind _) ?_
    rw [List.head?_cons, Option.map_some, Option.bind_some, hop]
    refine .bind_of_ok (run_advance _) ?_
    exact (ho .unary _).bind fun _ _ ↦ failsAllowed_pure _ _

theorem failsAllowed_binaryTail (left : Expr) (min : Precedence) (hop : t.kind.binaryOp? ≠ none) :
    FailsAllowed cx (binaryTail cx o left min) (t :: ts) := by
  obtain ⟨op, hop⟩ := Option.ne_none_iff_exists'.mp hop
  refine .bind_of_ok (run_peekKind _) ?_
  rw [List.head?_cons, Option.map_some, Option.bind_some, hop]
  refine .bind_of_ok (run_advance _) ?_
  exact (ho min _).bind fun _ _ ↦ failsAllowed_pure _ _

theorem failsAllowed_tail (left : Expr) (min : Precedence) (rule : TailRule)
    (hop : t.kind.binaryOp? ≠ none) : FailsAllowed cx (tail cx o left min rule) (t :: ts) := by
  cases rule with
  | binary => exact failsAllowed_binaryTail ho left min hop
  | looseBinary => exact failsAllowed_binaryTail ho left .lowest hop
  | mark => exact .bind_of_ok (run_advance _) (failsAllowed_pure _ _)

/-- The loop stops in front of every token that is no binary operator, so that the rules for tails
are never offered anything else. -/
theorem failsAllowed_tails (min : Precedence) :
    ∀ b left ts, FailsAllowed cx (tails cx o min b left) ts
  | 0, _, ts => failsAllowed_pure _ ts
  | _ + 1, _, [] => .bind_of_ok (run_peek []) (failsAllowed_pure _ _)
  | b + 1, left, t :: ts => by
    refine .bind_of_ok (run_peek _) ?_
    rw [List.head?_cons]
    dsimp only
    split
    · exact failsAllowed_pure _ _
    · rename_i htest
      have htighter : ¬ t.kind.precedence ≤ min := fun hle ↦
        htest (by rw [decide_eq_true hle, Bool.or_true])
      have hop := TokenKind.binaryOp?_of_lt htighter
      split
      · rename_i hnone
        exact failsAllowed_throw (.noTail hop hnone) _
      · refine (failsAllowed_tail ho left _ _ hop).bind fun longer rest ↦ ?_
        exact failsAllowed_tails min b longer rest

omit ho

theorem failsAllowed_expressionAt : ∀ b min ts, FailsAllowed cx (expressionAt cx b min) ts
  | 0, _, ts => failsAllowed_failAtEnd rfl ts
  | _ + 1, _, [] => .bind_of_ok (run_peek []) (failsAllowed_failAtEnd rfl _)
  | b + 1, min, t :: ts => by
    have hinner := failsAllowed_expressionAt b
    refine .bind_of_ok (run_peek _) ?_
    rw [List.head?_cons]
    dsimp only
    split
    · rename_i hnone
      exact failsAllowed_throw (.noTerm hnone) _
    · rename_i rule hrule
      refine FailsAllowed.bind ?_ fun left rest ↦ failsAllowed_tails hinner min b left rest
      cases hfits : rule.fits t.kind with
      | true => exact failsAllowed_term hinner b hfits
      | false =>
        intro e rest hrun
        have hmisfit : ∀ u us, t :: ts = u :: us → rule.fits u.kind = false := by
          rintro u us hcons
          rw [← (List.cons.inj hcons).1]
          exact hfits
        rw [run_term_of_misfit b hmisfit, run_unexpected_cons] at hrun
        cases hrun
        exact .misplaced hrule hfits

end Expressions

/-! ## Statements -/

section Statements

variable {cx : Context}

theorem failsAllowed_endStatement (ts : List Token) : FailsAllowed cx (endStatement cx) ts := by
  refine .bind_of_ok (run_peekKind ts) ?_
  split
  · exact .bind_of_ok (run_advance ts) (failsAllowed_pure _ _)
  · exact failsAllowed_pure _ _
  · exact failsAllowed_pure _ _
  · exact failsAllowed_unexpected rfl ts

theorem failsAllowed_condition (b : Nat) (ts : List Token) :
    FailsAllowed cx (condition cx b) ts := by
  refine (failsAllowed_expect _ ts).bind fun _ r ↦ ?_
  refine (failsAllowed_expressionAt b .lowest r).bind fun e r' ↦ ?_
  exact (failsAllowed_expect _ r').bind fun _ _ ↦ failsAllowed_pure _ _

theorem failsAllowed_declaration (b : Nat) (ts : List Token) :
    FailsAllowed cx (declaration cx b) ts := by
  refine (failsAllowed_expect _ ts).bind fun _ r₁ ↦ (failsAllowed_expectName r₁).bind fun _ r₂ ↦ ?_
  refine (failsAllowed_expect _ r₂).bind fun _ r₃ ↦ ?_
  refine (failsAllowed_expressionAt b .lowest r₃).bind fun _ r₄ ↦ ?_
  exact (failsAllowed_expect _ r₄).bind fun _ _ ↦ failsAllowed_pure _ _

theorem failsAllowed_assignment (b : Nat) (ts : List Token) :
    FailsAllowed cx (assignment cx b) ts := by
  refine (failsAllowed_expectName ts).bind fun _ r₁ ↦ (failsAllowed_expect _ r₁).bind fun _ r₂ ↦ ?_
  refine (failsAllowed_expressionAt b .lowest r₂).bind fun _ r₃ ↦ ?_
  exact (failsAllowed_endStatement r₃).bind fun _ _ ↦ failsAllowed_pure _ _

variable {s : ParseM (Statement Unit)} (hs : ∀ r, FailsAllowed cx s r)

include hs

theorem failsAllowed_statements (closing : Option TokenKind) :
    ∀ b afterBranch ts, FailsAllowed cx (statements cx s closing b afterBranch) ts
  | 0, _, ts => by
    cases closing with
    | some kind => exact failsAllowed_failAtEnd rfl ts
    | none => exact failsAllowed_pure _ ts
  | b + 1, _, [] => by
    refine .bind_of_ok (run_peek []) ?_
    cases closing with
    | some kind => exact failsAllowed_failAtEnd rfl []
    | none => exact failsAllowed_pure _ []
  | b + 1, afterBranch, t :: ts => by
    refine .bind_of_ok (run_peek _) ?_
    rw [List.head?_cons]
    dsimp only
    split
    · exact .bind_of_ok (run_advance _) (failsAllowed_pure _ _)
    · split
      · rename_i htest
        rw [Bool.and_eq_true, Bool.or_eq_true, decide_eq_true_iff, decide_eq_true_iff] at htest
        exact failsAllowed_throw (.dangling htest.1) _
      · refine (hs _).bind fun x rest ↦ ?_
        exact (failsAllowed_statements closing b x.opensBranch rest).bind fun _ _ ↦
          failsAllowed_pure _ _

theorem failsAllowed_blockOf (b : Nat) (ts : List Token) : FailsAllowed cx (blockOf cx s b) ts :=
  (failsAllowed_expect _ ts).bind fun _ r ↦ failsAllowed_statements hs _ b false r

theorem failsAllowed_functionOf (b : Nat) (ts : List Token) :
    FailsAllowed cx (functionOf cx s b) ts := by
  refine (failsAllowed_expect _ ts).bind fun _ r₁ ↦ (failsAllowed_expectName r₁).bind fun _ r₂ ↦ ?_
  refine (failsAllowed_expect _ r₂).bind fun _ r₃ ↦ ?_
  refine (failsAllowed_items failsAllowed_expectName _ b r₃).bind fun _ r₄ ↦ ?_
  exact (failsAllowed_blockOf hs b r₄).bind fun _ _ ↦ failsAllowed_pure _ _

omit hs

theorem failsAllowed_statementAt : ∀ b ts, FailsAllowed cx (statementAt cx b) ts
  | 0, ts => failsAllowed_failAtEnd rfl ts
  | _ + 1, [] => .bind_of_ok (run_peek []) (failsAllowed_failAtEnd rfl _)
  | b + 1, t :: ts => by
    have hblock := failsAllowed_blockOf (failsAllowed_statementAt b) b
    have hbranch (build : Expr → List (Statement Unit) → Statement Unit) (r : List Token) :
        FailsAllowed cx (do
          let test ← condition cx b
          return build test (← blockOf cx (statementAt cx b) b)) r :=
      (failsAllowed_condition b r).bind fun _ r' ↦ (hblock r').bind fun _ _ ↦ failsAllowed_pure _ _
    rw [statementAt]
    refine .bind_of_ok (run_peek _) ?_
    rw [List.head?_cons]
    dsimp only
    split
    -- the statements in the order in which their first tokens are tried
    · exact failsAllowed_declaration b _
    · exact .bind_of_ok (run_advance _) (hbranch _ _)
    · exact .bind_of_ok (run_advance _) (hbranch _ _)
    · exact .bind_of_ok (run_advance _) ((hblock _).bind fun _ _ ↦ failsAllowed_pure _ _)
    · exact failsAllowed_functionOf (failsAllowed_statementAt b) b _
    · refine .bind_of_ok (run_advance _) ?_
      refine (failsAllowed_expressionAt b .lowest _).bind fun _ r ↦ ?_
      exact (failsAllowed_endStatement r).bind fun _ _ ↦ failsAllowed_pure _ _
    · exact (hblock _).bind fun _ _ ↦ failsAllowed_pure _ _
    · refine .bind_of_ok rfl ?_
      split
      · exact failsAllowed_assignment b _
      · split
        · refine (failsAllowed_expressionAt (b + 1) .lowest _).bind fun _ r ↦ ?_
          exact (failsAllowed_endStatement r).bind fun _ _ ↦ failsAllowed_pure _ _
        · rename_i hnone
          exact failsAllowed_throw (.unknown (Option.not_isSome_iff_eq_none.mp hnone)) _

end Statements

/-! ## Requests -/

/-- What a parser can be asked to read from where it stands. -/
inductive Request where
  | expression (min : Precedence)
  | statement
  | block
  | program
  /-- A term by the given rule, whatever the grammar says. -/
  | term (rule : TermRule)
  /-- An operator and its right operand, behind an expression. -/
  | extension (left : Expr) (precedence : Precedence)
  | token (kind : TokenKind)
  | name

namespace Request

/-- What is returned if the request can be met. -/
def Answer : Request → Type
  | expression _ | term _ | extension .. => Expr
  | statement => Statement Unit
  | block | program => List (Statement Unit)
  | token _ => Token
  | name => String

def reader (cx : Context) : (request : Request) → ParseM request.Answer
  | expression min => Parse.expression cx min
  | statement => Parse.statement cx
  | block => Parse.block cx
  | program => Parse.program cx
  | term rule => termBy cx rule
  | extension left precedence => extend cx left precedence
  | token kind => expect cx kind
  | name => expectName cx

/-- Whether the rule to read by comes with the request, and not from the grammar. -/
def namesRule : Request → Bool
  | term _ | extension .. => true
  | _ => false

end Request

section Requests

variable {cx : Context} {ts : List Token}

/-- A request that leaves the rules to the grammar fails as the grammar allows. -/
theorem failsAllowed_reader (request : Request) (h : request.namesRule = false) (ts : List Token) :
    FailsAllowed cx (request.reader cx) ts := by
  cases request with
  | expression min => exact failsAllowed_expressionAt ts.length min ts
  | statement => exact failsAllowed_statementAt ts.length ts
  | block => exact failsAllowed_blockOf (failsAllowed_statementAt ts.length) ts.length ts
  | program =>
    exact failsAllowed_statements (failsAllowed_statementAt ts.length) none ts.length false ts
  | token kind => exact failsAllowed_expect kind ts
  | name => exact failsAllowed_expectName ts
  | term rule => cases h
  | extension left precedence => cases h

/-- A request that comes with a rule may fail for one more reason: the rule does not get what it
wants. -/
theorem allows_or_expected?_of_run {request : Request} {e : ParseError} {rest : List Token}
    (h : (request.reader cx).run ts = .error e rest) :
    cx.grammar.Allows e ∨ ∃ expected, e.expected? = some expected := by
  have hinner : ∀ min r, FailsAllowed cx (expressionAt cx ts.length min) r :=
    failsAllowed_expressionAt ts.length
  cases request with
  | term rule =>
    replace h : (term cx (expressionAt cx ts.length) ts.length rule).run ts = .error e rest := h
    by_cases hfits : ∃ t us, ts = t :: us ∧ rule.fits t.kind = true
    · obtain ⟨t, us, rfl, hfits⟩ := hfits
      exact .inl (failsAllowed_term hinner _ hfits e rest h)
    · rw [run_term_of_misfit ts.length fun t us hts ↦
        Bool.eq_false_iff.mpr fun hfit ↦ hfits ⟨t, us, hts, hfit⟩] at h
      exact .inr ⟨_, expected?_of_run_unexpected h⟩
  | extension left precedence =>
    replace h : (binaryTail cx (expressionAt cx ts.length) left precedence).run ts
      = .error e rest := h
    by_cases hop : ∃ t us, ts = t :: us ∧ t.kind.binaryOp? ≠ none
    · obtain ⟨t, us, rfl, hop⟩ := hop
      exact .inl (failsAllowed_binaryTail hinner left precedence hop e rest h)
    · rw [run_binaryTail_of_misfit left precedence fun t us hts ↦
        Classical.not_not.mp fun hne ↦ hop ⟨t, us, hts, hne⟩] at h
      exact .inr ⟨_, expected?_of_run_unexpected h⟩
  | expression _ | statement | block | program | token _ | name =>
    exact .inl (failsAllowed_reader _ rfl ts e rest h)

end Requests

/-! ## Errors that never happen -/

end Parse

/-- The grammars that changes of the tables lead to, from the rules of the language on. -/
inductive Grammar.Reached : Grammar → Prop
  | standard : Reached .standard
  | setTerm {g : Grammar} (hg : Reached g) (kind : TokenKind) (rule : TermRule) :
      Reached (g.setTerm kind rule)
  | setTail {g : Grammar} (hg : Reached g) (kind : TokenKind) (rule : TailRule) :
      Reached (g.setTail kind rule)

/-- Changes replace rules and never take one away. -/
theorem Grammar.Reached.tail?_ne_none {g : Grammar} (hg : g.Reached) {kind : TokenKind}
    (hop : kind.binaryOp? ≠ none) : g.tail? kind ≠ none := by
  induction hg with
  | standard => rwa [Grammar.standard_tail?, ne_eq, Option.map_eq_none_iff]
  | setTerm hg _ _ ih => exact ih
  | setTail hg k rule ih =>
    rw [Grammar.setTail]
    dsimp only
    split
    · exact Option.some_ne_none rule
    · exact ih

theorem Grammar.standard_fits {kind : TokenKind} {rule : TermRule}
    (h : standard.term? kind = some rule) : rule.fits kind = true := by
  cases kind <;> cases h <;> rfl

theorem Grammar.isOfRule_of_standard_allows {e : ParseError} (h : standard.Allows e)
    {expected : Expected} (he : e.expected? = some expected) : expected.isOfRule = false := by
  cases h with
  | missing he' hfixed => rwa [Option.some.inj (he.symm.trans he')]
  | misplaced hrule hfits =>
    rw [standard_fits hrule] at hfits
    cases hfits
  | noTerm | noTail | unknown | dangling => cases he

/-- What a phrase wants is never named like what a rule wants. -/
theorem Expected.describe_not_mem {expected : Expected} (h : expected.isOfRule = false) :
    expected.describe ∉ ["boolean", "prefix operator", "infix operator"] := by
  cases expected with
  | token kind | commaOr kind => cases kind <;> decide
  | expression | statement => decide
  | boolean | unaryOperator | binaryOperator => cases h

namespace Parse

/-- Two kinds of errors never happen, wherever a parser stands and whatever it is asked to read. No
change of the tables brings about an operator without a rule. And as long as the rules of the
language are read by, no error says that a boolean or an operator was expected. -/
theorem impossible_errors (ts : List Token) :
    (∀ g : Grammar, g.Reached → ∀ line request t rest,
      (Request.reader ⟨g, line⟩ request).run ts ≠ .error (.noTailRule t) rest) ∧
    ∀ e, (parse ts = .error e ∨ ∃ line request rest, request.namesRule = false ∧
        (Request.reader ⟨.standard, line⟩ request).run ts = .error e rest) →
      ∀ expected, e.expected? = some expected →
        expected.describe ∉ ["boolean", "prefix operator", "infix operator"] := by
  refine ⟨fun g hg line request t rest hrun ↦ ?_, fun e he expected hexpected ↦ ?_⟩
  · obtain hallows | ⟨expected, he⟩ := allows_or_expected?_of_run hrun
    · cases hallows with
      | missing he => cases he
      | noTail hop hnone => exact hg.tail?_ne_none hop hnone
    · cases he
  · have hallows : Grammar.standard.Allows e := by
      obtain hparse | ⟨line, request, rest, hrule, hrun⟩ := he
      · obtain ⟨rest, hrun⟩ := parse_eq_error_iff_run.mp hparse
        exact failsAllowed_reader .program rfl ts e rest hrun
      · exact failsAllowed_reader request hrule ts e rest hrun
    exact Expected.describe_not_mem (Grammar.isOfRule_of_standard_allows hallows hexpected)

end Parse

end Scriptlet
