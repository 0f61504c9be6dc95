import Scriptlet.Proofs.Parse.Equations

/-!
# The levels of expressions

A grammar of expressions in layers, one for each way of binding, and the proof that reading by
precedence is reading by this grammar.

## The grammar

`Spells level ts e` says that the tokens `ts` spell the expression `e` at a level. A primary is a
literal, a name, a call or an expression in parentheses; a unary is a primary behind any number of
unary operators; each looser level joins phrases of the next tighter one by its own operators, and
folds them from the left. The operators of a level are listed in `Level.operators`, independently
of the precedences that the reader compares.

## The correspondence

A reader at the precedence `min` reads a phrase of the level above `min`, and one that cannot be
carried on: the token behind it is neither an operator that binds tighter than `min` nor a
parenthesis that would make a call of a name at its end. Conversely every such phrase is read.

Both directions rest on the loop of tails. Behind a phrase of some level, reading an expression is
the same as reading tails of what the phrase spells (`carries_of_spells`). And along the loop
what has been read so far is a phrase of a level at which the next operator may be folded
(`readsAs_of_run_tailsOf`).
-/

namespace Scriptlet

namespace TokenKind

def inExpression : TokenKind → Bool
  | .assign | .semicolon | .leftBrace | .rightBrace | .leftBracket | .rightBracket | .keyLet
  | .keyFunction | .keyReturn | .keyIf | .keyElse | .keyElif | .newline | .other => false
  | _ => true

theorem inExpression_of_unaryOp? {kind : TokenKind} {op : UnaryOp} (h : kind.unaryOp? = some op) :
    kind.inExpression = true := by
  cases kind <;> first | rfl | cases h

theorem inExpression_of_binaryOp? {kind : TokenKind} {op : BinaryOp}
    (h : kind.binaryOp? = some op) : kind.inExpression = true := by
  cases kind <;> first | rfl | cases h

end TokenKind

namespace Parse

/-! ## The grammar -/

/-- Phrases with commas between them, possibly none. -/
inductive Items {α : Type} (R : List Token → α → Prop) : List Token → List α → Prop
  | nil : Items R [] []
  | one {ts : List Token} {a : α} (h : R ts a) : Items R ts [a]
  | more {ts us : List Token} {a b : α} {bs : List α} {comma : Token} (h : R ts a)
      (hcomma : comma.kind = .comma) (hrest : Items R us (b :: bs)) :
      Items R (ts ++ comma :: us) (a :: b :: bs)

theorem Items.forall_mem {α : Type} {R : List Token → α → Prop} {P : Token → Prop}
    {ts : List Token} {as : List α} (h : Items R ts as)
    (hR : ∀ {us a}, R us a → ∀ t ∈ us, P t) (hcomma : ∀ t : Token, t.kind = .comma → P t) :
    ∀ t ∈ ts, P t := by
  induction h with
  | nil =>
    intro t ht
    cases ht
  | one h => exact hR h
  | more h hkind _ ih =>
    intro t ht
    rw [List.mem_append, List.mem_cons] at ht
    rcases ht with ht | rfl | ht
    · exact hR h t ht
    · exact hcomma t hkind
    · exact ih t ht

theorem Items.imp {α : Type} {R S : List Token → α → Prop} {ts : List Token} {as : List α}
    (h : Items R ts as) (hRS : ∀ {us a}, R us a → S us a) : Items S ts as := by
  induction h with
  | nil => exact .nil
  | one h => exact .one (hRS h)
  | more h hcomma _ ih => exact .more (hRS h) hcomma ih

/-- Expressions of a single token that is not a name. -/
inductive Literal : Token → Expr → Prop
  | number {t : Token} (h : t.kind = .number) : Literal t (.number t.lexeme)
  | string {t : Token} (h : t.kind = .string) : Literal t (.string t.lexeme)
  | true {t : Token} (h : t.kind = .keyTrue) : Literal t (.boolean Bool.true)
  | false {t : Token} (h : t.kind = .keyFalse) : Literal t (.boolean Bool.false)

/-- The layers of expressions, tightest first. -/
inductive Level where
  | primary
  | unary
  | multiplicative
  | additive
  | logical
deriving DecidableEq, Repr

namespace Level

/-- The level of the phrases that a level joins. -/
def tighter : Level → Level
  | logical => additive
  | additive => multiplicative
  | multiplicative => unary
  | unary | primary => primary

def operators : Level → List (TokenKind × BinaryOp)
  | logical => [(.doublePipe, .or), (.doubleAmpersand, .and)]
  | additive =>
    [(.plus, .add), (.minus, .sub), (.less, .less), (.greater, .greater),
      (.lessEqual, .lessEqual), (.greaterEqual, .greaterEqual), (.equalEqual, .equal),
      (.bangEqual, .notEqual)]
  | multiplicative => [(.star, .mul), (.slash, .div)]
  | unary | primary => []

def unaryOperators : List (TokenKind × UnaryOp) :=
  [(.plus, .plus), (.minus, .negate), (.bang, .not)]

/-- The level that is read at a precedence. -/
def above : Precedence → Level
  | .lowest => logical
  | .logical => additive
  | .additive => multiplicative
  | .multiplicative | .unary | .call => unary

end Level

/-- The tokens spell the expression at the level. -/
inductive Spells : Level → List Token → Expr → Prop
  | literal {t : Token} {e : Expr} (h : Literal t e) : Spells .primary [t] e
  | name {t : Token} (h : t.kind = .identifier) : Spells .primary [t] (.name t.lexeme)
  | call {f l r : Token} {ts : List Token} {es : List Expr} (hf : f.kind = .identifier)
      (hl : l.kind = .leftParen) (h : Items (Spells .logical) ts es)
      (hr : r.kind = .rightParen) : Spells .primary (f :: l :: (ts ++ [r])) (.call f.lexeme es)
  | group {l r : Token} {ts : List Token} {e : Expr} (hl : l.kind = .leftParen)
      (h : Spells .logical ts e) (hr : r.kind = .rightParen) :
      Spells .primary (l :: (ts ++ [r])) e
  | unary {t : Token} {op : UnaryOp} {ts : List Token} {e : Expr}
      (ht : (t.kind, op) ∈ Level.unaryOperators) (h : Spells .unary ts e) :
      Spells .unary (t :: ts) (.unary op e)
  | lift {level : Level} {ts : List Token} {e : Expr} (h : Spells level.tighter ts e) :
      Spells level ts e
  | fold {level : Level} {t : Token} {op : BinaryOp} {ls rs : List Token} {l r : Expr}
      (hl : Spells level ls l) (ht : (t.kind, op) ∈ level.operators)
      (hr : Spells level.tighter rs r) : Spells level (ls ++ t :: rs) (.binary op l r)

/-- Induction over phrases; the arguments of a call come with the hypothesis for each of them. -/
@[elab_as_elim]
theorem Spells.induction {motive : ∀ level ts e, Spells level ts e → Prop}
    (literal : ∀ {t e} (h : Literal t e), motive .primary [t] e (.literal h))
    (name : ∀ {t : Token} (h : t.kind = .identifier),
      motive .primary [t] (.name t.lexeme) (.name h))
    (call : ∀ {f l r : Token} {ts es} (hf : f.kind = .identifier) (hl : l.kind = .leftParen)
      (h : Items (Spells .logical) ts es) (hr : r.kind = .rightParen),
      Items (fun us e ↦ ∃ hus : Spells .logical us e, motive .logical us e hus) ts es →
      motive .primary (f :: l :: (ts ++ [r])) (.call f.lexeme es) (.call hf hl h hr))
    (group : ∀ {l r : Token} {ts e} (hl : l.kind = .leftParen) (h : Spells .logical ts e)
      (hr : r.kind = .rightParen), motive .logical ts e h →
      motive .primary (l :: (ts ++ [r])) e (.group hl h hr))
    (unary : ∀ {t : Token} {op ts e} (ht : (t.kind, op) ∈ Level.unaryOperators)
      (h : Spells .unary ts e), motive .unary ts e h →
      motive .unary (t :: ts) (.unary op e) (.unary ht h))
    (lift : ∀ {level ts e} (h : Spells level.tighter ts e), motive level.tighter ts e h →
      motive level ts e (.lift h))
    (fold : ∀ {level} {t : Token} {op ls rs l r} (hl : Spells level ls l)
      (ht : (t.kind, op) ∈ level.operators) (hr : Spells level.tighter rs r),
      motive level ls l hl → motive level.tighter rs r hr →
      motive level (ls ++ t :: rs) (.binary op l r) (.fold hl ht hr))
    {level : Level} {ts : List Token} {e : Expr} (h : Spells level ts e) : motive level ts e h :=
  @Spells.rec motive
    (fun ts es _ ↦ Items (fun us e ↦ ∃ hus : Spells .logical us e, motive .logical us e hus) ts es)
    literal name call group unary lift fold .nil (fun h ih ↦ .one ⟨h, ih⟩)
    (fun h hcomma _ ih ihrest ↦ .more ⟨h, ih⟩ hcomma ihrest) level ts e h

/-! ## Levels and precedences

The reader compares precedences and the grammar counts levels. Both are measured on one scale, on
which the operators of a level have the rank of the level. -/

namespace Level

/-- The place of a level on the scale of precedences. -/
def rank : Level → Nat
  | logical => 1
  | additive => 2
  | multiplicative => 3
  | unary => 4
  | primary => 5

def ofOperator (op : BinaryOp) : Level :=
  match op.precedence with
  | .logical => logical
  | .additive => additive
  | _ => multiplicative

theorem rank_le_tighter (level : Level) : level.rank ≤ level.tighter.rank := by
  cases level <;> decide

theorem rank_ofOperator (op : BinaryOp) : (ofOperator op).rank = op.precedence.rank := by
  cases op <;> rfl

theorem tighter_ofOperator (op : BinaryOp) : (ofOperator op).tighter = above op.precedence := by
  cases op <;> rfl

theorem mem_operators_ofOperator {kind : TokenKind} {op : BinaryOp}
    (h : kind.binaryOp? = some op) : (kind, op) ∈ (ofOperator op).operators := by
  cases kind <;> cases h <;> decide

theorem binaryOp?_of_mem_operators {level : Level} {kind : TokenKind} {op : BinaryOp}
    (h : (kind, op) ∈ level.operators) : kind.binaryOp? = some op ∧ ofOperator op = level := by
  cases level <;> simp only [operators, List.mem_cons, Prod.mk.injEq, List.not_mem_nil] at h
  · rcases h with ⟨rfl, rfl⟩ | ⟨rfl, rfl⟩ | h <;> first | exact ⟨rfl, rfl⟩ | cases h
  · rcases h with ⟨rfl, rfl⟩ | ⟨rfl, rfl⟩ | ⟨rfl, rfl⟩ | ⟨rfl, rfl⟩ | ⟨rfl, rfl⟩ | ⟨rfl, rfl⟩ |
      ⟨rfl, rfl⟩ | ⟨rfl, rfl⟩ | h <;> first | exact ⟨rfl, rfl⟩ | cases h
  · rcases h with ⟨rfl, rfl⟩ | ⟨rfl, rfl⟩ | h <;> first | exact ⟨rfl, rfl⟩ | cases h

theorem mem_unaryOperators_iff {kind : TokenKind} {op : UnaryOp} :
    (kind, op) ∈ unaryOperators ↔ kind.unaryOp? = some op := by
  constructor
  · intro h
    simp only [unaryOperators, List.mem_cons, Prod.mk.injEq, List.not_mem_nil, or_false] at h
    rcases h with ⟨rfl, rfl⟩ | ⟨rfl, rfl⟩ | ⟨rfl, rfl⟩ <;> rfl
  · intro h
    cases kind <;> cases h <;> decide

/-- The operators of the level above a precedence, and those of tighter levels, bind tighter. -/
theorem lt_precedence_of_rank_above_le {min : Precedence} {op : BinaryOp}
    (h : (above min).rank ≤ op.precedence.rank) : min < op.precedence := by
  cases min <;> cases op <;> revert h <;> decide

theorem rank_above_le_of_lt {min : Precedence} {op : BinaryOp} (h : min < op.precedence) :
    (above min).rank ≤ op.precedence.rank := by
  cases min <;> cases op <;> revert h <;> decide

/-- No operator outside the level above a precedence could be folded there. -/
theorem rank_le_rank_above {min : Precedence} {op : BinaryOp} (h : ¬ min < op.precedence) :
    op.precedence.rank ≤ (above min).rank := by
  cases min <;> cases op <;> revert h <;> decide

end Level

namespace Spells

theorem mono {level looser : Level} {ts : List Token} {e : Expr} (h : Spells level ts e)
    (hrank : looser.rank ≤ level.rank) : Spells looser ts e := by
  by_cases heq : looser = level
  · rw [heq]
    exact h
  · have hstep : looser.tighter.rank ≤ level.rank := by
      revert heq hrank
      cases looser <;> cases level <;> decide
    have hless : level.rank - looser.tighter.rank < level.rank - looser.rank := by
      revert heq hrank
      cases looser <;> cases level <;> decide
    -- one level at a time
    exact lift (h.mono hstep)
termination_by level.rank - looser.rank

theorem exists_term {level : Level} {ts : List Token} {e : Expr} (h : Spells level ts e) :
    ∃ t us rule, ts = t :: us ∧ Grammar.standard.term? t.kind = some rule := by
  induction h using Spells.induction with
  | @literal t e h =>
    cases h with
    | number h => exact ⟨t, [], .number, rfl, by rw [h]; rfl⟩
    | string h => exact ⟨t, [], .string, rfl, by rw [h]; rfl⟩
    | true h => exact ⟨t, [], .boolean, rfl, by rw [h]; rfl⟩
    | false h => exact ⟨t, [], .boolean, rfl, by rw [h]; rfl⟩
  | @name t h => exact ⟨t, [], .nameOrCall, rfl, by rw [h]; rfl⟩
  | call hf _ _ _ _ => exact ⟨_, _, .nameOrCall, rfl, by rw [hf]; rfl⟩
  | group hl _ _ _ => exact ⟨_, _, .group, rfl, by rw [hl]; rfl⟩
  | @unary t op ts e ht _ _ =>
    refine ⟨t, ts, .unary, rfl, ?_⟩
    have hop := Level.mem_unaryOperators_iff.mp ht
    revert hop
    cases t.kind <;> intro hop <;> first | rfl | cases hop
  | lift _ ih => exact ih
  | @fold level t op ls rs l r _ _ _ ihl _ =>
    obtain ⟨u, us, rule, hls, hrule⟩ := ihl
    exact ⟨u, us ++ t :: rs, rule, by rw [hls, List.cons_append], hrule⟩

theorem inExpression {level : Level} {ts : List Token} {e : Expr} (h : Spells level ts e) :
    ∀ t ∈ ts, t.kind.inExpression = true := by
  induction h using Spells.induction with
  | @literal t e h =>
    intro u hu
    rw [List.mem_singleton.mp hu]
    cases h with
    | number h | string h | true h | false h =>
      rw [h]
      rfl
  | @name t h =>
    intro u hu
    rw [List.mem_singleton.mp hu, h]
    rfl
  | @call f l r ts es hf hl _ hr ih =>
    intro u hu
    rw [List.mem_cons, List.mem_cons, List.mem_append, List.mem_singleton] at hu
    rcases hu with rfl | rfl | hu | rfl
    · rw [hf]
      rfl
    · rw [hl]
      rfl
    · exact ih.forall_mem (fun ⟨_, ihu⟩ ↦ ihu) (fun t ht ↦ by rw [ht]; rfl) u hu
    · rw [hr]
      rfl
  | @group l r ts e hl _ hr ih =>
    intro u hu
    rw [List.mem_cons, List.mem_append, List.mem_singleton] at hu
    rcases hu with rfl | hu | rfl
    · rw [hl]
      rfl
    · exact ih u hu
    · rw [hr]
      rfl
  | @unary t op ts e ht _ ih =>
    intro u hu
    rcases List.mem_cons.mp hu with rfl | hu
    · exact TokenKind.inExpression_of_unaryOp? (Level.mem_unaryOperators_iff.mp ht)
    · exact ih u hu
  | lift _ ih => exact ih
  | @fold level t op ls rs l r _ ht _ ihl ihr =>
    intro u hu
    rw [List.mem_append, List.mem_cons] at hu
    rcases hu with hu | rfl | hu
    · exact ihl u hu
    · exact TokenKind.inExpression_of_binaryOp? (Level.binaryOp?_of_mem_operators ht).1
    · exact ihr u hu

/-- Assignment is no operator. -/
theorem kind_ne_assign {level : Level} {ts : List Token} {e : Expr} (h : Spells level ts e) :
    ∀ t ∈ ts, t.kind ≠ .assign := by
  intro t ht hkind
  have hin := h.inExpression t ht
  rw [hkind] at hin
  cases hin

theorem ne_nil {level : Level} {ts : List Token} {e : Expr} (h : Spells level ts e) :
    ts ≠ [] := by
  obtain ⟨t, us, rule, hts, -⟩ := h.exists_term
  rw [hts]
  exact List.cons_ne_nil t us

end Spells

/-! ## Where a phrase ends -/

/-- The next token is an operator that binds tighter than `min`. -/
def Binds (min : Precedence) (next? : Option Token) : Prop :=
  ∃ next op, next? = some next ∧ next.kind.binaryOp? = some op ∧ min < op.precedence

/-- The next token opens the arguments of the name in front of it. -/
def Calls (last? next? : Option Token) : Prop :=
  ∃ last next, last? = some last ∧ next? = some next ∧ last.kind = .identifier ∧
    next.kind = .leftParen

/-- The next token carries on a phrase that ends with the last one. -/
def Continues (min : Precedence) (last? next? : Option Token) : Prop :=
  Binds min next? ∨ Calls last? next?

theorem not_binds_of_binaryOp?_none {min : Precedence} {t : Token} (h : t.kind.binaryOp? = none) :
    ¬ Binds min (some t) := by
  rintro ⟨next, op, hnext, hop, -⟩
  cases hnext
  rw [h] at hop
  cases hop

theorem not_calls_of_ne {last? : Option Token} {t : Token} (h : t.kind ≠ .leftParen) :
    ¬ Calls last? (some t) := by
  rintro ⟨last, next, -, hnext, -, hkind⟩
  cases hnext
  exact h hkind

/-- The tokens that close or separate phrases carry none on. -/
theorem not_continues_of_separator {min : Precedence} {last? : Option Token} {t : Token}
    (h : t.kind = .comma ∨ t.kind = .rightParen ∨ t.kind = .semicolon ∨ t.kind = .rightBrace) :
    ¬ Continues min last? (some t) := by
  rintro (hbinds | hcalls)
  · refine not_binds_of_binaryOp?_none ?_ hbinds
    rcases h with h | h | h | h <;> rw [h] <;> rfl
  · refine not_calls_of_ne ?_ hcalls
    rcases h with h | h | h | h <;> rw [h] <;> decide

theorem not_continues_none (min : Precedence) (last? : Option Token) :
    ¬ Continues min last? none := by
  rintro (⟨next, op, hnext, -⟩ | ⟨last, next, -, hnext, -⟩)
  · cases hnext
  · cases hnext

theorem getLast?_append_of_ne_nil {us : List Token} (ts : List Token) (h : us ≠ []) :
    (ts ++ us).getLast? = us.getLast? := by
  rw [List.getLast?_append, List.getLast?_eq_some_getLast h, Option.some_or]

/-! ## Lists with commas

Stated for any phrase `R` and any reader of it, since arguments and parameters share the reader of
their lists. -/

section Lists

variable {α : Type} {cx : Context} {item : ParseM α} {R : List Token → α → Prop}
  {closing : TokenKind}

theorem run_moreItems_comma {comma : Token} (h : comma.kind = .comma) (b : Nat)
    (ts : List Token) :
    (moreItems cx item closing (b + 1)).run (comma :: ts)
      = (do
          let x ← item
          let xs ← moreItems cx item closing b
          return x :: xs).run ts := by
  rw [moreItems, run_bind_of_ok (run_peekKind _), List.head?_cons, Option.map_some, h, if_pos rfl,
    run_bind_of_ok (run_advance _), List.tail_cons]

theorem run_moreItems_close {close : Token} (h : close.kind = closing) (hne : closing ≠ .comma)
    (b : Nat) (ts : List Token) :
    (moreItems cx item closing (b + 1)).run (close :: ts) = .ok [] ts := by
  rw [moreItems, run_bind_of_ok (run_peekKind _), List.head?_cons, Option.map_some, h,
    if_neg (fun heq ↦ hne (Option.some.inj heq)), if_pos rfl, run_bind_of_ok (run_advance _),
    List.tail_cons, EStateM.run_pure]

theorem run_moreItems_other {t : Token} (hcomma : t.kind ≠ .comma) (hclose : t.kind ≠ closing)
    (b : Nat) (ts : List Token) :
    (moreItems cx item closing (b + 1)).run (t :: ts)
      = .error (.unexpectedToken (.commaOr closing) t) (t :: ts) := by
  rw [moreItems, run_bind_of_ok (run_peekKind _), List.head?_cons, Option.map_some,
    if_neg (fun heq ↦ hcomma (Option.some.inj heq)),
    if_neg (fun heq ↦ hclose (Option.some.inj heq)), run_unexpected_cons]

theorem run_item_moreItems (hne : closing ≠ .comma)
    (hread : ∀ {used : List Token} {a : α} {t : Token} {rest : List Token}, R used a →
      t.kind = .comma ∨ t.kind = closing → item.run (used ++ t :: rest) = .ok a (t :: rest))
    (hfirst : ∀ {used : List Token} {a : α}, R used a → used ≠ []) {ts : List Token}
    {as : List α} (h : Items R ts as) (hsome : as ≠ []) {close : Token}
    (hclose : close.kind = closing) (rest : List Token) {b : Nat} (hb : ts.length ≤ b) :
    (do
      let x ← item
      let xs ← moreItems cx item closing b
      return x :: xs).run (ts ++ close :: rest) = .ok as rest := by
  induction h generalizing b with
  | nil => exact absurd rfl hsome
  | @one ts a h =>
    have hpos : 0 < ts.length := List.length_pos_iff.mpr (hfirst h)
    obtain ⟨b, rfl⟩ : ∃ k, b = k + 1 := ⟨b - 1, by omega⟩
    rw [run_bind_of_ok (hread h (Or.inr hclose)),
      run_bind_of_ok (run_moreItems_close hclose hne b rest), EStateM.run_pure]
  | @more ts us a a' as comma h hcomma _ ih =>
    have hpos : 0 < ts.length := List.length_pos_iff.mpr (hfirst h)
    rw [List.length_append, List.length_cons] at hb
    obtain ⟨b, rfl⟩ : ∃ k, b = k + 1 := ⟨b - 1, by omega⟩
    have htail := ih (List.cons_ne_nil a' as) (b := b) (by omega)
    rw [List.append_assoc, List.cons_append, run_bind_of_ok (hread h (Or.inl hcomma)),
      EStateM.run_bind, run_moreItems_comma hcomma, htail]
    rfl

theorem run_items_of_items (hne : closing ≠ .comma)
    (hread : ∀ {used : List Token} {a : α} {t : Token} {rest : List Token}, R used a →
      t.kind = .comma ∨ t.kind = closing → item.run (used ++ t :: rest) = .ok a (t :: rest))
    (hfirst : ∀ {used : List Token} {a : α}, R used a →
      ∃ t us, used = t :: us ∧ t.kind ≠ closing) {ts : List Token} {as : List α}
    (h : Items R ts as) {close : Token} (hclose : close.kind = closing) (rest : List Token)
    {b : Nat} (hb : ts.length ≤ b) :
    (items cx item closing b).run (ts ++ close :: rest) = .ok as rest := by
  have hnonempty : ∀ {used : List Token} {a : α}, R used a → used ≠ [] := by
    intro used a hR
    obtain ⟨t, us, hused, -⟩ := hfirst hR
    rw [hused]
    exact List.cons_ne_nil t us
  have hsome : as ≠ [] → ∃ t us, ts = t :: us ∧ t.kind ≠ closing := by
    intro hnil
    cases h with
    | nil => exact absurd rfl hnil
    | one hR => exact hfirst hR
    | @more ts us a b bs comma hR _ _ =>
      obtain ⟨t, vs, hts, hkind⟩ := hfirst hR
      exact ⟨t, vs ++ comma :: us, by rw [hts]; rfl, hkind⟩
  by_cases has : as = []
  · subst has
    cases h
    rw [List.nil_append, items, run_bind_of_ok (run_peekKind _), List.head?_cons, Option.map_some,
      hclose, if_pos rfl, run_bind_of_ok (run_advance _), List.tail_cons, EStateM.run_pure]
  · obtain ⟨t, us, hts, hkind⟩ := hsome has
    have hpeek : (ts ++ close :: rest).head?.map Token.kind ≠ some closing := by
      rw [hts, List.cons_append, List.head?_cons, Option.map_some]
      exact fun heq ↦ hkind (Option.some.inj heq)
    rw [items, run_bind_of_ok (run_peekKind _), if_neg hpeek]
    exact run_item_moreItems hne hread hnonempty h has hclose rest hb

theorem items_of_run_moreItems {n : Nat}
    (hread : ∀ {ts : List Token} {a : α} {rest : List Token}, ts.length ≤ n →
      item.run ts = .ok a rest → ∃ used, ts = used ++ rest ∧ R used a) :
    ∀ {b : Nat} {ts rest : List Token} {as : List α}, ts.length ≤ n →
      (moreItems cx item closing b).run ts = .ok as rest →
      (∃ close, as = [] ∧ ts = close :: rest ∧ close.kind = closing) ∨
        ∃ comma used close a as', as = a :: as' ∧ ts = comma :: (used ++ close :: rest) ∧
          comma.kind = .comma ∧ close.kind = closing ∧ Items R used as := by
  intro b
  induction b with
  | zero =>
    intro ts rest as _ h
    cases ts <;> cases h
  | succ b ih =>
    intro ts rest as hn h
    rcases ts with _ | ⟨t, ts⟩
    · rw [run_moreItems_nil] at h
      cases h
    · rw [List.length_cons] at hn
      by_cases hcomma : t.kind = .comma
      · rw [run_moreItems_comma hcomma] at h
        obtain ⟨x, mid, hx, h⟩ := run_bind_eq_ok.mp h
        obtain ⟨xs, mid', hxs, h⟩ := run_bind_eq_ok.mp h
        cases h
        obtain ⟨used, rfl, hused⟩ := hread (by omega) hx
        rw [List.length_append] at hn
        right
        rcases ih (by omega) hxs with ⟨close, rfl, rfl, hclose⟩ |
            ⟨comma, us, close, a, as, rfl, rfl, hcomma', hclose, hus⟩
        · exact ⟨t, used, close, x, [], rfl, rfl, hcomma, hclose, .one hused⟩
        · refine ⟨t, used ++ comma :: us, close, x, a :: as, rfl, ?_, hcomma, hclose,
            .more hused hcomma' hus⟩
          rw [List.append_assoc, List.cons_append]
      · by_cases hclose : t.kind = closing
        · rw [run_moreItems_close hclose (by rw [← hclose]; exact hcomma)] at h
          cases h
          exact Or.inl ⟨t, rfl, rfl, hclose⟩
        · rw [run_moreItems_other hcomma hclose] at h
          cases h

theorem items_of_run_items {n : Nat}
    (hread : ∀ {ts : List Token} {a : α} {rest : List Token}, ts.length ≤ n →
      item.run ts = .ok a rest → ∃ used, ts = used ++ rest ∧ R used a)
    {b : Nat} {ts rest : List Token} {as : List α} (hn : ts.length ≤ n)
    (h : (items cx item closing b).run ts = .ok as rest) :
    ∃ used close, ts = used ++ close :: rest ∧ close.kind = closing ∧ Items R used as := by
  rw [items, run_bind_of_ok (run_peekKind _)] at h
  by_cases hpeek : ts.head?.map Token.kind = some closing
  · rcases ts with _ | ⟨t, ts⟩
    · cases hpeek
    · rw [if_pos hpeek, run_bind_of_ok (run_advance _), EStateM.run_pure] at h
      cases h
      exact ⟨[], t, rfl, Option.some.inj hpeek, .nil⟩
  · rw [if_neg hpeek] at h
    obtain ⟨x, mid, hx, h⟩ := run_bind_eq_ok.mp h
    obtain ⟨xs, mid', hxs, h⟩ := run_bind_eq_ok.mp h
    cases h
    obtain ⟨used, rfl, hused⟩ := hread hn hx
    rw [List.length_append] at hn
    rcases items_of_run_moreItems hread (by omega) hxs with ⟨close, rfl, rfl, hclose⟩ |
        ⟨comma, us, close, a, as, rfl, rfl, hcomma, hclose, hus⟩
    · exact ⟨used, close, rfl, hclose, .one hused⟩
    · refine ⟨used ++ comma :: us, close, ?_, hclose, .more hused hcomma hus⟩
      rw [List.append_assoc, List.cons_append]

end Lists

/-! ## How expressions start -/

section Expressions

variable {cx : Context} {t : Token} {ts : List Token}

/-- A term that is read is followed by its tails. -/
theorem run_expression_of_term {rule : TermRule} {e : Expr} {us : List Token} (min : Precedence)
    (hrule : cx.grammar.term? t.kind = some rule)
    (hterm : (term cx (expression cx) ts.length rule).run (t :: ts) = .ok e us) :
    (expression cx min).run (t :: ts) = (tailsOf cx min e).run us := by
  rw [run_expression_cons min hrule, run_bind_of_ok hterm]

theorem run_expression_literal (hcx : cx.grammar = .standard) {e : Expr} (h : Literal t e)
    (min : Precedence) : (expression cx min).run (t :: ts) = (tailsOf cx min e).run ts := by
  cases h with
  | number h =>
    refine run_expression_of_term min (by rw [hcx, h]; rfl) ?_
    rw [term, run_bind_of_ok (run_expect_eq_ok.mpr ⟨rfl, h⟩), EStateM.run_pure]
  | string h =>
    refine run_expression_of_term min (by rw [hcx, h]; rfl) ?_
    rw [term, run_bind_of_ok (run_expect_eq_ok.mpr ⟨rfl, h⟩), EStateM.run_pure]
  | true h | false h =>
    refine run_expression_of_term min (by rw [hcx, h]; rfl) ?_
    rw [term, run_bind_of_ok (run_peekKind _), List.head?_cons, Option.map_some, h]
    rfl

theorem run_expression_name (hcx : cx.grammar = .standard) (ht : t.kind = .identifier)
    (hnext : ts.head?.map Token.kind ≠ some .leftParen) (min : Precedence) :
    (expression cx min).run (t :: ts) = (tailsOf cx min (.name t.lexeme)).run ts := by
  refine run_expression_of_term min (by rw [hcx, ht]; rfl) ?_
  rw [term, run_bind_of_ok (run_expectName_eq_ok.mpr ⟨t, rfl, ht, rfl⟩),
    run_bind_of_ok (run_peekKind _), if_neg hnext, EStateM.run_pure]

theorem run_expression_call (hcx : cx.grammar = .standard) {l : Token}
    (ht : t.kind = .identifier) (hl : l.kind = .leftParen) (min : Precedence) :
    (expression cx min).run (t :: l :: ts)
      = (do
          let es ← items cx (expression cx .lowest) .rightParen (ts.length + 1)
          tailsOf cx min (.call t.lexeme es)).run ts := by
  have hterm : (term cx (expression cx) (ts.length + 1) .nameOrCall).run (t :: l :: ts)
      = (do
          let es ← items cx (expression cx .lowest) .rightParen (ts.length + 1)
          return Expr.call t.lexeme es).run ts := by
    rw [term, run_bind_of_ok (run_expectName_eq_ok.mpr ⟨t, rfl, ht, rfl⟩),
      run_bind_of_ok (run_peekKind _), List.head?_cons, Option.map_some, hl, if_pos rfl,
      run_bind_of_ok (run_advance _), List.tail_cons]
  rw [run_expression_cons min (by rw [hcx, ht]; rfl), List.length_cons, EStateM.run_bind, hterm,
    ← EStateM.run_bind, bind_assoc]
  simp only [pure_bind]

theorem run_expression_group (hcx : cx.grammar = .standard) (ht : t.kind = .leftParen)
    (min : Precedence) :
    (expression cx min).run (t :: ts)
      = (do
          let e ← expression cx .lowest
          let _ ← expect cx .rightParen
          tailsOf cx min e).run ts := by
  have hopen : (expect cx .leftParen).run (t :: ts) = .ok t ts := run_expect_eq_ok.mpr ⟨rfl, ht⟩
  have hterm : (term cx (expression cx) ts.length .group).run (t :: ts)
      = (do
          let e ← expression cx .lowest
          let _ ← expect cx .rightParen
          return e).run ts := by
    rw [term, run_bind_of_ok hopen]
  rw [run_expression_cons min (by rw [hcx, ht]; rfl), EStateM.run_bind, hterm,
    ← EStateM.run_bind, bind_assoc]
  simp only [bind_assoc, pure_bind]

theorem run_expression_unary (hcx : cx.grammar = .standard) {op : UnaryOp}
    (ht : t.kind.unaryOp? = some op) (min : Precedence) :
    (expression cx min).run (t :: ts)
      = (do
          let e ← expression cx .unary
          tailsOf cx min (.unary op e)).run ts := by
  have hrule : cx.grammar.term? t.kind = some .unary := by
    rw [hcx]
    revert ht
    cases t.kind <;> intro ht <;> first | rfl | cases ht
  have hterm : (term cx (expression cx) ts.length .unary).run (t :: ts)
      = (do
          let e ← expression cx .unary
          return Expr.unary op e).run ts := by
    rw [term, run_bind_of_ok (run_peekKind _), List.head?_cons, Option.map_some,
      Option.bind_some, ht]
    rfl
  rw [run_expression_cons min hrule, EStateM.run_bind, hterm, ← EStateM.run_bind, bind_assoc]
  simp only [pure_bind]

/-! ### The loop of tails -/

theorem run_tailsOf_of_not_binds {min : Precedence} (left : Expr) (h : ¬ Binds min ts.head?) :
    (tailsOf cx min left).run ts = .ok left ts := by
  rcases ts with _ | ⟨t, ts⟩
  · exact run_tailsOf_nil min left
  · refine run_tailsOf_stop left ?_
    rw [TokenKind.precedence_eq]
    rcases hop : t.kind.binaryOp? with _ | op
    · exact Nat.zero_le _
    · exact Nat.le_of_not_lt fun hlt ↦ h ⟨t, op, rfl, hop, hlt⟩

theorem run_tailsOf_operator (hcx : cx.grammar = .standard) {min : Precedence} {op : BinaryOp}
    (left : Expr) (hop : t.kind.binaryOp? = some op) (hlt : min < op.precedence) :
    (tailsOf cx min left).run (t :: ts)
      = (do
          let right ← expression cx op.precedence
          tailsOf cx min (.binary op left right)).run ts := by
  have hprec : t.kind.precedence = op.precedence := by
    rw [TokenKind.precedence_eq, hop]
    rfl
  have hrule : cx.grammar.tail? t.kind = some .binary := by
    rw [hcx, Grammar.standard_tail?, hop, Option.map_some]
  have htail : (tail cx (expression cx) left op.precedence .binary).run (t :: ts)
      = (do
          let right ← expression cx op.precedence
          return Expr.binary op left right).run ts := by
    rw [tail, binaryTail, run_bind_of_ok (run_peekKind _), List.head?_cons, Option.map_some,
      Option.bind_some, hop]
    rfl
  rw [run_tailsOf_cons left (by rw [hprec]; exact Nat.not_le_of_lt hlt) hrule, hprec,
    EStateM.run_bind, htail, ← EStateM.run_bind, bind_assoc]
  simp only [pure_bind]

end Expressions

/-! ## Phrases are read -/

section Correspondence

variable {cx : Context}

theorem not_binds_unary (next? : Option Token) : ¬ Binds .unary next? := by
  rintro ⟨next, op, -, -, hlt⟩
  revert hlt
  cases op <;> decide

/-- Behind the tokens, reading an expression is reading the tails of `e`. The next token must not
extend a phrase of the level itself: it opens no call of the last name, and binds no tighter than
the operators of the level. -/
def Carries (cx : Context) (level : Level) (ts : List Token) (e : Expr) : Prop :=
  ∀ (rest : List Token) (min : Precedence), ¬ Calls ts.getLast? rest.head? →
    (∀ next op, rest.head? = some next → next.kind.binaryOp? = some op →
      op.precedence.rank ≤ level.rank) →
    (∀ op : BinaryOp, level.rank ≤ op.precedence.rank → min < op.precedence) →
    (expression cx min).run (ts ++ rest) = (tailsOf cx min e).run rest

/-- In brackets a phrase of the loosest level is read up to the token that closes it. -/
theorem Carries.run_closed {ts : List Token} {e : Expr} (h : Carries cx .logical ts e)
    {c : Token} (hc : c.kind = .comma ∨ c.kind = .rightParen) (rest : List Token) :
    (expression cx .lowest).run (ts ++ c :: rest) = .ok e (c :: rest) := by
  have hop : c.kind.binaryOp? = none := by rcases hc with hc | hc <;> rw [hc] <;> rfl
  have hparen : c.kind ≠ .leftParen := by rcases hc with hc | hc <;> rw [hc] <;> decide
  rw [h (c :: rest) .lowest (not_calls_of_ne hparen)]
  · exact run_tailsOf_of_not_binds e (not_binds_of_binaryOp?_none hop)
  · intro next op hnext hnextop
    cases hnext
    rw [hop] at hnextop
    cases hnextop
  · intro op hle
    exact Level.lt_precedence_of_rank_above_le hle

theorem carries_of_spells (hcx : cx.grammar = .standard) {level : Level} {ts : List Token}
    {e : Expr} (h : Spells level ts e) : Carries cx level ts e := by
  induction h using Spells.induction with
  | literal h =>
    intro rest min _ _ _
    exact run_expression_literal hcx h min
  | @name t h =>
    intro rest min hcalls _ _
    refine run_expression_name hcx h (fun hnext ↦ hcalls ?_) min
    obtain ⟨next, hhead, hkind⟩ := Option.map_eq_some_iff.mp hnext
    exact ⟨t, next, rfl, hhead, h, hkind⟩
  | @call f l r ts es hf hl _ hr ih =>
    intro rest min _ _ _
    have hargs : (items cx (expression cx .lowest) .rightParen ((ts ++ r :: rest).length + 1)).run
        (ts ++ r :: rest) = .ok es rest := by
      refine run_items_of_items (by decide) ?_ ?_ ih hr rest ?_
      · rintro used e c us ⟨-, ihe⟩ hc
        exact ihe.run_closed hc us
      · rintro used e ⟨he, -⟩
        obtain ⟨t, us, rule, hused, hrule⟩ := he.exists_term
        refine ⟨t, us, hused, fun hkind ↦ ?_⟩
        rw [hkind] at hrule
        cases hrule
      · rw [List.length_append]
        omega
    rw [List.cons_append, List.cons_append, List.append_assoc, List.singleton_append,
      run_expression_call hcx hf hl min, run_bind_of_ok hargs]
  | @group l r ts e hl _ hr ih =>
    intro rest min _ _ _
    have hclose : (expect cx .rightParen).run (r :: rest) = .ok r rest :=
      run_expect_eq_ok.mpr ⟨rfl, hr⟩
    rw [List.cons_append, List.append_assoc, List.singleton_append,
      run_expression_group hcx hl min, run_bind_of_ok (ih.run_closed (Or.inr hr) rest),
      run_bind_of_ok hclose]
  | @unary t op ts e ht h ih =>
    intro rest min hcalls hnext _
    have hlast : ([t] ++ ts).getLast? = ts.getLast? := getLast?_append_of_ne_nil [t] h.ne_nil
    -- no operator binds tighter than a unary one, so the operand has no tails
    have hoperand : (expression cx .unary).run (ts ++ rest) = .ok e rest := by
      rw [ih rest .unary (by rw [← hlast]; exact hcalls) hnext ?_]
      · exact run_tailsOf_of_not_binds e (not_binds_unary _)
      · intro op
        cases op <;> decide
    rw [List.cons_append, run_expression_unary hcx (Level.mem_unaryOperators_iff.mp ht) min,
      run_bind_of_ok hoperand]
  | @lift level ts e _ ih =>
    intro rest min hcalls hnext hmin
    have hrank := level.rank_le_tighter
    exact ih rest min hcalls (fun next op hn ho ↦ Nat.le_trans (hnext next op hn ho) hrank)
      (fun op ho ↦ hmin op (Nat.le_trans hrank ho))
  | @fold level t op ls rs l r _ ht hr ihl ihr =>
    intro rest min hcalls hnext hmin
    obtain ⟨hop, rfl⟩ := Level.binaryOp?_of_mem_operators ht
    have hrank := Level.rank_ofOperator op
    have hlast : (ls ++ t :: rs).getLast? = rs.getLast? := by
      rw [List.append_cons]
      exact getLast?_append_of_ne_nil _ hr.ne_nil
    -- the right operand is read at the precedence of `op`, so an equal operator behind it stops it
    have hright : (expression cx op.precedence).run (rs ++ rest) = .ok r rest := by
      rw [ihr rest op.precedence (by rw [← hlast]; exact hcalls) ?_ ?_]
      · refine run_tailsOf_of_not_binds r ?_
        rintro ⟨next, op', hhead, hop', hlt⟩
        have hle := hnext next op' hhead hop'
        rw [hrank] at hle
        exact Nat.not_lt_of_le hle hlt
      · intro next op' hhead hop'
        exact Nat.le_trans (hnext next op' hhead hop') (Level.rank_le_tighter _)
      · intro op' hle
        rw [Level.tighter_ofOperator] at hle
        exact Level.lt_precedence_of_rank_above_le hle
    have hparen : t.kind ≠ .leftParen := by
      intro hkind
      rw [hkind] at hop
      cases hop
    rw [List.append_assoc, List.cons_append, ihl _ min (not_calls_of_ne hparen) ?_ hmin,
      run_tailsOf_operator hcx l hop (hmin op (Nat.le_of_eq hrank)), run_bind_of_ok hright]
    intro next op' hhead hop'
    cases hhead
    rw [hop] at hop'
    cases hop'
    exact Nat.le_of_eq hrank.symm

theorem run_expression_of_spells (hcx : cx.grammar = .standard) {min : Precedence}
    {ts rest : List Token} {e : Expr} (h : Spells (.above min) ts e)
    (hstop : ¬ Continues min ts.getLast? rest.head?) :
    (expression cx min).run (ts ++ rest) = .ok e rest := by
  rw [carries_of_spells hcx h rest min (fun hcalls ↦ hstop (Or.inr hcalls)) ?_
    fun op ↦ Level.lt_precedence_of_rank_above_le]
  · exact run_tailsOf_of_not_binds e fun hbinds ↦ hstop (Or.inl hbinds)
  · intro next op hhead hop
    exact Level.rank_le_rank_above fun hlt ↦ hstop (Or.inl ⟨next, op, hhead, hop, hlt⟩)

/-! ## What is read is a phrase -/

/-- A phrase of the level above `min` stands at the beginning of `ts`, and nothing carries it on
into `rest`. -/
def ReadsAs (min : Precedence) (ts : List Token) (e : Expr) (rest : List Token) : Prop :=
  ∃ used, ts = used ++ rest ∧ Spells (.above min) used e ∧
    ¬ Continues min used.getLast? rest.head?

/-- The invariant of the loop of tails: what has been read spells `left` at a level at which the
next operator may be folded. -/
def Folded (min : Precedence) (seen : List Token) (left : Expr) (next? : Option Token) : Prop :=
  ∃ level : Level, Spells level seen left ∧ (Level.above min).rank ≤ level.rank ∧
    (∀ next op, next? = some next → next.kind.binaryOp? = some op →
      op.precedence.rank ≤ level.rank) ∧ ¬ Calls seen.getLast? next?

namespace Folded

variable {min : Precedence} {seen : List Token} {left : Expr}

theorem start {next? : Option Token} (h : Spells .unary seen left)
    (hcalls : ¬ Calls seen.getLast? next?) : Folded min seen left next? := by
  refine ⟨.unary, h, ?_, ?_, hcalls⟩
  · cases min <;> decide
  · intro next op _ _
    cases op <;> decide

/-- A round of the loop folds an operator and its right operand. -/
theorem step {t : Token} {op : BinaryOp} {rs : List Token} {r : Expr} {next? : Option Token}
    (h : Folded min seen left (some t)) (hop : t.kind.binaryOp? = some op)
    (hlt : min < op.precedence) (hr : Spells (.above op.precedence) rs r)
    (hstop : ¬ Continues op.precedence rs.getLast? next?) :
    Folded min (seen ++ t :: rs) (.binary op left r) next? := by
  obtain ⟨level, hleft, -, hnext, -⟩ := h
  -- what was read so far is tight enough to be an operand of `op`, whatever its own level
  have hrank := Level.rank_ofOperator op
  have hlast : (seen ++ t :: rs).getLast? = rs.getLast? := by
    rw [List.append_cons]
    exact getLast?_append_of_ne_nil _ hr.ne_nil
  refine ⟨.ofOperator op, .fold (hleft.mono ?_) (Level.mem_operators_ofOperator hop) ?_, ?_, ?_, ?_⟩
  · rw [hrank]
    exact hnext t op rfl hop
  · rw [Level.tighter_ofOperator]
    exact hr
  · rw [hrank]
    exact Level.rank_above_le_of_lt hlt
  · intro next op' hhead hop'
    rw [hrank]
    exact Nat.le_of_not_lt fun hlt' ↦ hstop (Or.inl ⟨next, op', hhead, hop', hlt'⟩)
  · rw [hlast]
    exact fun hcalls ↦ hstop (Or.inr hcalls)

/-- The loop ends with a phrase of the level above `min`. -/
theorem readsAs {rest : List Token} (h : Folded min seen left rest.head?)
    (hbinds : ¬ Binds min rest.head?) : ReadsAs min (seen ++ rest) left rest := by
  obtain ⟨level, hleft, hrank, -, hcalls⟩ := h
  refine ⟨seen, rfl, hleft.mono hrank, ?_⟩
  rintro (h | h)
  · exact hbinds h
  · exact hcalls h

end Folded

/-- The loop of tails keeps its invariant to the end, if its operands are phrases. -/
theorem readsAs_of_run_tailsOf (hcx : cx.grammar = .standard) {n : Nat}
    (hread : ∀ ts : List Token, ts.length < n → ∀ {min e rest},
      (expression cx min).run ts = .ok e rest → ReadsAs min ts e rest)
    {min : Precedence} {ts seen rest : List Token} {left e : Expr} (hn : ts.length ≤ n)
    (hinv : Folded min seen left ts.head?) (h : (tailsOf cx min left).run ts = .ok e rest) :
    ReadsAs min (seen ++ ts) e rest := by
  by_cases hbinds : Binds min ts.head?
  · obtain ⟨t, op, hhead, hop, hlt⟩ := hbinds
    obtain ⟨us, rfl⟩ := List.head?_eq_some_iff.mp hhead
    rw [List.length_cons] at hn
    rw [run_tailsOf_operator hcx left hop hlt] at h
    obtain ⟨right, mid, hright, hloop⟩ := run_bind_eq_ok.mp h
    obtain ⟨rs, rfl, hrs, hstop⟩ := hread us (by omega) hright
    have hmid : mid.length ≤ n := by
      rw [List.length_append] at hn
      omega
    have hshort : mid.length < (t :: (rs ++ mid)).length := by
      rw [List.length_cons, List.length_append]
      omega
    have hrest := readsAs_of_run_tailsOf hcx hread hmid (hinv.step hop hlt hrs hstop) hloop
    rw [List.append_assoc, List.cons_append] at hrest
    exact hrest
  · rw [run_tailsOf_of_not_binds left hbinds] at h
    cases h
    exact hinv.readsAs hbinds
termination_by ts.length

theorem start_cases (t : Token) :
    (∃ e, Literal t e) ∨ t.kind = .identifier ∨ t.kind = .leftParen ∨
      (∃ op, t.kind.unaryOp? = some op) ∨ Grammar.standard.term? t.kind = none := by
  cases h : t.kind
  case number => exact Or.inl ⟨_, .number h⟩
  case string => exact Or.inl ⟨_, .string h⟩
  case keyTrue => exact Or.inl ⟨_, .true h⟩
  case keyFalse => exact Or.inl ⟨_, .false h⟩
  case identifier => exact Or.inr (Or.inl rfl)
  case leftParen => exact Or.inr (Or.inr (Or.inl rfl))
  case plus | minus | bang => exact Or.inr (Or.inr (Or.inr (Or.inl ⟨_, rfl⟩)))
  all_goals exact Or.inr (Or.inr (Or.inr (Or.inr rfl)))

theorem Literal.kind_ne_identifier {t : Token} {e : Expr} (h : Literal t e) :
    t.kind ≠ .identifier := by
  cases h with
  | number h | string h | true h | false h =>
    rw [h]
    decide

theorem not_calls_of_last_ne {last : Token} {next? : Option Token} (h : last.kind ≠ .identifier) :
    ¬ Calls (some last) next? := by
  rintro ⟨last', next, hlast, -, hkind, -⟩
  cases hlast
  exact h hkind

section Starts

variable {n : Nat} (hcx : cx.grammar = .standard)
  (hread : ∀ ts : List Token, ts.length < n → ∀ {min e rest},
    (expression cx min).run ts = .ok e rest → ReadsAs min ts e rest)
  {min : Precedence} {ts rest : List Token} {e : Expr} {t : Token}

include hcx hread

/-- Behind a primary that a parenthesis closes no call can begin. -/
theorem readsAs_of_closed {us : List Token} {r : Token} {a : Expr} (hn : ts.length ≤ n)
    (hr : r.kind = .rightParen) (ha : Spells .primary (us ++ [r]) a)
    (h : (tailsOf cx min a).run ts = .ok e rest) : ReadsAs min (us ++ r :: ts) e rest := by
  have hcalls : ¬ Calls (us ++ [r]).getLast? ts.head? := by
    rw [List.getLast?_concat]
    exact not_calls_of_last_ne (by rw [hr]; decide)
  have hphrase := readsAs_of_run_tailsOf hcx hread hn (.start (.lift ha) hcalls) h
  rw [List.append_assoc, List.singleton_append] at hphrase
  exact hphrase

theorem readsAs_of_run_name (hn : ts.length ≤ n) (hname : t.kind = .identifier)
    (hnext : ts.head?.map Token.kind ≠ some .leftParen)
    (h : (expression cx min).run (t :: ts) = .ok e rest) : ReadsAs min (t :: ts) e rest := by
  rw [run_expression_name hcx hname hnext] at h
  have hcalls : ¬ Calls [t].getLast? ts.head? := by
    rintro ⟨last, next, -, hhead, -, hkind⟩
    rw [hhead, Option.map_some, hkind] at hnext
    exact hnext rfl
  exact readsAs_of_run_tailsOf hcx hread hn (.start (.lift (.name hname)) hcalls) h

theorem readsAs_of_run_call {l : Token} (hn : ts.length < n) (hname : t.kind = .identifier)
    (hl : l.kind = .leftParen) (h : (expression cx min).run (t :: l :: ts) = .ok e rest) :
    ReadsAs min (t :: l :: ts) e rest := by
  rw [run_expression_call hcx hname hl] at h
  obtain ⟨es, mid, hes, hloop⟩ := run_bind_eq_ok.mp h
  have hitem : ∀ {us : List Token} {a : Expr} {rest : List Token}, us.length ≤ ts.length →
      (expression cx .lowest).run us = .ok a rest →
      ∃ used, us = used ++ rest ∧ Spells .logical used a := by
    intro us a rest hle ha
    obtain ⟨used, hus, hspells, -⟩ := hread us (Nat.lt_of_le_of_lt hle hn) ha
    exact ⟨used, hus, hspells⟩
  obtain ⟨used, r, rfl, hr, hargs⟩ := items_of_run_items hitem (Nat.le_refl _) hes
  rw [List.length_append, List.length_cons] at hn
  have hcall : Spells .primary ((t :: l :: used) ++ [r]) (.call t.lexeme es) :=
    .call hname hl hargs hr
  exact readsAs_of_closed hcx hread (by omega) hr hcall hloop

theorem readsAs_of_run_group (hn : ts.length < n) (hparen : t.kind = .leftParen)
    (h : (expression cx min).run (t :: ts) = .ok e rest) : ReadsAs min (t :: ts) e rest := by
  rw [run_expression_group hcx hparen] at h
  obtain ⟨a, mid, ha, hclose⟩ := run_bind_eq_ok.mp h
  obtain ⟨r, mid', hexpect, hloop⟩ := run_bind_eq_ok.mp hclose
  obtain ⟨rfl, hr⟩ := run_expect_eq_ok.mp hexpect
  obtain ⟨used, rfl, hspells, -⟩ := hread ts hn ha
  rw [List.length_append, List.length_cons] at hn
  have hgroup : Spells .primary ((t :: used) ++ [r]) a := .group hparen hspells hr
  exact readsAs_of_closed hcx hread (by omega) hr hgroup hloop

theorem readsAs_of_run_unary {op : UnaryOp} (hn : ts.length < n)
    (hop : t.kind.unaryOp? = some op) (h : (expression cx min).run (t :: ts) = .ok e rest) :
    ReadsAs min (t :: ts) e rest := by
  rw [run_expression_unary hcx hop] at h
  obtain ⟨a, mid, ha, hloop⟩ := run_bind_eq_ok.mp h
  obtain ⟨used, rfl, hspells, hstop⟩ := hread ts hn ha
  rw [List.length_append] at hn
  have hunary : Spells .unary ([t] ++ used) (.unary op a) :=
    .unary (Level.mem_unaryOperators_iff.mpr hop) hspells
  have hcalls : ¬ Calls ([t] ++ used).getLast? mid.head? := by
    rw [getLast?_append_of_ne_nil [t] hspells.ne_nil]
    exact fun hcalls ↦ hstop (Or.inr hcalls)
  exact readsAs_of_run_tailsOf hcx hread (by omega) (.start hunary hcalls) hloop

end Starts

theorem readsAs_of_run_expression (hcx : cx.grammar = .standard) {n : Nat} :
    ∀ ts : List Token, ts.length < n → ∀ {min : Precedence} {e : Expr} {rest : List Token},
      (expression cx min).run ts = .ok e rest → ReadsAs min ts e rest := by
  induction n with
  | zero => exact fun ts hn ↦ absurd hn (Nat.not_lt_zero _)
  | succ n hread =>
    rintro (_ | ⟨t, ts⟩) hn min e rest h
    · rw [run_expression_nil] at h
      cases h
    rw [List.length_cons] at hn
    -- each start reads a unary phrase, and the loop of tails goes on behind it
    rcases start_cases t with ⟨a, ha⟩ | hname | hparen | ⟨op, hop⟩ | hnone
    · rw [run_expression_literal hcx ha] at h
      exact readsAs_of_run_tailsOf hcx hread (by omega)
        (.start (.lift (.literal ha)) (not_calls_of_last_ne ha.kind_ne_identifier)) h
    · by_cases hnext : ts.head?.map Token.kind = some .leftParen
      · obtain ⟨l, hhead, hl⟩ := Option.map_eq_some_iff.mp hnext
        obtain ⟨us, rfl⟩ := List.head?_eq_some_iff.mp hhead
        rw [List.length_cons] at hn
        exact readsAs_of_run_call hcx hread (by omega) hname hl h
      · exact readsAs_of_run_name hcx hread (by omega) hname hnext h
    · exact readsAs_of_run_group hcx hread (by omega) hparen h
    · exact readsAs_of_run_unary hcx hread (by omega) hop h
    · rw [run_expression_refused min (by rw [hcx]; exact hnone)] at h
      cases h

/-- Reading at a precedence reads the phrases of the level above it that cannot be carried on. -/
theorem run_expression_eq_ok_iff (hcx : cx.grammar = .standard) {min : Precedence}
    {ts : List Token} {e : Expr} {rest : List Token} :
    (expression cx min).run ts = .ok e rest ↔ ReadsAs min ts e rest := by
  constructor
  · exact readsAs_of_run_expression hcx ts (Nat.lt_succ_self _)
  · rintro ⟨used, rfl, hspells, hstop⟩
    exact run_expression_of_spells hcx hspells hstop

/-- The tokens on both sides of the place where a part of a text ends. -/
theorem ends_of_drop_eq {tokens used rest : List Token} {p : Nat}
    (h : tokens.drop p = used ++ rest) (hne : used ≠ []) :
    used.getLast? = tokens[p + used.length - 1]? ∧ rest.head? = tokens[p + used.length]? := by
  have hpos := List.length_pos_iff.mpr hne
  have hrest : rest = tokens.drop (p + used.length) := by
    rw [← List.drop_drop, h, List.drop_left]
  constructor
  · rw [List.getLast?_eq_getElem?, Nat.add_sub_assoc hpos, ← List.getElem?_drop, h,
      List.getElem?_append_left (by omega)]
  · rw [hrest, List.head?_drop]

/-- At every place of a text and at every precedence, reading an expression gives `e` and stops at
the place `q` exactly if the tokens up to `q` spell `e` at the level above the precedence and
the token at `q` does not carry them on. -/
theorem expression_reads_level_above (tokens : List Token) (p : Nat) (min : Precedence)
    (e : Expr) (rest : List Token) :
    (expression ⟨.standard, endLine tokens⟩ min).run (tokens.drop p) = .ok e rest ↔
      ∃ q, p ≤ q ∧ q ≤ tokens.length ∧ rest = tokens.drop q ∧
        Spells (.above min) ((tokens.drop p).take (q - p)) e ∧
        ¬ Continues min (tokens[q - 1]?) (tokens[q]?) := by
  rw [run_expression_eq_ok_iff rfl]
  constructor
  · rintro ⟨used, hdrop, hspells, hstop⟩
    obtain ⟨hlast, hnext⟩ := ends_of_drop_eq hdrop hspells.ne_nil
    have hlength : used.length + rest.length = tokens.length - p := by
      rw [← List.length_append, ← hdrop, List.length_drop]
    have hpos := List.length_pos_iff.mpr hspells.ne_nil
    refine ⟨p + used.length, Nat.le_add_right _ _, by omega, ?_, ?_, ?_⟩
    · rw [← List.drop_drop, hdrop, List.drop_left]
    · rw [Nat.add_sub_cancel_left, hdrop, List.take_left]
      exact hspells
    · rw [← hlast, ← hnext]
      exact hstop
  · rintro ⟨q, hpq, hq, rfl, hspells, hstop⟩
    have hdrop : tokens.drop p = (tokens.drop p).take (q - p) ++ tokens.drop q := by
      have hsplit := List.take_append_drop (q - p) (tokens.drop p)
      rw [List.drop_drop, Nat.add_sub_cancel' hpq] at hsplit
      exact hsplit.symm
    have hlength : ((tokens.drop p).take (q - p)).length = q - p := by
      rw [List.length_take, List.length_drop]
      omega
    obtain ⟨hlast, hnext⟩ := ends_of_drop_eq hdrop hspells.ne_nil
    rw [hlength, Nat.add_sub_cancel' hpq] at hlast hnext
    exact ⟨_, hdrop, hspells, by rw [hlast, hnext]; exact hstop⟩

end Correspondence

end Parse

end Scriptlet
