import Scriptlet.Proofs.Parse.Levels

/-!
# The grammar of programs

A grammar of statements, blocks and programs over the grammar of expressions, and the proof that a
token list parses to a program exactly if it spells the program.

## The grammar

Declarations end with a semicolon. Returns, assignments and expressions are *simple*: they end with
a semicolon too, but the last statement of a list may go without it, so a list of statements has a
rule of its own for a simple statement at its end. Everything else ends with the brace of a block.

Which statement may stand where is a condition on the list as a whole: an `elif` or `else` directly
follows an `if` or `elif`. The grammar asks for it in every block and in the program itself.

## The correspondence

The reader meets the end of a simple statement before it knows whether the list goes on. So what a
statement reads is either a complete statement, or a simple one without its semicolon in front of
the end of a list; the list then ends there, because nothing else can start with a brace that
closes (`run_sequence_of_atEnd`).
-/

namespace Scriptlet.Parse

/-! ## The grammar -/

/-- The statements that continue a conditional chain. -/
def continuesBranch {ι : Type} : Statement ι → Bool
  | .elifBranch .. | .elseBranch .. => true
  | _ => false

/-- Every `elif` and `else` of the list directly follows an `if` or `elif` of the list. -/
def Linked {ι : Type} (p : List (Statement ι)) : Prop :=
  ∀ before s after, p = before ++ s :: after → continuesBranch s = true →
    ∃ b, before.getLast? = some b ∧ b.opensBranch = true

inductive SpellsName : List Token → String → Prop
  | name {t : Token} (h : t.kind = .identifier) : SpellsName [t] t.lexeme

/-- The statements that may do without a semicolon at the end of a list, here without it. -/
inductive SpellsSimple : List Token → Statement Unit → Prop
  | returns {k : Token} {ts : List Token} {e : Expr} (hk : k.kind = .keyReturn)
      (h : Spells .logical ts e) : SpellsSimple (k :: ts) (.returns e)
  | assign {x eq : Token} {ts : List Token} {e : Expr} (hx : x.kind = .identifier)
      (heq : eq.kind = .assign) (h : Spells .logical ts e) :
      SpellsSimple (x :: eq :: ts) (.assign x.lexeme e)
  | expression {ts : List Token} {e : Expr} (h : Spells .logical ts e) :
      SpellsSimple ts (.expression e)

mutual

/-- The tokens spell a complete statement. -/
inductive SpellsStatement : List Token → Statement Unit → Prop
  | simple {semi : Token} {ts : List Token} {s : Statement Unit} (h : SpellsSimple ts s)
      (hsemi : semi.kind = .semicolon) : SpellsStatement (ts ++ [semi]) s
  | declare {k x eq semi : Token} {ts : List Token} {e : Expr} (hk : k.kind = .keyLet)
      (hx : x.kind = .identifier) (heq : eq.kind = .assign) (h : Spells .logical ts e)
      (hsemi : semi.kind = .semicolon) :
      SpellsStatement (k :: x :: eq :: (ts ++ [semi])) (.declare x.lexeme e)
  | branch {k l r : Token} {build : Expr → List (Statement Unit) → Statement Unit}
      {cs bs : List Token} {e : Expr} {body : List (Statement Unit)}
      (hk : branch? k.kind = some build) (hl : l.kind = .leftParen) (h : Spells .logical cs e)
      (hr : r.kind = .rightParen) (hbody : SpellsBlock bs body) :
      SpellsStatement (k :: l :: (cs ++ r :: bs)) (build e body)
  | elseBranch {k : Token} {bs : List Token} {body : List (Statement Unit)}
      (hk : k.kind = .keyElse) (hbody : SpellsBlock bs body) :
      SpellsStatement (k :: bs) (.elseBranch body)
  | function {k x l r : Token} {ps bs : List Token} {params : List String}
      {body : List (Statement Unit)} (hk : k.kind = .keyFunction) (hx : x.kind = .identifier)
      (hl : l.kind = .leftParen) (hparams : Items SpellsName ps params)
      (hr : r.kind = .rightParen) (hbody : SpellsBlock bs body) :
      SpellsStatement (k :: x :: l :: (ps ++ r :: bs)) (.function () x.lexeme params body)
  | block {bs : List Token} {body : List (Statement Unit)} (hbody : SpellsBlock bs body) :
      SpellsStatement bs (.block body)

inductive SpellsBlock : List Token → List (Statement Unit) → Prop
  | braces {l r : Token} {ts : List Token} {body : List (Statement Unit)}
      (hl : l.kind = .leftBrace) (h : SpellsStatements ts body) (hlinked : Linked body)
      (hr : r.kind = .rightBrace) : SpellsBlock (l :: (ts ++ [r])) body

inductive SpellsStatements : List Token → List (Statement Unit) → Prop
  | nil : SpellsStatements [] []
  | last {ts : List Token} {s : Statement Unit} (h : SpellsSimple ts s) : SpellsStatements ts [s]
  | cons {ts us : List Token} {s : Statement Unit} {p : List (Statement Unit)}
      (h : SpellsStatement ts s) (hrest : SpellsStatements us p) :
      SpellsStatements (ts ++ us) (s :: p)

end

def SpellsProgram (ts : List Token) (p : Program) : Prop :=
  SpellsStatements ts p ∧ Linked p

/-! ## Links along a list

The reader knows of the statement in front only whether a branch may follow it. -/

/-- Every `elif` and `else` of the list directly follows an `if` or `elif`. The flag says whether
such a statement stands in front of the list. -/
def LinkedAfter {ι : Type} (afterBranch : Bool) (p : List (Statement ι)) : Prop :=
  ∀ before s after, p = before ++ s :: after → continuesBranch s = true →
    before.getLast?.elim afterBranch Statement.opensBranch = true

section Links

variable {ι : Type} {afterBranch : Bool} {p : List (Statement ι)}

theorem linkedAfter_false_iff : LinkedAfter false p ↔ Linked p := by
  constructor
  · intro h before s after hp hs
    have hb := h before s after hp hs
    rcases hlast : before.getLast? with _ | b
    · rw [hlast] at hb
      cases hb
    · rw [hlast] at hb
      exact ⟨b, rfl, hb⟩
  · intro h before s after hp hs
    obtain ⟨b, hlast, hb⟩ := h before s after hp hs
    rw [hlast]
    exact hb

theorem linkedAfter_nil : LinkedAfter afterBranch ([] : List (Statement ι)) := by
  intro before s after hp
  cases before <;> cases hp

/-- Behind a statement the flag is its own. -/
theorem elim_getLast?_cons (s : Statement ι) (p : List (Statement ι)) :
    (s :: p).getLast?.elim afterBranch Statement.opensBranch
      = p.getLast?.elim s.opensBranch Statement.opensBranch := by
  rw [List.getLast?_cons]
  cases p.getLast? <;> rfl

theorem linkedAfter_cons {s : Statement ι} :
    LinkedAfter afterBranch (s :: p) ↔
      (continuesBranch s = true → afterBranch = true) ∧ LinkedAfter s.opensBranch p := by
  constructor
  · intro h
    refine ⟨h [] s p rfl, fun before r after hp hr ↦ ?_⟩
    rw [← elim_getLast?_cons]
    exact h (s :: before) r after (by rw [hp]; rfl) hr
  · rintro ⟨hfirst, hrest⟩ (_ | ⟨b, before⟩) r after hp hr
    · cases hp
      exact hfirst hr
    · obtain ⟨rfl, htail⟩ := List.cons.inj hp
      rw [elim_getLast?_cons]
      exact hrest before r after htail hr

end Links

/-! ## First tokens -/

/-- A token in front of which a list goes on, and which shows whether the statement that it starts
continues a chain. -/
def Heads (t : Token) (s : Statement Unit) : Prop :=
  t.kind ≠ .rightBrace ∧ (t.kind = .keyElif ∨ t.kind = .keyElse ↔ continuesBranch s = true)

/-- A token that continues no chain starts no statement that does. -/
theorem heads_of_ne {t : Token} {s : Statement Unit} (hbrace : t.kind ≠ .rightBrace)
    (helif : t.kind ≠ .keyElif) (helse : t.kind ≠ .keyElse) (hs : continuesBranch s = false) :
    Heads t s := by
  refine ⟨hbrace, ?_, ?_⟩
  · rintro (h | h)
    · exact absurd h helif
    · exact absurd h helse
  · intro h
    rw [hs] at h
    cases h

/-- No statement but an expression starts with a token that starts an expression. -/
theorem opensStatement_of_term {kind : TokenKind} {rule : TermRule}
    (h : Grammar.standard.term? kind = some rule) :
    opensStatement kind = false ∧ kind ≠ .rightBrace ∧ kind ≠ .keyElif ∧ kind ≠ .keyElse := by
  cases kind <;> first | cases h; decide | cases h

theorem statement_cases (kind : TokenKind) :
    kind = .keyLet ∨ (∃ build, branch? kind = some build) ∨ kind = .keyElse ∨
      kind = .keyFunction ∨ kind = .keyReturn ∨ kind = .leftBrace ∨
      opensStatement kind = false := by
  cases kind
  case keyIf | keyElif => exact Or.inr (Or.inl ⟨_, rfl⟩)
  all_goals simp [opensStatement]

theorem SpellsSimple.exists_head {ts : List Token} {s : Statement Unit} (h : SpellsSimple ts s) :
    ∃ t us, ts = t :: us ∧ Heads t s := by
  cases h with
  | @returns k ts e hk h =>
    refine ⟨k, ts, rfl, ?_⟩
    apply heads_of_ne <;> first | rw [hk]; decide | rfl
  | @assign x eq ts e hx heq h =>
    refine ⟨x, eq :: ts, rfl, ?_⟩
    apply heads_of_ne <;> first | rw [hx]; decide | rfl
  | expression h =>
    obtain ⟨t, us, rule, hts, hrule⟩ := h.exists_term
    obtain ⟨-, hbrace, helif, helse⟩ := opensStatement_of_term hrule
    exact ⟨t, us, hts, heads_of_ne hbrace helif helse rfl⟩

theorem SpellsStatement.exists_head {ts : List Token} {s : Statement Unit}
    (h : SpellsStatement ts s) : ∃ t us, ts = t :: us ∧ Heads t s := by
  cases h with
  | @simple semi ts s h hsemi =>
    obtain ⟨t, us, hts, hhead⟩ := h.exists_head
    exact ⟨t, us ++ [semi], by rw [hts]; rfl, hhead⟩
  | declare hk hx heq h hsemi =>
    refine ⟨_, _, rfl, ?_⟩
    apply heads_of_ne <;> first | rw [hk]; decide | rfl
  | @branch k l r build cs bs e body hk hl h hr hbody =>
    refine ⟨k, _, rfl, ?_⟩
    rcases branch?_eq_some hk with ⟨hkind, rfl⟩ | ⟨hkind, rfl⟩
    · apply heads_of_ne <;> first | rw [hkind]; decide | rfl
    · exact ⟨by rw [hkind]; decide, fun _ ↦ rfl, fun _ ↦ Or.inl hkind⟩
  | elseBranch hk hbody =>
    exact ⟨_, _, rfl, by rw [hk]; decide, fun _ ↦ rfl, fun _ ↦ Or.inr hk⟩
  | function hk hx hl hparams hr hbody =>
    refine ⟨_, _, rfl, ?_⟩
    apply heads_of_ne <;> first | rw [hk]; decide | rfl
  | block hbody =>
    obtain ⟨hl, h, hlinked, hr⟩ := hbody
    refine ⟨_, _, rfl, ?_⟩
    apply heads_of_ne <;> first | rw [hl]; decide | rfl

/-! ## The parts of statements -/

/-- A list of statements ends here: no token is left, or the next one is a closing brace. -/
def AtEnd (ts : List Token) : Prop :=
  ∀ t, ts.head? = some t → t.kind = .rightBrace

theorem exists_of_not_atEnd {ts : List Token} (h : ¬ AtEnd ts) :
    ∃ t us, ts = t :: us ∧ t.kind ≠ .rightBrace := by
  rcases ts with _ | ⟨t, us⟩
  · exact absurd (fun t ht ↦ by cases ht) h
  · refine ⟨t, us, rfl, fun hbrace ↦ h fun u hu ↦ ?_⟩
    cases hu
    exact hbrace

/-- A simple statement may end in front of `ts`, and `rest` is left behind it. -/
def Terminated (ts rest : List Token) : Prop :=
  (∃ semi, ts = semi :: rest ∧ semi.kind = .semicolon) ∨ ts = rest ∧ AtEnd rest

section Parts

variable {cx : Context} {ts rest : List Token}

theorem Terminated.head_kind (h : Terminated ts rest) {t : Token} (ht : ts.head? = some t) :
    t.kind = .semicolon ∨ t.kind = .rightBrace := by
  rcases h with ⟨semi, rfl, hsemi⟩ | ⟨rfl, hend⟩
  · cases ht
    exact Or.inl hsemi
  · exact Or.inr (hend t ht)

theorem Terminated.not_continues (h : Terminated ts rest) (min : Precedence)
    (last? : Option Token) : ¬ Continues min last? ts.head? := by
  rcases hhead : ts.head? with _ | t
  · exact not_continues_none min last?
  · refine not_continues_of_separator ?_
    rcases h.head_kind hhead with hkind | hkind
    · exact Or.inr (Or.inr (Or.inl hkind))
    · exact Or.inr (Or.inr (Or.inr hkind))

theorem run_endStatement_cons (t : Token) (ts : List Token) :
    (endStatement cx).run (t :: ts)
      = if t.kind = .semicolon then .ok () ts
        else if t.kind = .rightBrace then .ok () (t :: ts)
        else .error (.unexpectedToken (.token .semicolon) t) (t :: ts) := by
  rw [endStatement, run_bind_of_ok (run_peekKind _), List.head?_cons, Option.map_some]
  cases t.kind <;> rfl

theorem run_endStatement_eq_ok {u : Unit} :
    (endStatement cx).run ts = .ok u rest ↔ Terminated ts rest := by
  constructor
  · intro h
    rcases ts with _ | ⟨t, ts⟩
    · cases h
      exact Or.inr ⟨rfl, fun t ht ↦ by cases ht⟩
    · rw [run_endStatement_cons] at h
      split at h
      · rename_i hsemi
        cases h
        exact Or.inl ⟨t, rfl, hsemi⟩
      · split at h
        · rename_i hbrace
          cases h
          refine Or.inr ⟨rfl, fun u hu ↦ ?_⟩
          cases hu
          exact hbrace
        · cases h
  · rintro (⟨semi, rfl, hsemi⟩ | ⟨rfl, hend⟩)
    · rw [run_endStatement_cons, if_pos hsemi]
    · rcases ts with _ | ⟨t, ts⟩
      · rfl
      · have hbrace := hend t rfl
        rw [run_endStatement_cons, if_neg (by rw [hbrace]; decide), if_pos hbrace]

theorem run_parenthesized_eq_ok (hcx : cx.grammar = .standard) {e : Expr} :
    (parenthesized cx).run ts = .ok e rest ↔
      ∃ l cs r, ts = l :: (cs ++ r :: rest) ∧ l.kind = .leftParen ∧ Spells .logical cs e ∧
        r.kind = .rightParen := by
  constructor
  · intro h
    obtain ⟨l, mid, hopen, h⟩ := run_bind_eq_ok.mp h
    obtain ⟨a, mid', ha, h⟩ := run_bind_eq_ok.mp h
    obtain ⟨r, mid'', hclose, h⟩ := run_bind_eq_ok.mp h
    cases h
    obtain ⟨rfl, hr⟩ := run_expect_eq_ok.mp hclose
    obtain ⟨cs, rfl, hspells, -⟩ := (run_expression_eq_ok_iff hcx).mp ha
    obtain ⟨rfl, hl⟩ := run_expect_eq_ok.mp hopen
    exact ⟨l, cs, r, rfl, hl, hspells, hr⟩
  · rintro ⟨l, cs, r, rfl, hl, hspells, hr⟩
    have hread : (expression cx .lowest).run (cs ++ r :: rest) = .ok e (r :: rest) :=
      run_expression_of_spells hcx hspells (not_continues_of_separator (Or.inr (Or.inl hr)))
    rw [parenthesized, run_bind_of_ok (run_expect_eq_ok.mpr ⟨rfl, hl⟩), run_bind_of_ok hread,
      run_bind_of_ok (run_expect_eq_ok.mpr ⟨rfl, hr⟩), EStateM.run_pure]

theorem run_parameters_eq_ok {params : List String} :
    (parameters cx).run ts = .ok params rest ↔
      ∃ ps r, ts = ps ++ r :: rest ∧ r.kind = .rightParen ∧ Items SpellsName ps params := by
  rw [parameters, run_bind_of_ok (EStateM.run_get _)]
  constructor
  · intro h
    refine items_of_run_items (fun {us x mid} _ hx ↦ ?_) (Nat.le_refl _) h
    obtain ⟨t, rfl, hkind, rfl⟩ := run_expectName_eq_ok.mp hx
    exact ⟨[t], rfl, .name hkind⟩
  · rintro ⟨ps, r, rfl, hr, hparams⟩
    refine run_items_of_items (by decide) ?_ ?_ hparams hr rest ?_
    · rintro used x c us ⟨hkind⟩ -
      exact run_expectName_eq_ok.mpr ⟨_, rfl, hkind, rfl⟩
    · rintro used x ⟨hkind⟩
      exact ⟨_, [], rfl, by rw [hkind]; decide⟩
    · rw [List.length_append]
      omega

end Parts

/-- Where a list of statements ends: a program with the tokens, a block with a brace that is read
with it. -/
inductive Closes : Option TokenKind → List Token → List Token → Prop
  | program : Closes none [] []
  | block {r : Token} {rest : List Token} (hr : r.kind = .rightBrace) :
      Closes (some .rightBrace) (r :: rest) rest

section Ends

variable {cx : Context} {closing : Option TokenKind} {ts rest : List Token}

theorem Closes.atEnd (h : Closes closing ts rest) : AtEnd ts := by
  intro t ht
  cases h with
  | program => cases ht
  | block hr =>
    cases ht
    exact hr

theorem Closes.ne_some (h : Closes closing ts rest) {t : Token} (ht : t.kind ≠ .rightBrace) :
    some t.kind ≠ closing := by
  cases h with
  | program => exact Option.some_ne_none _
  | block hr => exact fun heq ↦ ht (Option.some.inj heq)

theorem Closes.run_sequence (h : Closes closing ts rest) (afterBranch : Bool) :
    (sequence cx closing afterBranch).run ts = .ok [] rest := by
  cases h with
  | program => rfl
  | block hr => exact run_sequence_close afterBranch (by rw [hr])

end Ends

/-! ## What is spelled is read -/

section Completeness

variable {cx : Context}

theorem run_statement_of_simple (hcx : cx.grammar = .standard) {ts us rest : List Token}
    {s : Statement Unit} (h : SpellsSimple ts s) (hend : Terminated us rest) :
    (statement cx).run (ts ++ us) = .ok s rest := by
  have hread : ∀ {ts e}, Spells .logical ts e →
      (expression cx .lowest).run (ts ++ us) = .ok e us := fun h ↦
    run_expression_of_spells hcx h (hend.not_continues .lowest _)
  have hstop : (endStatement cx).run us = .ok () rest := run_endStatement_eq_ok.mpr hend
  cases h with
  | returns hk h =>
    rw [List.cons_append, run_statement_return hk, run_bind_of_ok (hread h), run_bind_of_ok hstop,
      EStateM.run_pure]
  | assign hx heq h =>
    rw [List.cons_append, List.cons_append, run_statement_assign hx heq, run_bind_of_ok (hread h),
      run_bind_of_ok hstop, EStateM.run_pure]
  | expression h =>
    obtain ⟨t, vs, rule, rfl, hrule⟩ := h.exists_term
    -- whether it belongs to the expression or ends it, the second token is no `=`
    have hassign : ¬ (t.kind = .identifier ∧
        (vs ++ us).head?.map Token.kind = some .assign) := by
      rintro ⟨-, hnext⟩
      obtain ⟨next, hhead, hkind⟩ := Option.map_eq_some_iff.mp hnext
      rw [List.head?_append, Option.or_eq_some_iff] at hhead
      rcases hhead with hhead | ⟨-, hhead⟩
      · refine h.kind_ne_assign next ?_ hkind
        exact List.mem_cons_of_mem t (List.mem_of_mem_head? hhead)
      · rcases hend.head_kind hhead with hkind' | hkind'
        · rw [hkind'] at hkind
          cases hkind
        · rw [hkind'] at hkind
          cases hkind
    rw [List.cons_append, run_statement_other (opensStatement_of_term hrule).1 hassign, hcx,
      if_pos (by rw [hrule]; rfl), ← List.cons_append, run_bind_of_ok (hread h),
      run_bind_of_ok hstop, EStateM.run_pure]

mutual

theorem run_statement_of_spells (hcx : cx.grammar = .standard) :
    ∀ {ts : List Token} {s : Statement Unit}, SpellsStatement ts s → ∀ rest : List Token,
      (statement cx).run (ts ++ rest) = .ok s rest
  | _, _, @SpellsStatement.simple semi ts s h hsemi, rest => by
    rw [List.append_assoc, List.singleton_append]
    exact run_statement_of_simple hcx h (Or.inl ⟨semi, rfl, hsemi⟩)
  | _, _, @SpellsStatement.declare k x eq semi ts e hk hx heq h hsemi, rest => by
    have hread : (expression cx .lowest).run (ts ++ semi :: rest) = .ok e (semi :: rest) :=
      run_expression_of_spells hcx h
        (not_continues_of_separator (Or.inr (Or.inr (Or.inl hsemi))))
    rw [List.cons_append, List.cons_append, List.cons_append, List.append_assoc,
      List.singleton_append, run_statement_let hk,
      run_bind_of_ok (run_expectName_eq_ok.mpr ⟨x, rfl, hx, rfl⟩),
      run_bind_of_ok (run_expect_eq_ok.mpr ⟨rfl, heq⟩), run_bind_of_ok hread,
      run_bind_of_ok (run_expect_eq_ok.mpr ⟨rfl, hsemi⟩), EStateM.run_pure]
  | _, _, @SpellsStatement.branch k l r build cs bs e body hk hl h hr hbody, rest => by
    have hcond : (parenthesized cx).run (l :: (cs ++ r :: (bs ++ rest))) = .ok e (bs ++ rest) :=
      (run_parenthesized_eq_ok hcx).mpr ⟨l, cs, r, rfl, hl, h, hr⟩
    rw [List.cons_append, List.cons_append, List.append_assoc, List.cons_append,
      run_statement_branch hk, run_bind_of_ok hcond,
      run_bind_of_ok (run_block_of_spells hcx hbody rest), EStateM.run_pure]
  | _, _, .elseBranch hk hbody, rest => by
    rw [List.cons_append, run_statement_else hk,
      run_bind_of_ok (run_block_of_spells hcx hbody rest), EStateM.run_pure]
  | _, _, @SpellsStatement.function k x l r ps bs params body hk hx hl hparams hr hbody, rest => by
    have hread : (parameters cx).run (ps ++ r :: (bs ++ rest)) = .ok params (bs ++ rest) :=
      run_parameters_eq_ok.mpr ⟨ps, r, rfl, hr, hparams⟩
    rw [List.cons_append, List.cons_append, List.cons_append, List.append_assoc,
      List.cons_append, run_statement_function hk,
      run_bind_of_ok (run_expectName_eq_ok.mpr ⟨x, rfl, hx, rfl⟩),
      run_bind_of_ok (run_expect_eq_ok.mpr ⟨rfl, hl⟩), run_bind_of_ok hread,
      run_bind_of_ok (run_block_of_spells hcx hbody rest), EStateM.run_pure]
  | _, _, .block hbody, rest => by
    have hblock := run_block_of_spells hcx hbody rest
    obtain ⟨hl, h, hlinked, hr⟩ := hbody
    rw [List.cons_append] at hblock ⊢
    rw [run_statement_block hl, run_bind_of_ok hblock, EStateM.run_pure]

theorem run_block_of_spells (hcx : cx.grammar = .standard) :
    ∀ {ts : List Token} {body : List (Statement Unit)}, SpellsBlock ts body →
      ∀ rest : List Token, (block cx).run (ts ++ rest) = .ok body rest
  | _, _, .braces hl h hlinked hr, rest => by
    rw [List.cons_append, List.append_assoc, List.singleton_append, run_block,
      run_bind_of_ok (run_expect_eq_ok.mpr ⟨rfl, hl⟩)]
    exact run_sequence_of_spells hcx h (linkedAfter_false_iff.mpr hlinked) (.block hr)

theorem run_sequence_of_spells (hcx : cx.grammar = .standard) :
    ∀ {ts : List Token} {p : List (Statement Unit)}, SpellsStatements ts p →
      ∀ {afterBranch : Bool}, LinkedAfter afterBranch p →
      ∀ {closing : Option TokenKind} {tail rest : List Token}, Closes closing tail rest →
      (sequence cx closing afterBranch).run (ts ++ tail) = .ok p rest
  | _, _, .nil, afterBranch, _, _, _, _, hclose => hclose.run_sequence afterBranch
  | _, _, @SpellsStatements.last ts s h, _, hlinked, _, tail, rest, hclose => by
    obtain ⟨t, us, hts, hbrace, hhead⟩ := h.exists_head
    have hfirst := (linkedAfter_cons.mp hlinked).1
    have hread := run_statement_of_simple hcx h (Or.inr ⟨rfl, hclose.atEnd⟩)
    rw [hts, List.cons_append] at hread ⊢
    rw [run_sequence_cons (hclose.ne_some hbrace) (fun hk ↦ hfirst (hhead.mp hk)),
      run_bind_of_ok hread, run_bind_of_ok (hclose.run_sequence _), EStateM.run_pure]
  | _, _, @SpellsStatements.cons ts us s p h hrest, _, hlinked, _, tail, rest, hclose => by
    obtain ⟨t, vs, hts, hbrace, hhead⟩ := h.exists_head
    obtain ⟨hfirst, hlater⟩ := linkedAfter_cons.mp hlinked
    have hread := run_statement_of_spells hcx h (us ++ tail)
    have hthen := run_sequence_of_spells hcx hrest hlater hclose
    rw [List.append_assoc]
    rw [hts, List.cons_append] at hread ⊢
    rw [run_sequence_cons (hclose.ne_some hbrace) (fun hk ↦ hfirst (hhead.mp hk)),
      run_bind_of_ok hread, run_bind_of_ok hthen, EStateM.run_pure]

end

end Completeness

/-! ## What is read is spelled -/

/-- What a statement reads: a complete statement, or a simple one at the end of a list. -/
def ReadsStatement (ts : List Token) (s : Statement Unit) (rest : List Token) : Prop :=
  ∃ used, ts = used ++ rest ∧ (SpellsStatement used s ∨ SpellsSimple used s ∧ AtEnd rest)

/-- What a list of statements reads, up to where it closes. -/
def ReadsSequence (closing : Option TokenKind) (afterBranch : Bool) (ts : List Token)
    (p : List (Statement Unit)) (rest : List Token) : Prop :=
  ∃ used tail, ts = used ++ tail ∧ SpellsStatements used p ∧ LinkedAfter afterBranch p ∧
    Closes closing tail rest

theorem ReadsStatement.exists_head {ts rest : List Token} {s : Statement Unit}
    (h : ReadsStatement ts s rest) : ∃ t us, ts = t :: us ∧ Heads t s ∧ rest.length < ts.length := by
  obtain ⟨used, rfl, h⟩ := h
  have hused : ∃ t us, used = t :: us ∧ Heads t s := by
    rcases h with h | ⟨h, -⟩
    · exact h.exists_head
    · exact h.exists_head
  obtain ⟨t, us, rfl, hhead⟩ := hused
  refine ⟨t, us ++ rest, rfl, hhead, ?_⟩
  rw [List.length_append, List.length_cons]
  omega

/-- The end of a simple statement decides how it is spelled. -/
theorem readsStatement_of_simple {ts us rest : List Token} {s : Statement Unit}
    (h : SpellsSimple ts s) (hend : Terminated us rest) : ReadsStatement (ts ++ us) s rest := by
  rcases hend with ⟨semi, rfl, hsemi⟩ | ⟨rfl, hatEnd⟩
  · exact ⟨ts ++ [semi], List.append_cons ts semi rest, Or.inl (.simple h hsemi)⟩
  · exact ⟨ts, rfl, Or.inr ⟨h, hatEnd⟩⟩

section Soundness

variable {cx : Context} (hcx : cx.grammar = .standard)

include hcx

/-- A program closes with the tokens only, and no statement starts with a brace that closes. -/
theorem run_sequence_brace {afterBranch : Bool} {t : Token} {ts : List Token}
    (hbrace : t.kind = .rightBrace) :
    (sequence cx none afterBranch).run (t :: ts) = .error (.unknownStatement t) (t :: ts) := by
  have hrefused : (statement cx).run (t :: ts) = .error (.unknownStatement t) (t :: ts) := by
    rw [run_statement_other (by rw [hbrace]; rfl) (by rw [hbrace]; rintro ⟨hkind, -⟩; cases hkind),
      hcx, hbrace]
    rfl
  rw [run_sequence_cons (Option.some_ne_none _) (by rw [hbrace]; rintro (hk | hk) <;> cases hk),
    EStateM.run_bind, hrefused]

theorem run_sequence_of_atEnd {closing : Option TokenKind} {afterBranch : Bool}
    {ts rest : List Token} {p : List (Statement Unit)}
    (hclosing : closing = none ∨ closing = some .rightBrace) (hend : AtEnd ts)
    (h : (sequence cx closing afterBranch).run ts = .ok p rest) :
    p = [] ∧ Closes closing ts rest := by
  rcases ts with _ | ⟨t, ts⟩
  · rw [run_sequence_nil] at h
    rcases hclosing with rfl | rfl
    · cases h
      exact ⟨rfl, .program⟩
    · cases h
  · have hbrace := hend t rfl
    rcases hclosing with rfl | rfl
    · rw [run_sequence_brace hcx hbrace] at h
      cases h
    · rw [run_sequence_close _ (by rw [hbrace])] at h
      cases h
      exact ⟨rfl, .block hbrace⟩

theorem readsSequence_of_run {n : Nat}
    (hread : ∀ {ts : List Token} {s : Statement Unit} {rest : List Token}, ts.length < n →
      (statement cx).run ts = .ok s rest → ReadsStatement ts s rest)
    {closing : Option TokenKind} (hclosing : closing = none ∨ closing = some .rightBrace)
    {afterBranch : Bool} {ts rest : List Token} {p : List (Statement Unit)} (hn : ts.length < n)
    (h : (sequence cx closing afterBranch).run ts = .ok p rest) :
    ReadsSequence closing afterBranch ts p rest := by
  by_cases hend : AtEnd ts
  · obtain ⟨rfl, hclose⟩ := run_sequence_of_atEnd hcx hclosing hend h
    exact ⟨[], ts, rfl, .nil, linkedAfter_nil, hclose⟩
  obtain ⟨t, us, rfl, hbrace⟩ := exists_of_not_atEnd hend
  have hopen : some t.kind ≠ closing := by
    rcases hclosing with rfl | rfl
    · exact Option.some_ne_none _
    · exact fun heq ↦ hbrace (Option.some.inj heq)
  by_cases hdangling : (t.kind = .keyElif ∨ t.kind = .keyElse) ∧ afterBranch = false
  · obtain ⟨hkind, rfl⟩ := hdangling
    rw [run_sequence_dangling hopen hkind] at h
    cases h
  have hbranch : t.kind = .keyElif ∨ t.kind = .keyElse → afterBranch = true := fun hkind ↦
    Bool.of_not_eq_false fun hfalse ↦ hdangling ⟨hkind, hfalse⟩
  rw [run_sequence_cons hopen hbranch] at h
  obtain ⟨s, mid, hs, h⟩ := run_bind_eq_ok.mp h
  obtain ⟨p', rest', hp', h⟩ := run_bind_eq_ok.mp h
  cases h
  have hreads := hread hn hs
  obtain ⟨t', us', hcons, ⟨-, hhead⟩, hlength⟩ := hreads.exists_head
  obtain ⟨rfl, rfl⟩ := List.cons.inj hcons
  have hfirst : continuesBranch s = true → afterBranch = true := fun hs' ↦
    hbranch (hhead.mpr hs')
  obtain ⟨used, hts, hspells | ⟨hspells, hatEnd⟩⟩ := hreads
  · obtain ⟨used', tail, rfl, hrest, hlinked, hclose⟩ :=
      readsSequence_of_run hread hclosing (Nat.lt_trans hlength hn) hp'
    refine ⟨used ++ used', tail, ?_, .cons hspells hrest, linkedAfter_cons.mpr ⟨hfirst, hlinked⟩,
      hclose⟩
    rw [hts, List.append_assoc]
  · -- the semicolon is missing, so nothing of the list is left
    obtain ⟨rfl, hclose⟩ := run_sequence_of_atEnd hcx hclosing hatEnd hp'
    exact ⟨used, mid, hts, .last hspells, linkedAfter_cons.mpr ⟨hfirst, linkedAfter_nil⟩, hclose⟩
termination_by ts.length

theorem spellsBlock_of_run {n : Nat}
    (hread : ∀ {ts : List Token} {s : Statement Unit} {rest : List Token}, ts.length < n →
      (statement cx).run ts = .ok s rest → ReadsStatement ts s rest)
    {ts rest : List Token} {body : List (Statement Unit)} (hn : ts.length ≤ n)
    (h : (block cx).run ts = .ok body rest) : ∃ used, ts = used ++ rest ∧ SpellsBlock used body := by
  rw [run_block] at h
  obtain ⟨l, mid, hopen, hbody⟩ := run_bind_eq_ok.mp h
  obtain ⟨rfl, hl⟩ := run_expect_eq_ok.mp hopen
  rw [List.length_cons] at hn
  obtain ⟨used, tail, rfl, hspells, hlinked, hclose⟩ :=
    readsSequence_of_run hcx hread (Or.inr rfl) hn hbody
  cases hclose with
  | @block r rest hr =>
    refine ⟨l :: (used ++ [r]), ?_, .braces hl hspells (linkedAfter_false_iff.mp hlinked) hr⟩
    rw [List.cons_append, List.append_assoc, List.singleton_append]

section Starts

variable {n : Nat} {t : Token} {ts rest : List Token} {s : Statement Unit}

/-- A simple statement that ends with an expression reads the expression and its end. -/
theorem terminated_of_run {build : Expr → Statement Unit}
    (h : (do
      let value ← expression cx .lowest
      endStatement cx
      return build value : ParseM (Statement Unit)).run ts = .ok s rest) :
    ∃ used us e, ts = used ++ us ∧ Spells .logical used e ∧ s = build e ∧ Terminated us rest := by
  obtain ⟨e, us, he, h⟩ := run_bind_eq_ok.mp h
  obtain ⟨u, rest', hend, h⟩ := run_bind_eq_ok.mp h
  cases h
  obtain ⟨used, hts, hspells, -⟩ := (run_expression_eq_ok_iff hcx).mp he
  exact ⟨used, us, e, hts, hspells, rfl, run_endStatement_eq_ok.mp hend⟩

theorem readsStatement_of_run_let (hk : t.kind = .keyLet)
    (h : (statement cx).run (t :: ts) = .ok s rest) : ReadsStatement (t :: ts) s rest := by
  rw [run_statement_let hk] at h
  obtain ⟨name, ts₁, hname, h⟩ := run_bind_eq_ok.mp h
  obtain ⟨eq, ts₂, hassign, h⟩ := run_bind_eq_ok.mp h
  obtain ⟨e, ts₃, he, h⟩ := run_bind_eq_ok.mp h
  obtain ⟨semi, ts₄, hend, h⟩ := run_bind_eq_ok.mp h
  cases h
  obtain ⟨rfl, hsemi⟩ := run_expect_eq_ok.mp hend
  obtain ⟨used, rfl, hspells, -⟩ := (run_expression_eq_ok_iff hcx).mp he
  obtain ⟨rfl, heq⟩ := run_expect_eq_ok.mp hassign
  obtain ⟨x, rfl, hx, rfl⟩ := run_expectName_eq_ok.mp hname
  refine ⟨t :: x :: eq :: (used ++ [semi]), ?_, Or.inl (.declare hk hx heq hspells hsemi)⟩
  rw [List.cons_append, List.cons_append, List.cons_append, List.append_assoc,
    List.singleton_append]

variable (hread : ∀ {ts : List Token} {s : Statement Unit} {rest : List Token}, ts.length < n →
  (statement cx).run ts = .ok s rest → ReadsStatement ts s rest)

include hread

theorem readsStatement_of_run_branch {build : Expr → List (Statement Unit) → Statement Unit}
    (hn : ts.length ≤ n) (hk : branch? t.kind = some build)
    (h : (statement cx).run (t :: ts) = .ok s rest) : ReadsStatement (t :: ts) s rest := by
  rw [run_statement_branch hk] at h
  obtain ⟨e, ts₁, he, h⟩ := run_bind_eq_ok.mp h
  obtain ⟨body, ts₂, hbody, h⟩ := run_bind_eq_ok.mp h
  cases h
  obtain ⟨l, cs, r, rfl, hl, hspells, hr⟩ := (run_parenthesized_eq_ok hcx).mp he
  rw [List.length_cons, List.length_append, List.length_cons] at hn
  obtain ⟨bs, rfl, hblock⟩ := spellsBlock_of_run hcx hread (by omega) hbody
  refine ⟨t :: l :: (cs ++ r :: bs), ?_, Or.inl (.branch hk hl hspells hr hblock)⟩
  rw [List.cons_append, List.cons_append, List.append_assoc, List.cons_append]

theorem readsStatement_of_run_else (hn : ts.length ≤ n) (hk : t.kind = .keyElse)
    (h : (statement cx).run (t :: ts) = .ok s rest) : ReadsStatement (t :: ts) s rest := by
  rw [run_statement_else hk] at h
  obtain ⟨body, ts₁, hbody, h⟩ := run_bind_eq_ok.mp h
  cases h
  obtain ⟨bs, rfl, hblock⟩ := spellsBlock_of_run hcx hread hn hbody
  exact ⟨t :: bs, rfl, Or.inl (.elseBranch hk hblock)⟩

theorem readsStatement_of_run_function (hn : ts.length ≤ n) (hk : t.kind = .keyFunction)
    (h : (statement cx).run (t :: ts) = .ok s rest) : ReadsStatement (t :: ts) s rest := by
  rw [run_statement_function hk] at h
  obtain ⟨name, ts₁, hname, h⟩ := run_bind_eq_ok.mp h
  obtain ⟨l, ts₂, hopen, h⟩ := run_bind_eq_ok.mp h
  obtain ⟨params, ts₃, hparams, h⟩ := run_bind_eq_ok.mp h
  obtain ⟨body, ts₄, hbody, h⟩ := run_bind_eq_ok.mp h
  cases h
  obtain ⟨ps, r, rfl, hr, hitems⟩ := run_parameters_eq_ok.mp hparams
  obtain ⟨rfl, hl⟩ := run_expect_eq_ok.mp hopen
  obtain ⟨x, rfl, hx, rfl⟩ := run_expectName_eq_ok.mp hname
  rw [List.length_cons, List.length_cons, List.length_append, List.length_cons] at hn
  obtain ⟨bs, rfl, hblock⟩ := spellsBlock_of_run hcx hread (by omega) hbody
  refine ⟨t :: x :: l :: (ps ++ r :: bs), ?_, Or.inl (.function hk hx hl hitems hr hblock)⟩
  rw [List.cons_append, List.cons_append, List.cons_append, List.append_assoc, List.cons_append]

theorem readsStatement_of_run_block (hn : ts.length < n) (hk : t.kind = .leftBrace)
    (h : (statement cx).run (t :: ts) = .ok s rest) : ReadsStatement (t :: ts) s rest := by
  rw [run_statement_block hk] at h
  obtain ⟨body, ts₁, hbody, h⟩ := run_bind_eq_ok.mp h
  cases h
  have hlength : (t :: ts).length ≤ n := Nat.succ_le_of_lt hn
  obtain ⟨bs, hts, hblock⟩ := spellsBlock_of_run hcx hread hlength hbody
  exact ⟨bs, hts, Or.inl (.block hblock)⟩

end Starts

theorem readsStatement_of_run {n : Nat} :
    ∀ {ts : List Token} {s : Statement Unit} {rest : List Token}, ts.length < n →
      (statement cx).run ts = .ok s rest → ReadsStatement ts s rest := by
  induction n with
  | zero => exact fun hn ↦ absurd hn (Nat.not_lt_zero _)
  | succ n hread =>
    rintro (_ | ⟨t, ts⟩) s rest hn h
    · rw [run_statement_nil] at h
      cases h
    rw [List.length_cons] at hn
    rcases statement_cases t.kind with hk | ⟨build, hk⟩ | hk | hk | hk | hk | hopen
    · exact readsStatement_of_run_let hcx hk h
    · exact readsStatement_of_run_branch hcx hread (by omega) hk h
    · exact readsStatement_of_run_else hcx hread (by omega) hk h
    · exact readsStatement_of_run_function hcx hread (by omega) hk h
    · rw [run_statement_return hk] at h
      obtain ⟨used, us, e, rfl, hspells, rfl, hend⟩ := terminated_of_run hcx h
      exact readsStatement_of_simple (.returns hk hspells) hend
    · exact readsStatement_of_run_block hcx hread (by omega) hk h
    by_cases hassign : t.kind = .identifier ∧ ts.head?.map Token.kind = some .assign
    · obtain ⟨hx, hnext⟩ := hassign
      obtain ⟨eq, hhead, heq⟩ := Option.map_eq_some_iff.mp hnext
      obtain ⟨us, rfl⟩ := List.head?_eq_some_iff.mp hhead
      rw [run_statement_assign hx heq] at h
      obtain ⟨used, vs, e, rfl, hspells, rfl, hend⟩ := terminated_of_run hcx h
      exact readsStatement_of_simple (.assign hx heq hspells) hend
    · rw [run_statement_other hopen hassign] at h
      split at h
      · obtain ⟨used, us, e, hts, hspells, rfl, hend⟩ := terminated_of_run hcx h
        rw [hts]
        exact readsStatement_of_simple (.expression hspells) hend
      · cases h

end Soundness

/-- Reading a program to the end of the tokens is recognising it. -/
theorem run_program_eq_ok_iff {cx : Context} (hcx : cx.grammar = .standard)
    {ts rest : List Token} {p : Program} :
    (program cx).run ts = .ok p rest ↔ SpellsProgram ts p ∧ rest = [] := by
  rw [run_program]
  constructor
  · intro h
    obtain ⟨used, tail, rfl, hspells, hlinked, hclose⟩ :=
      readsSequence_of_run hcx (readsStatement_of_run hcx) (Or.inl rfl) (Nat.lt_succ_self _) h
    cases hclose
    rw [List.append_nil]
    exact ⟨⟨hspells, linkedAfter_false_iff.mp hlinked⟩, rfl⟩
  · rintro ⟨⟨hspells, hlinked⟩, rfl⟩
    rw [← List.append_nil ts]
    exact run_sequence_of_spells hcx hspells (linkedAfter_false_iff.mpr hlinked) .program

theorem parse_eq_ok_iff {ts : List Token} {p : Program} :
    parse ts = .ok p ↔ SpellsProgram ts p := by
  rw [parse_eq_ok_iff_run]
  constructor
  · rintro ⟨rest, hrun⟩
    exact ((run_program_eq_ok_iff rfl).mp hrun).1
  · exact fun h ↦ ⟨[], (run_program_eq_ok_iff rfl).mpr ⟨h, rfl⟩⟩

/-- A token list parses to a program exactly if it spells the program, and it spells at most
one. -/
theorem parse_eq_ok_iff_spells (ts : List Token) :
    (∀ p, parse ts = .ok p ↔ SpellsProgram ts p) ∧
      ∀ p q, SpellsProgram ts p → SpellsProgram ts q → p = q := by
  refine ⟨fun p ↦ parse_eq_ok_iff, fun p q hp hq ↦ ?_⟩
  have heq := parse_eq_ok_iff.mpr hp
  rw [parse_eq_ok_iff.mpr hq] at heq
  exact (Except.ok.inj heq).symm

end Scriptlet.Parse
