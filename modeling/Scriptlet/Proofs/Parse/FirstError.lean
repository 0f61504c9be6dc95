import Scriptlet.Proofs.Parse.Recognition

/-!
# The first token that is wrong

A parse error is reported at the earliest token at which it can be known. The tokens before it are
the beginning of a program, and no program begins with these tokens and the one in question. If the
tokens end too early, all of them are the beginning of a program.

Every reader of the standard grammar is shown to recognise the phrases that it is meant to read. For
expressions the invariant of the loop of tails does the work: what has been read spells a phrase
whenever an operand is due, so that any operand completes it. For statements the sets are put
together from those of their parts, in the order in which the parts are read.
-/

namespace Scriptlet.Parse

/-! ## Expressions -/

/-- The phrases that are read at a precedence. -/
def Phrase (min : Precedence) (ts : List Token) : Prop := ∃ e, Spells (.above min) ts e

theorem exists_phrase (min : Precedence) : ∃ us, Phrase min us := by
  refine ⟨[⟨.number, "0", 1⟩], _, (Spells.literal (.number rfl)).mono ?_⟩
  cases min <;> decide

theorem phrase_of_primary (min : Precedence) {ts : List Token} {e : Expr}
    (h : Spells .primary ts e) : Phrase min ts := by
  refine ⟨e, h.mono ?_⟩
  cases min <;> decide

theorem Folded.phrase {min : Precedence} {seen : List Token} {left : Expr} {next? : Option Token}
    (h : Folded min seen left next?) : Phrase min seen := by
  obtain ⟨level, hleft, hrank, -, -⟩ := h
  exact ⟨left, hleft.mono hrank⟩

section Expressions

variable {cx : Context} (hcx : cx.grammar = .standard)

theorem agree_expression_self (min : Precedence) (ts : List Token) :
    Agree 1 (expression cx min) (expression cx min) ts :=
  (agree_expression (Nat.le_refl _) min).right

include hcx

/-- A call is read as a list of arguments and the tails behind it. -/
theorem run_expression_arguments {t l : Token} (ht : t.kind = .identifier)
    (hl : l.kind = .leftParen) (min : Precedence) (ts : List Token) :
    (expression cx min).run (t :: l :: ts)
      = (do
          let es ← listed cx (expression cx .lowest) .rightParen
          tailsOf cx min (.call t.lexeme es)).run ts := by
  have hlist : (items cx (expression cx .lowest) .rightParen (ts.length + 1)).run ts
      = (listed cx (expression cx .lowest) .rightParen).run ts :=
    (agree_items (fun r _ ↦ agree_expression_self .lowest r) (Nat.le_refl _) (by omega)
      (Nat.le_succ _)).run_eq
  rw [run_expression_call hcx ht hl, EStateM.run_bind, EStateM.run_bind, hlist]

/-- What an expression has read is a phrase that the next token does not carry on. -/
theorem spells_of_run {min : Precedence} {ts used rest : List Token} {e : Expr}
    (hts : ts = used ++ rest) (h : (expression cx min).run ts = .ok e rest) :
    Spells (.above min) used e ∧ ¬ Continues min used.getLast? rest.head? := by
  obtain ⟨used', hts', hspells, hstop⟩ := (run_expression_eq_ok_iff hcx).mp h
  obtain rfl : used' = used := List.append_cancel_right (hts'.symm.trans hts)
  exact ⟨hspells, hstop⟩

theorem items_of_run_listed {ts rest : List Token} {es : List Expr}
    (h : (listed cx (expression cx .lowest) .rightParen).run ts = .ok es rest) :
    ∃ used r, ts = used ++ r :: rest ∧ r.kind = .rightParen ∧ Items (Spells .logical) used es := by
  rw [listed, run_bind_of_ok (EStateM.run_get _)] at h
  refine items_of_run_items (fun {us e mid} _ he ↦ ?_) (Nat.le_refl _) h
  obtain ⟨used, hus, hspells, -⟩ := (run_expression_eq_ok_iff hcx).mp he
  exact ⟨used, hus, hspells⟩

variable {n : Nat}
  (hread : ∀ r : List Token, r.length < n → ∀ min,
    Recognizes cx (expression cx min) (Phrase min) r)
  {min : Precedence} {ts : List Token} {t : Token}

include hread

/-- Along the loop of tails every operand that is due completes a phrase. -/
theorem recognizes_tailsOf {seen : List Token} {left : Expr} (hn : ts.length ≤ n)
    (hinv : Folded min seen left ts.head?) :
    Recognizes cx (tailsOf cx min left) (fun us ↦ Phrase min (seen ++ us)) ts := by
  induction hlength : ts.length using Nat.strongRecOn generalizing ts seen left with
  | _ m ih =>
  by_cases hbinds : Binds min ts.head?
  · obtain ⟨t, op, hhead, hop, hlt⟩ := hbinds
    obtain ⟨us, rfl⟩ := List.head?_eq_some_iff.mp hhead
    rw [List.length_cons] at hn hlength
    refine Recognizes.append (w := [t]) ?_ fun vs _ ↦ run_tailsOf_operator hcx left hop hlt
    refine (hread us (by omega) op.precedence).bind ?_ fun right used rest hus _ hrun ↦ ?_
    · rintro used rest - ⟨vs, r, hr⟩
      -- the operand may break off anywhere, and with the rest of it the phrase is complete
      have hfolded := hinv.step hop hlt hr (not_continues_none op.precedence _)
      exact ⟨vs, hfolded.phrase⟩
    · obtain ⟨hright, hstop⟩ := spells_of_run hcx hus hrun
      have hshort : rest.length ≤ us.length := by
        rw [hus, List.length_append]
        omega
      have hloop := ih rest.length (by omega) (by omega) (hinv.step hop hlt hright hstop) rfl
      refine hloop.mono fun vs hvs ↦ ?_
      rw [List.append_assoc, List.cons_append] at hvs
      exact hvs
  · refine .of_ok (a := left) ?_ fun us hus ↦ run_tailsOf_of_not_binds left (by rwa [hus])
    rw [List.append_nil]
    exact hinv.phrase

theorem recognizes_tailsOf_closed {us : List Token} {r : Token} {e : Expr} (hn : ts.length ≤ n)
    (hr : r.kind = .rightParen) (he : Spells .primary (us ++ [r]) e) :
    Recognizes cx (tailsOf cx min e) (fun vs ↦ Phrase min (us ++ [r] ++ vs)) ts := by
  have hcalls : ¬ Calls (us ++ [r]).getLast? ts.head? := by
    rw [List.getLast?_concat]
    exact not_calls_of_last_ne (by rw [hr]; decide)
  exact recognizes_tailsOf hcx hread hn (.start (.lift he) hcalls)

theorem recognizes_name (hn : ts.length ≤ n) (ht : t.kind = .identifier)
    (hnext : ts.head?.map Token.kind ≠ some .leftParen) :
    Recognizes cx (expression cx min) (Phrase min) (t :: ts) := by
  have hcalls : ¬ Calls [t].getLast? ts.head? := by
    rintro ⟨last, next, -, hhead, -, hkind⟩
    rw [hhead, Option.map_some, hkind] at hnext
    exact hnext rfl
  refine Recognizes.append (w := [t]) (q := tailsOf cx min (.name t.lexeme)) ?_ fun us hus ↦ ?_
  · exact recognizes_tailsOf hcx hread hn (.start (.lift (.name ht)) hcalls)
  · rw [← hus] at hnext
    exact run_expression_name hcx ht hnext min

theorem recognizes_call {l : Token} (hn : ts.length < n) (ht : t.kind = .identifier)
    (hl : l.kind = .leftParen) :
    Recognizes cx (expression cx min) (Phrase min) (t :: l :: ts) := by
  refine Recognizes.append (w := [t, l]) ?_ fun us _ ↦ run_expression_arguments hcx ht hl min us
  refine (recognizes_listed (agree_expression_self .lowest) (by decide) fun r hr ↦
    hread r (by omega) .lowest).bind ?_ fun es used rest hts _ hrun ↦ ?_
  · rintro used rest - ⟨us, hus⟩
    obtain ⟨vs, r, es, hsplit, hr, hargs⟩ := exists_items_of_listed hus
    refine ⟨us, phrase_of_primary min (e := .call t.lexeme es) ?_⟩
    rw [hsplit]
    exact .call ht hl hargs hr
  · obtain ⟨vs, r, hts', hr, hargs⟩ := items_of_run_listed hcx hrun
    rw [List.append_cons] at hts'
    obtain rfl : vs ++ [r] = used := List.append_cancel_right (hts'.symm.trans hts)
    have hcall : Spells .primary ((t :: l :: vs) ++ [r]) (.call t.lexeme es) :=
      .call ht hl hargs hr
    rw [hts, List.length_append] at hn
    exact (recognizes_tailsOf_closed hcx hread (by omega) hr hcall).mono fun us hus ↦ hus

theorem recognizes_group (hn : ts.length < n) (ht : t.kind = .leftParen) :
    Recognizes cx (expression cx min) (Phrase min) (t :: ts) := by
  refine Recognizes.append (w := [t]) ?_ fun us _ ↦ run_expression_group hcx ht min
  refine (hread ts hn .lowest).bind ?_ fun e used rest hts _ hrun ↦ ?_
  · rintro used rest - ⟨us, e, he⟩
    -- what is open is an expression and the parenthesis around it
    refine ⟨us ++ [⟨.rightParen, "", 1⟩], phrase_of_primary min (e := e) ?_⟩
    rw [← List.append_assoc used]
    exact .group ht he rfl
  obtain ⟨he, -⟩ := spells_of_run hcx hts hrun
  refine (recognizes_expect .rightParen rest).bind ?_ fun r closed rest' hrest _ hclose ↦ ?_
  · rintro closed rest' - ⟨us, r, hsplit, hr⟩
    refine ⟨us, phrase_of_primary min (e := e) ?_⟩
    rw [hsplit]
    exact .group ht he hr
  · obtain ⟨hrest', hr⟩ := run_expect_eq_ok.mp hclose
    obtain rfl : [r] = closed := List.append_cancel_right (hrest'.symm.trans hrest)
    have hgroup : Spells .primary ((t :: used) ++ [r]) e := .group ht he hr
    rw [hts, hrest', List.length_append, List.length_cons] at hn
    refine (recognizes_tailsOf_closed hcx hread (by omega) hr hgroup).mono fun us hus ↦ ?_
    rw [List.append_assoc] at hus
    exact hus

theorem recognizes_unary {op : UnaryOp} (hn : ts.length < n) (ht : t.kind.unaryOp? = some op) :
    Recognizes cx (expression cx min) (Phrase min) (t :: ts) := by
  have hunary : ∀ {us : List Token} {e : Expr}, Spells (.above .unary) us e →
      Spells .unary ([t] ++ us) (.unary op e) :=
    fun he ↦ .unary (Level.mem_unaryOperators_iff.mpr ht) he
  refine Recognizes.append (w := [t]) ?_ fun us _ ↦ run_expression_unary hcx ht min
  refine (hread ts hn .unary).bind ?_ fun e used rest hts _ hrun ↦ ?_
  · rintro used rest - ⟨us, e, he⟩
    have hfolded : Folded min ([t] ++ (used ++ us)) (.unary op e) none :=
      .start (hunary he) fun hcalls ↦ not_continues_none min _ (Or.inr hcalls)
    exact ⟨us, hfolded.phrase⟩
  · obtain ⟨he, hstop⟩ := spells_of_run hcx hts hrun
    have hcalls : ¬ Calls ([t] ++ used).getLast? rest.head? := by
      rw [getLast?_append_of_ne_nil [t] he.ne_nil]
      exact fun hcalls ↦ hstop (Or.inr hcalls)
    rw [hts, List.length_append] at hn
    exact recognizes_tailsOf hcx hread (by omega) (.start (hunary he) hcalls)

omit hread

theorem recognizes_expression_below :
    ∀ r : List Token, r.length < n → ∀ min, Recognizes cx (expression cx min) (Phrase min) r := by
  induction n with
  | zero => exact fun r hr ↦ absurd hr (Nat.not_lt_zero _)
  | succ n hread =>
    rintro (_ | ⟨t, ts⟩) hn min
    · refine .of_error (exists_phrase min) (.atEnd .expression) fun us hus ↦ ?_
      rw [List.head?_eq_none_iff.mp hus, run_expression_nil]
    rw [List.length_cons] at hn
    rcases start_cases t with ⟨e, he⟩ | hname | hparen | ⟨op, hop⟩ | hnone
    · have hinv : Folded min [t] e ts.head? :=
        .start (.lift (.literal he)) (not_calls_of_last_ne he.kind_ne_identifier)
      refine Recognizes.append (w := [t]) ?_ fun us _ ↦ run_expression_literal hcx he min
      exact recognizes_tailsOf hcx hread (by omega) hinv
    · by_cases hnext : ts.head?.map Token.kind = some .leftParen
      · obtain ⟨l, hhead, hl⟩ := Option.map_eq_some_iff.mp hnext
        obtain ⟨us, rfl⟩ := List.head?_eq_some_iff.mp hhead
        rw [List.length_cons] at hn
        exact recognizes_call hcx hread (by omega) hname hl
      · exact recognizes_name hcx hread (by omega) hname hnext
    · exact recognizes_group hcx hread (by omega) hparen
    · exact recognizes_unary hcx hread (by omega) hop
    · refine .of_error (exists_phrase min) (.noTerm t ts) fun us hus ↦ ?_
      obtain ⟨us, rfl⟩ := List.head?_eq_some_iff.mp hus
      exact run_expression_refused min (by rw [hcx]; exact hnone)

theorem recognizes_expression (min : Precedence) (ts : List Token) :
    Recognizes cx (expression cx min) (Phrase min) ts :=
  recognizes_expression_below hcx ts (Nat.lt_succ_self _) min

end Expressions

/-! ## The parts of statements -/

/-- What may stand behind a simple statement. -/
def StatementEnd (ts : List Token) : Prop := ts = [] ∨ OfKind .semicolon ts

def InParens (ts : List Token) : Prop :=
  ∃ l cs r e, ts = l :: (cs ++ [r]) ∧ l.kind = .leftParen ∧ Spells .logical cs e ∧
    r.kind = .rightParen

/-- What is read as a statement, wherever it stands. -/
def Readable (ts : List Token) : Prop := ∃ s, SpellsStatement ts s ∨ SpellsSimple ts s

def Block (ts : List Token) : Prop := ∃ body, SpellsBlock ts body

/-- Statements up to where the list closes. -/
def Sequence (closing : Option TokenKind) (afterBranch : Bool) (ts : List Token) : Prop :=
  ∃ p, ReadsSequence closing afterBranch ts p []

theorem exists_readable : ∃ us, Readable us := by
  obtain ⟨us, e, he⟩ := exists_phrase .lowest
  exact ⟨us, .expression e, Or.inr (.expression he)⟩

theorem exists_block : ∃ us, Block us := by
  have hlinked : Linked ([] : List (Statement Unit)) := linkedAfter_false_iff.mp linkedAfter_nil
  exact ⟨_, [], @SpellsBlock.braces ⟨.leftBrace, "", 1⟩ ⟨.rightBrace, "", 1⟩ [] [] rfl .nil hlinked
    rfl⟩

theorem exists_closes {closing : Option TokenKind}
    (hclosing : closing = none ∨ closing = some .rightBrace) : ∃ us, Closes closing us [] := by
  rcases hclosing with rfl | rfl
  · exact ⟨[], .program⟩
  · exact ⟨[⟨.rightBrace, "", 1⟩], .block rfl⟩

section Parts

variable {cx : Context}

theorem recognizes_endStatement (ts : List Token) :
    Recognizes cx (endStatement cx) StatementEnd ts := by
  rcases ts with _ | ⟨t, ts⟩
  · refine .of_ok (a := ()) (Or.inl rfl) fun us hus ↦ ?_
    rw [List.head?_eq_none_iff.mp hus]
    rfl
  by_cases hsemi : t.kind = .semicolon
  · refine Recognizes.append (w := [t]) (q := pure ()) ?_ fun us _ ↦ ?_
    · exact .of_ok (a := ()) (Or.inr ⟨t, rfl, hsemi⟩) fun us _ ↦ rfl
    · exact run_endStatement_eq_ok.mpr (Or.inl ⟨t, rfl, hsemi⟩)
  by_cases hbrace : t.kind = .rightBrace
  · refine .of_ok (a := ()) (Or.inl rfl) fun us hus ↦ ?_
    obtain ⟨us, rfl⟩ := List.head?_eq_some_iff.mp hus
    rw [run_endStatement_cons, if_neg hsemi, if_pos hbrace]
  · refine .of_error ⟨[], Or.inl rfl⟩ (.unexpected (.token .semicolon) t ts) fun us hus ↦ ?_
    obtain ⟨us, rfl⟩ := List.head?_eq_some_iff.mp hus
    rw [run_endStatement_cons, if_neg hsemi, if_neg hbrace]

theorem recognizes_parameters (ts : List Token) :
    Recognizes cx (parameters cx) (Listed (fun us ↦ ∃ x, SpellsName us x) .rightParen) ts := by
  refine recognizes_listed (agree_expectName cx) (by decide) fun r _ ↦ ?_
  refine (recognizes_expectName r).mono ?_
  rintro us ⟨t, rfl, ht⟩
  exact ⟨t.lexeme, .name ht⟩

variable (hcx : cx.grammar = .standard)

include hcx

theorem recognizes_closed {α : Type} (closing : TokenKind) (build : Expr → α) (ts : List Token) :
    Recognizes cx
      (do
        let e ← expression cx .lowest
        let _ ← expect cx closing
        return build e) (Joined (Phrase .lowest) (OfKind closing)) ts := by
  refine (recognizes_expression hcx .lowest ts).seq (exists_ofKind _) fun e rest _ ↦ ?_
  exact (recognizes_expect closing rest).map fun _ ↦ build e

theorem recognizes_parenthesized (ts : List Token) :
    Recognizes cx (parenthesized cx) InParens ts := by
  refine ((recognizes_expect .leftParen ts).seq (exists_joined (exists_phrase _) (exists_ofKind _))
    fun _ rest _ ↦ recognizes_closed hcx .rightParen (fun e ↦ e) rest).mono ?_
  rintro us ⟨_, _, rfl, ⟨l, rfl, hl⟩, cs, _, rfl, ⟨e, he⟩, r, rfl, hr⟩
  exact ⟨l, cs, r, e, rfl, hl, he, hr⟩

theorem recognizes_simple {w : List Token} {build : Expr → Statement Unit}
    (hbuild : ∀ {us e}, Spells .logical us e → SpellsSimple (w ++ us) (build e))
    (ts : List Token) :
    Recognizes cx
      (do
        let value ← expression cx .lowest
        endStatement cx
        return build value) (fun us ↦ Readable (w ++ us)) ts := by
  refine ((recognizes_expression hcx .lowest ts).seq ⟨[], Or.inl rfl⟩ fun e rest _ ↦
    (recognizes_endStatement rest).map fun _ ↦ build e).mono ?_
  rintro us ⟨vs, ws, rfl, ⟨e, he⟩, rfl | ⟨semi, rfl, hsemi⟩⟩
  · rw [List.append_nil]
    exact ⟨build e, Or.inr (hbuild he)⟩
  · rw [← List.append_assoc]
    exact ⟨build e, Or.inl (.simple (hbuild he) hsemi)⟩

theorem recognizes_let {t : Token} (ht : t.kind = .keyLet) (ts : List Token) :
    Recognizes cx (statement cx) Readable (t :: ts) := by
  have hvalues := exists_joined (exists_phrase .lowest) (exists_ofKind .semicolon)
  refine Recognizes.append (w := [t]) ?_ fun us _ ↦ run_statement_let ht
  refine ((recognizes_expectName ts).seq (exists_joined (exists_ofKind .assign) hvalues)
    fun x rest _ ↦ (recognizes_expect .assign rest).seq hvalues fun _ rest' _ ↦
      recognizes_closed hcx .semicolon (Statement.declare x) rest').mono ?_
  rintro us ⟨_, _, rfl, ⟨x, rfl, hx⟩, _, _, rfl, ⟨eq, rfl, heq⟩, vs, _, rfl, ⟨e, he⟩, semi, rfl,
    hsemi⟩
  exact ⟨.declare x.lexeme e, Or.inl (.declare ht hx heq he hsemi)⟩

/-- A statement that opens with no keyword of its own is an assignment or an expression. -/
theorem recognizes_other {t : Token} (hopen : opensStatement t.kind = false) (ts : List Token) :
    Recognizes cx (statement cx) Readable (t :: ts) := by
  have hsimple := recognizes_simple hcx (w := []) (fun he ↦ .expression he) (t :: ts)
  by_cases hx : t.kind = .identifier
  · by_cases hnext : ts.head?.map Token.kind = some .assign
    · obtain ⟨eq, hhead, heq⟩ := Option.map_eq_some_iff.mp hnext
      obtain ⟨us, rfl⟩ := List.head?_eq_some_iff.mp hhead
      refine Recognizes.append (w := [t, eq]) ?_ fun us _ ↦ run_statement_assign hx heq
      exact recognizes_simple hcx (fun he ↦ .assign hx heq he) us
    · have hterm : (cx.grammar.term? t.kind).isSome = true := by
        rw [hcx, hx]
        rfl
      have hname : (expression cx .lowest).run ([t] ++ []) = .ok (.name t.lexeme) [] :=
        run_expression_of_spells hcx ((Spells.name hx).mono (by decide))
          (not_continues_none _ _)
      refine hsimple.of_run_eq_cons (a := .expression (.name t.lexeme)) ?_ fun us hus ↦ ?_
      · rw [← List.append_nil [t], run_bind_of_ok hname]
        rfl
      · rw [← hus] at hnext
        rw [run_statement_other hopen fun h ↦ hnext h.2, if_pos hterm]
  · have hassign : ∀ us : List Token,
        ¬ (t.kind = .identifier ∧ us.head?.map Token.kind = some .assign) := fun us h ↦ hx h.1
    by_cases hterm : (cx.grammar.term? t.kind).isSome = true
    · refine hsimple.of_run_eq fun us hus ↦ ?_
      obtain ⟨us, rfl⟩ := List.head?_eq_some_iff.mp hus
      rw [run_statement_other hopen (hassign us), if_pos hterm]
    · refine .of_error exists_readable (.unknown t ts) fun us hus ↦ ?_
      obtain ⟨us, rfl⟩ := List.head?_eq_some_iff.mp hus
      rw [run_statement_other hopen (hassign us), if_neg hterm]

end Parts

/-! ## Lists of statements -/

section Statements

variable {cx : Context} {closing : Option TokenKind} {afterBranch : Bool} {ts : List Token}

theorem Begins.left {L : List Token → Prop} {us vs : List Token} (h : Begins L (us ++ vs)) :
    Begins L us := by
  obtain ⟨ws, hws⟩ := h
  rw [List.append_assoc] at hws
  exact ⟨vs ++ ws, hws⟩

theorem sequence_of_closes (h : Closes closing ts []) : Sequence closing afterBranch ts :=
  ⟨[], [], ts, rfl, .nil, linkedAfter_nil, h⟩

theorem Sequence.cons {s : Statement Unit} {us : List Token} (hs : SpellsStatement ts s)
    (hfirst : continuesBranch s = true → afterBranch = true)
    (h : Sequence closing s.opensBranch us) : Sequence closing afterBranch (ts ++ us) := by
  obtain ⟨p, vs, tail, rfl, hp, hlinked, hclose⟩ := h
  exact ⟨s :: p, ts ++ vs, tail, (List.append_assoc _ _ _).symm, .cons hs hp,
    linkedAfter_cons.mpr ⟨hfirst, hlinked⟩, hclose⟩

theorem sequence_of_simple {s : Statement Unit} {us : List Token} (hs : SpellsSimple ts s)
    (hfirst : continuesBranch s = true → afterBranch = true) (h : Closes closing us []) :
    Sequence closing afterBranch (ts ++ us) :=
  ⟨[s], ts, us, rfl, .last hs, linkedAfter_cons.mpr ⟨hfirst, linkedAfter_nil⟩, h⟩

/-- Wherever a statement breaks off, it can be completed and the list closed behind it. -/
theorem begins_sequence_of_readable (hclosing : closing = none ∨ closing = some .rightBrace)
    (hfirst : ∀ t : Token, ts.head? = some t → t.kind = .keyElif ∨ t.kind = .keyElse →
      afterBranch = true)
    (h : Begins Readable ts) : Begins (Sequence closing afterBranch) ts := by
  obtain ⟨tail, hclose⟩ := exists_closes hclosing
  obtain ⟨us, s, hs⟩ := h
  rcases ts with _ | ⟨t, ts⟩
  · exact ⟨tail, sequence_of_closes hclose⟩
  have hlink : ∀ u vs, t :: ts ++ us = u :: vs → Heads u s → continuesBranch s = true →
      afterBranch = true := by
    intro u vs hcons hheads hcontinues
    obtain ⟨rfl, -⟩ := List.cons.inj hcons
    exact hfirst t rfl (hheads.2.mpr hcontinues)
  have hbegins : Begins (Sequence closing afterBranch) (t :: ts ++ us) := by
    refine ⟨tail, ?_⟩
    rcases hs with hs | hs
    · obtain ⟨u, vs, hcons, hheads⟩ := hs.exists_head
      exact .cons hs (hlink u vs hcons hheads) (sequence_of_closes hclose)
    · obtain ⟨u, vs, hcons, hheads⟩ := hs.exists_head
      exact sequence_of_simple hs (hlink u vs hcons hheads) hclose
  exact hbegins.left

variable (hcx : cx.grammar = .standard)
  (hclosing : closing = none ∨ closing = some .rightBrace)

include hcx hclosing

/-- Where a list ends nothing but what closes it is read. -/
theorem recognizes_sequence_of_atEnd (hend : AtEnd ts) :
    Recognizes cx (sequence cx closing afterBranch) (fun us ↦ Closes closing us []) ts := by
  rcases ts with _ | ⟨t, ts⟩
  · rcases hclosing with rfl | rfl
    · refine .of_ok (a := []) .program fun us hus ↦ ?_
      rw [List.head?_eq_none_iff.mp hus, run_sequence_nil]
    · refine .of_error (exists_closes (Or.inr rfl)) (.atEnd (.token .rightBrace)) fun us hus ↦ ?_
      rw [List.head?_eq_none_iff.mp hus, run_sequence_nil]
  · have hbrace := hend t rfl
    rcases hclosing with rfl | rfl
    · refine .of_error (exists_closes (Or.inl rfl)) (.unknown t ts) fun us hus ↦ ?_
      obtain ⟨us, rfl⟩ := List.head?_eq_some_iff.mp hus
      exact run_sequence_brace hcx hbrace
    · refine Recognizes.append (w := [t]) (q := pure []) ?_ fun us _ ↦ ?_
      · exact .of_ok (a := []) (.block hbrace) fun us _ ↦ rfl
      · exact run_sequence_close _ (by rw [hbrace])

variable {n : Nat}
  (hread : ∀ r : List Token, r.length < n → Recognizes cx (statement cx) Readable r)

include hread

theorem recognizes_sequence (hn : ts.length < n) :
    Recognizes cx (sequence cx closing afterBranch) (Sequence closing afterBranch) ts := by
  induction hlength : ts.length using Nat.strongRecOn generalizing ts afterBranch with
  | _ m ih =>
  by_cases hend : AtEnd ts
  · exact (recognizes_sequence_of_atEnd hcx hclosing hend).mono fun us ↦ sequence_of_closes
  obtain ⟨t, us, rfl, hbrace⟩ := exists_of_not_atEnd hend
  have hopen : some t.kind ≠ closing := by
    rcases hclosing with rfl | rfl
    · exact Option.some_ne_none _
    · exact fun heq ↦ hbrace (Option.some.inj heq)
  by_cases hdangling : (t.kind = .keyElif ∨ t.kind = .keyElse) ∧ afterBranch = false
  · obtain ⟨hkind, rfl⟩ := hdangling
    obtain ⟨tail, hclose⟩ := exists_closes hclosing
    refine .of_error ⟨tail, sequence_of_closes hclose⟩ (.dangling t us) fun vs hvs ↦ ?_
    obtain ⟨vs, rfl⟩ := List.head?_eq_some_iff.mp hvs
    exact run_sequence_dangling hopen hkind
  have hbranch : t.kind = .keyElif ∨ t.kind = .keyElse → afterBranch = true := fun hkind ↦
    Bool.of_not_eq_false fun hfalse ↦ hdangling ⟨hkind, hfalse⟩
  have hcons : ∀ vs : List Token, vs.head? = (t :: us).head? →
      (sequence cx closing afterBranch).run vs
        = (do
            let s ← statement cx
            let rest ← sequence cx closing s.opensBranch
            return s :: rest).run vs := by
    intro vs hvs
    obtain ⟨vs, rfl⟩ := List.head?_eq_some_iff.mp hvs
    exact run_sequence_cons hopen hbranch
  refine Recognizes.of_run_eq ?_ hcons
  refine (hread _ hn).bind ?_ fun s used rest hts _ hrun ↦ ?_
  · intro used rest hts hbegin
    refine begins_sequence_of_readable hclosing (fun u hu ↦ ?_) hbegin
    -- what has been read starts with the token in front, which is not dangling
    obtain ⟨vs, rfl⟩ := List.head?_eq_some_iff.mp hu
    obtain ⟨rfl, -⟩ := List.cons.inj hts
    exact hbranch
  · have hreads := readsStatement_of_run hcx (Nat.lt_succ_self _) hrun
    obtain ⟨t', us', hcons', ⟨-, hheads⟩, hshort⟩ := hreads.exists_head
    obtain ⟨rfl, rfl⟩ := List.cons.inj hcons'
    have hfirst : continuesBranch s = true → afterBranch = true := fun hs ↦
      hbranch (hheads.mpr hs)
    obtain ⟨used', hts', hspells⟩ := hreads
    obtain rfl : used' = used := List.append_cancel_right (hts'.symm.trans hts)
    rcases hspells with hspells | ⟨hspells, hatEnd⟩
    · exact ((ih rest.length (by omega) (by omega) rfl).map (s :: ·)).mono fun vs hvs ↦
        .cons hspells hfirst hvs
    · exact ((recognizes_sequence_of_atEnd hcx hclosing hatEnd).map (s :: ·)).mono fun vs hvs ↦
        sequence_of_simple hspells hfirst hvs

omit hclosing

theorem recognizes_block (hn : ts.length ≤ n) : Recognizes cx (block cx) Block ts := by
  have hsome : ∃ us, Sequence (some .rightBrace) false us := by
    obtain ⟨us, hus⟩ := exists_closes (Or.inr rfl)
    exact ⟨us, sequence_of_closes hus⟩
  refine Recognizes.of_run_eq ?_ fun us _ ↦ run_block us
  refine ((recognizes_expect .leftBrace ts).seq hsome fun l rest hl ↦ ?_).mono ?_
  · obtain ⟨rfl, -⟩ := run_expect_eq_ok.mp hl
    exact recognizes_sequence hcx (Or.inr rfl) hread hn
  · rintro us ⟨_, _, rfl, ⟨l, rfl, hl⟩, p, vs, tail, rfl, hp, hlinked, hclose⟩
    cases hclose with
    | block hr => exact ⟨p, .braces hl hp (linkedAfter_false_iff.mp hlinked) hr⟩

section Keywords

variable {t : Token}

theorem recognizes_branch {build : Expr → List (Statement Unit) → Statement Unit}
    (hn : ts.length ≤ n) (ht : branch? t.kind = some build) :
    Recognizes cx (statement cx) Readable (t :: ts) := by
  refine Recognizes.append (w := [t]) ?_ fun us _ ↦ run_statement_branch ht
  refine ((recognizes_parenthesized hcx ts).seq exists_block fun e rest he ↦ ?_).mono ?_
  · obtain ⟨l, cs, r, rfl, -⟩ := (run_parenthesized_eq_ok hcx).mp he
    rw [List.length_cons, List.length_append, List.length_cons] at hn
    exact (recognizes_block hcx hread (by omega)).map (build e)
  · rintro us ⟨_, bs, rfl, ⟨l, cs, r, e, rfl, hl, he, hr⟩, body, hbody⟩
    have hspells := SpellsStatement.branch ht hl he hr hbody
    rw [List.append_cons cs] at hspells
    exact ⟨build e body, Or.inl hspells⟩

theorem recognizes_else (hn : ts.length ≤ n) (ht : t.kind = .keyElse) :
    Recognizes cx (statement cx) Readable (t :: ts) := by
  refine Recognizes.append (w := [t]) ?_ fun us _ ↦ run_statement_else ht
  refine ((recognizes_block hcx hread hn).map Statement.elseBranch).mono ?_
  rintro us ⟨body, hbody⟩
  exact ⟨.elseBranch body, Or.inl (.elseBranch ht hbody)⟩

theorem recognizes_function (hn : ts.length ≤ n) (ht : t.kind = .keyFunction) :
    Recognizes cx (statement cx) Readable (t :: ts) := by
  have hparams : ∃ us, Listed (fun us ↦ ∃ x, SpellsName us x) .rightParen us := by
    obtain ⟨us, hus⟩ := exists_ofKind .rightParen
    exact ⟨us, Or.inl hus⟩
  have htail := exists_joined hparams exists_block
  refine Recognizes.append (w := [t]) ?_ fun us _ ↦ run_statement_function ht
  refine ((recognizes_expectName ts).seq (exists_joined (exists_ofKind .leftParen) htail)
    fun x rest₁ hx ↦ (recognizes_expect .leftParen rest₁).seq htail fun l rest₂ hl ↦
      (recognizes_parameters rest₂).seq exists_block fun params rest₃ hps ↦ ?_).mono ?_
  · obtain ⟨x, rfl, -, -⟩ := run_expectName_eq_ok.mp hx
    obtain ⟨rfl, -⟩ := run_expect_eq_ok.mp hl
    obtain ⟨ps, r, rfl, -⟩ := run_parameters_eq_ok.mp hps
    rw [List.length_cons, List.length_cons, List.length_append, List.length_cons] at hn
    exact (recognizes_block hcx hread (by omega)).map (Statement.function () _ params)
  · rintro us ⟨_, _, rfl, ⟨x, rfl, hx⟩, _, _, rfl, ⟨l, rfl, hl⟩, vs, bs, rfl, hlisted, body, hbody⟩
    obtain ⟨ps, r, params, rfl, hr, hitems⟩ := exists_items_of_listed hlisted
    have hspells := SpellsStatement.function ht hx hl hitems hr hbody
    rw [List.append_cons ps] at hspells
    exact ⟨.function () x.lexeme params body, Or.inl hspells⟩

theorem recognizes_braces (hn : ts.length < n) (ht : t.kind = .leftBrace) :
    Recognizes cx (statement cx) Readable (t :: ts) := by
  have hblock : Recognizes cx (block cx) Block (t :: ts) := recognizes_block hcx hread hn
  refine Recognizes.of_run_eq ((hblock.map Statement.block).mono ?_) fun us hus ↦ ?_
  · rintro us ⟨body, hbody⟩
    exact ⟨.block body, Or.inl (.block hbody)⟩
  · obtain ⟨us, rfl⟩ := List.head?_eq_some_iff.mp hus
    exact run_statement_block ht

end Keywords

omit hread

theorem recognizes_statement_below :
    ∀ r : List Token, r.length < n → Recognizes cx (statement cx) Readable r := by
  induction n with
  | zero => exact fun r hr ↦ absurd hr (Nat.not_lt_zero _)
  | succ n hread =>
    rintro (_ | ⟨t, ts⟩) hn
    · refine .of_error exists_readable (.atEnd .statement) fun us hus ↦ ?_
      rw [List.head?_eq_none_iff.mp hus, run_statement_nil]
    rw [List.length_cons] at hn
    rcases statement_cases t.kind with ht | ⟨build, ht⟩ | ht | ht | ht | ht | hopen
    · exact recognizes_let hcx ht ts
    · exact recognizes_branch hcx hread (by omega) ht
    · exact recognizes_else hcx hread (by omega) ht
    · exact recognizes_function hcx hread (by omega) ht
    · refine Recognizes.append (w := [t]) ?_ fun us _ ↦ run_statement_return ht
      exact recognizes_simple hcx (fun he ↦ .returns ht he) ts
    · exact recognizes_braces hcx hread (by omega) ht
    · exact recognizes_other hcx hopen ts

/-- The reader of programs fails as early as it can. -/
theorem recognizes_program (ts : List Token) :
    Recognizes cx (program cx) (fun us ↦ ∃ p, SpellsProgram us p) ts := by
  refine Recognizes.of_run_eq ?_ fun us _ ↦ run_program us
  refine (recognizes_sequence hcx (Or.inl rfl) (recognizes_statement_below hcx)
    (Nat.lt_succ_self _)).mono ?_
  rintro us ⟨p, vs, tail, rfl, hp, hlinked, hclose⟩
  cases hclose
  rw [List.append_nil]
  exact ⟨p, hp, linkedAfter_false_iff.mp hlinked⟩

end Statements

/-! ## Where a parse fails -/

def Parses (ts : List Token) : Prop := ∃ p, parse ts = .ok p

/-- The token at `k` is the first that is wrong: those in front of it are the beginning of a
program, and with it they are not. -/
def FirstWrong (ts : List Token) (k : Nat) (t : Token) : Prop :=
  ts[k]? = some t ∧ (∀ us, ¬ Parses (ts.take (k + 1) ++ us)) ∧ Begins Parses (ts.take k)

theorem parses_iff {ts : List Token} : Parses ts ↔ ∃ p, SpellsProgram ts p :=
  exists_congr fun _ ↦ parse_eq_ok_iff

theorem not_parses_iff {ts : List Token} : ¬ Parses ts ↔ ∃ e, parse ts = .error e := by
  rw [Parses]
  rcases hparse : parse ts with e | p
  · exact ⟨fun _ ↦ ⟨e, rfl⟩, fun _ ⟨p, hp⟩ ↦ by cases hp⟩
  · exact ⟨fun h ↦ absurd ⟨p, rfl⟩ h, fun ⟨e, he⟩ ↦ by cases he⟩

theorem begins_parses_iff {ts : List Token} :
    Begins Parses ts ↔ Begins (fun us ↦ ∃ p, SpellsProgram us p) ts :=
  exists_congr fun _ ↦ parses_iff

/-- A reader of programs that fails in front of a token, whatever follows it, has found the first
token that is wrong. -/
theorem firstWrong_of_run {cx : Context} (hcx : cx.grammar = .standard) {used us : List Token}
    {t : Token} {e : ParseError} (hbegins : Begins (fun us ↦ ∃ p, SpellsProgram us p) used)
    (hrun : ∀ vs : List Token, vs.head? = some t → (program cx).run (used ++ vs) = .error e vs) :
    FirstWrong (used ++ t :: us) used.length t := by
  refine ⟨?_, fun vs hparses ↦ ?_, ?_⟩
  · rw [List.getElem?_append_right (Nat.le_refl _), Nat.sub_self, List.getElem?_cons_zero]
  · obtain ⟨p, hspells⟩ := parses_iff.mp hparses
    -- the line on which the longer text ends does not matter to what it spells
    have hp := (run_program_eq_ok_iff hcx).mpr ⟨hspells, rfl⟩
    have htake : (used ++ t :: us).take (used.length + 1) = used ++ [t] := by
      rw [List.take_length_add_append, List.take_succ_cons, List.take_zero]
    rw [htake, List.append_assoc, List.singleton_append, hrun (t :: vs) rfl] at hp
    cases hp
  · rw [List.take_left]
    exact begins_parses_iff.mpr hbegins

/-- The error belongs to the place `k` of the tokens. If they end too early this is behind the last
one, on its line, and all of them are the beginning of a program; else it is the place of the first
token that is wrong, on the line of that token. -/
def ReportedAt (ts : List Token) (k : Nat) : ParseError → Prop
  | .unexpectedEnd _ line =>
    k = ts.length ∧ (∃ last, ts.getLast? = some last ∧ line = last.line) ∧ Begins Parses ts
  | .noTailRule _ => False
  | e => ∃ t, e.line = t.line ∧ FirstWrong ts k t

theorem reportedAt_of_run {ts rest : List Token} {e : ParseError}
    (h : (program ⟨.standard, endLine ts⟩).run ts = .error e rest) :
    ∃ k, rest = ts.drop k ∧ ReportedAt ts k e := by
  obtain ⟨used, hts, hbegins, hpoints, hrun⟩ := (recognizes_program rfl ts).error e rest h
  refine ⟨used.length, by rw [hts, List.drop_left], ?_⟩
  have hwrong : ∀ t us, rest = t :: us → FirstWrong ts used.length t := by
    intro t us hrest
    rw [hrest, List.head?_cons] at hrun
    rw [hts, hrest]
    exact firstWrong_of_run rfl hbegins hrun
  cases hpoints with
  | atEnd expected =>
    rw [List.append_nil] at hts
    have hne : ts ≠ [] := by
      rintro rfl
      cases h
    refine ⟨by rw [hts], ⟨ts.getLast hne, List.getLast?_eq_some_getLast hne, ?_⟩, ?_⟩
    · show endLine ts = _
      rw [endLine, List.getLast?_eq_some_getLast hne, Option.map_some, Option.getD_some]
    · rw [hts]
      exact begins_parses_iff.mpr hbegins
  | unexpected expected t us => exact ⟨t, rfl, hwrong t us rfl⟩
  | noTerm t us => exact ⟨t, rfl, hwrong t us rfl⟩
  | unknown t us => exact ⟨t, rfl, hwrong t us rfl⟩
  | dangling t us => exact ⟨t, rfl, hwrong t us rfl⟩

theorem not_firstWrong_of_begins {ts : List Token} (h : Begins Parses ts) (k : Nat) (t : Token) :
    ¬ FirstWrong ts k t := by
  obtain ⟨us, hus⟩ := h
  rintro ⟨-, hnone, -⟩
  refine hnone (ts.drop (k + 1) ++ us) ?_
  rw [← List.append_assoc, List.take_append_drop]
  exact hus

/-- A parse error is reported at the earliest place at which it can be known. In particular the
tokens are reported to end too early exactly if they are no program but the proper beginning of
one. -/
theorem parse_fails_at_first_wrong_token (ts : List Token) :
    (∀ e rest, (program ⟨.standard, endLine ts⟩).run ts = .error e rest →
      ∃ k, rest = ts.drop k ∧ ReportedAt ts k e) ∧
      ((∃ expected line, parse ts = .error (.unexpectedEnd expected line)) ↔
        ¬ Parses ts ∧ ∃ us, us ≠ [] ∧ Parses (ts ++ us)) := by
  refine ⟨fun e rest ↦ reportedAt_of_run, ?_, ?_⟩
  · rintro ⟨expected, line, herror⟩
    have hno : ¬ Parses ts := not_parses_iff.mpr ⟨_, herror⟩
    obtain ⟨rest, hrun⟩ := parse_eq_error_iff_run.mp herror
    obtain ⟨k, -, -, -, us, hus⟩ := reportedAt_of_run hrun
    refine ⟨hno, us, ?_, hus⟩
    rintro rfl
    rw [List.append_nil] at hus
    exact hno hus
  · rintro ⟨hno, us, -, hus⟩
    obtain ⟨e, herror⟩ := not_parses_iff.mp hno
    obtain ⟨rest, hrun⟩ := parse_eq_error_iff_run.mp herror
    obtain ⟨k, -, hreported⟩ := reportedAt_of_run hrun
    cases e with
    | unexpectedEnd expected line => exact ⟨expected, line, herror⟩
    | noTailRule t => exact hreported.elim
    | unexpectedToken _ _ | noTermRule _ | unknownStatement _ | danglingBranch _ =>
      obtain ⟨t, -, hwrong⟩ := hreported
      exact absurd hwrong (not_firstWrong_of_begins ⟨us, hus⟩ k t)

end Scriptlet.Parse
