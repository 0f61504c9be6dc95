import Scriptlet.Proofs.Parse.Statements
import Scriptlet.Proofs.Tree.Parts

/-!
# Printing trees

How trees are written as tokens, and that reading takes back exactly what was written.

## Layouts

A layout says what stands one after another in a written tree: tokens, and expressions that are
written in turn. It also says which of these expressions have to stand in parentheses. Those are the
operands that would otherwise be read differently: to the left of an operator one that binds looser,
to its right also one that binds equally, because operators group from the left, and behind a unary
operator anything that is joined by a binary one.

The layout does not fix the lines of the tokens, nor the texts of those that are known by their
kinds. Around every expression there may be any number of further parentheses.

## Reading back

A written expression is a phrase of the level of its outermost operator, or a primary if it stands
in parentheses (`spells_of_prints`). The demand for parentheses is just what makes each operand a
phrase of the level that its place asks for (`rank_ofOperator_le_left`, `rank_tighter_le_right`). So
written trees belong to the grammar of expressions and of programs, and reading is reading by this
grammar.
-/

namespace Scriptlet

/-! ## Layouts -/

def UnaryOp.kind : UnaryOp → TokenKind
  | plus => .plus
  | negate => .minus
  | not => .bang

def BinaryOp.kind : BinaryOp → TokenKind
  | add => .plus
  | sub => .minus
  | mul => .star
  | div => .slash
  | less => .less
  | greater => .greater
  | lessEqual => .lessEqual
  | greaterEqual => .greaterEqual
  | equal => .equalEqual
  | notEqual => .bangEqual
  | or => .doublePipe
  | and => .doubleAmpersand

@[simp]
theorem UnaryOp.unaryOp?_kind (op : UnaryOp) : op.kind.unaryOp? = some op := by
  cases op <;> rfl

@[simp]
theorem BinaryOp.binaryOp?_kind (op : BinaryOp) : op.kind.binaryOp? = some op := by
  cases op <;> rfl

namespace Parse

/-- What stands at one place of a written tree. -/
inductive Slot where
  /-- A token that is known by its kind. -/
  | mark (kind : TokenKind)
  /-- A token with a text of its own. -/
  | word (kind : TokenKind) (lexeme : String)
  /-- An expression, and whether it has to stand in parentheses. -/
  | phrase (enclosed : Bool) (e : Expr)

namespace Slot

def commas (ps : List Slot) : List Slot := ps.intersperse (.mark .comma)

def between (left right : TokenKind) (ps : List Slot) : List Slot :=
  .mark left :: (ps ++ [.mark right])

end Slot

end Parse

open Parse (Slot)
open Parse.Slot (commas between)

namespace Expr

def isBinary : Expr → Bool
  | binary .. => true
  | _ => false

/-- Whether the expression is joined by an operator that binds looser than `op`. -/
def isLooserThan (op : BinaryOp) : Expr → Bool
  | binary inner _ _ => inner.precedence < op.precedence
  | _ => false

/-- Whether the expression is joined by an operator that does not bind tighter than `op`. -/
def isNotTighterThan (op : BinaryOp) : Expr → Bool
  | binary inner _ _ => inner.precedence ≤ op.precedence
  | _ => false

def layout : Expr → List Slot
  | number lexeme => [.word .number lexeme]
  | string content => [.word .string content]
  | boolean true => [.mark .keyTrue]
  | boolean false => [.mark .keyFalse]
  | name x => [.word .identifier x]
  | unary op operand => [.mark op.kind, .phrase operand.isBinary operand]
  | binary op left right =>
    [.phrase (left.isLooserThan op) left, .mark op.kind, .phrase (right.isNotTighterThan op) right]
  | call callee arguments =>
    .word .identifier callee ::
      between .leftParen .rightParen (commas (arguments.map (.phrase false)))

end Expr

namespace Statement

mutual

def layout {ι : Type} : Statement ι → List Slot
  | declare x e =>
    [.mark .keyLet, .word .identifier x, .mark .assign, .phrase false e, .mark .semicolon]
  | assign x e => [.word .identifier x, .mark .assign, .phrase false e, .mark .semicolon]
  | ifBranch e body =>
    .mark .keyIf :: (between .leftParen .rightParen [.phrase false e] ++
      between .leftBrace .rightBrace (layoutAll body))
  | elifBranch e body =>
    .mark .keyElif :: (between .leftParen .rightParen [.phrase false e] ++
      between .leftBrace .rightBrace (layoutAll body))
  | elseBranch body => .mark .keyElse :: between .leftBrace .rightBrace (layoutAll body)
  | returns e => [.mark .keyReturn, .phrase false e, .mark .semicolon]
  | function _ x params body =>
    .mark .keyFunction :: .word .identifier x ::
      (between .leftParen .rightParen (commas (params.map (.word .identifier))) ++
        between .leftBrace .rightBrace (layoutAll body))
  | block body => between .leftBrace .rightBrace (layoutAll body)
  | expression e => [.phrase false e, .mark .semicolon]

def layoutAll {ι : Type} : List (Statement ι) → List Slot
  | [] => []
  | s :: rest => layout s ++ layoutAll rest

end

end Statement

namespace Parse

open Slot (commas between)

/-! ## Written trees -/

/-- The tokens follow the layout, if expressions are written as `R` says. -/
inductive Printed (R : Expr → List Token → Prop) : List Slot → List Token → Prop
  | nil : Printed R [] []
  | mark {kind : TokenKind} {t : Token} {ps : List Slot} {ts : List Token} (hkind : t.kind = kind)
      (hrest : Printed R ps ts) : Printed R (.mark kind :: ps) (t :: ts)
  | word {kind : TokenKind} {lexeme : String} {line : Nat} {ps : List Slot} {ts : List Token}
      (hrest : Printed R ps ts) : Printed R (.word kind lexeme :: ps) (⟨kind, lexeme, line⟩ :: ts)
  | bare {e : Expr} {ps : List Slot} {us ts : List Token} (h : R e us) (hrest : Printed R ps ts) :
      Printed R (.phrase false e :: ps) (us ++ ts)
  | enclosed {e : Expr} {l r : Token} {ps : List Slot} {us ts : List Token}
      (hl : l.kind = .leftParen) (h : R e us) (hr : r.kind = .rightParen)
      (hrest : Printed R ps ts) : Printed R (.phrase true e :: ps) (l :: (us ++ r :: ts))

/-- The tokens write the expression, possibly in parentheses. -/
inductive Prints : Expr → List Token → Prop
  | layout {e : Expr} {ts : List Token} (h : Printed Prints e.layout ts) : Prints e ts
  | parens {e : Expr} {l r : Token} {ts : List Token} (hl : l.kind = .leftParen) (h : Prints e ts)
      (hr : r.kind = .rightParen) : Prints e (l :: (ts ++ [r]))

/-- The tokens write the statements one after another. -/
def PrintsAll {ι : Type} (p : List (Statement ι)) (ts : List Token) : Prop :=
  Printed Prints (Statement.layoutAll p) ts

/-- In the list and in every list inside it, each `elif` and `else` directly follows an `if` or
`elif`. -/
inductive LinkedThroughout {ι : Type} : List (Statement ι) → Prop
  | intro {p : List (Statement ι)} (hlinked : Linked p)
      (hbodies : ∀ s ∈ p, LinkedThroughout s.body) : LinkedThroughout p

/-! ## Along a layout -/

namespace Printed

variable {R : Expr → List Token → Prop} {ps qs : List Slot} {ts : List Token}

theorem eq_nil (h : Printed R [] ts) : ts = [] := by
  rcases h
  rfl

theorem of_mark {kind : TokenKind} (h : Printed R (.mark kind :: ps) ts) :
    ∃ t us, ts = t :: us ∧ t.kind = kind ∧ Printed R ps us := by
  rcases h
  exact ⟨_, _, rfl, ‹_›, ‹_›⟩

theorem of_word {kind : TokenKind} {lexeme : String} (h : Printed R (.word kind lexeme :: ps) ts) :
    ∃ line us, ts = ⟨kind, lexeme, line⟩ :: us ∧ Printed R ps us := by
  rcases h
  exact ⟨_, _, rfl, ‹_›⟩

theorem of_bare {e : Expr} (h : Printed R (.phrase false e :: ps) ts) :
    ∃ us vs, ts = us ++ vs ∧ R e us ∧ Printed R ps vs := by
  rcases h
  exact ⟨_, _, rfl, ‹_›, ‹_›⟩

theorem of_append (h : Printed R (ps ++ qs) ts) :
    ∃ us vs, ts = us ++ vs ∧ Printed R ps us ∧ Printed R qs vs := by
  induction ps generalizing ts with
  | nil => exact ⟨[], ts, rfl, .nil, h⟩
  | cons p ps ih =>
    rw [List.cons_append] at h
    cases h with
    | mark hkind hrest =>
      obtain ⟨us, vs, rfl, hps, hqs⟩ := ih hrest
      exact ⟨_ :: us, vs, rfl, .mark hkind hps, hqs⟩
    | word hrest =>
      obtain ⟨us, vs, rfl, hps, hqs⟩ := ih hrest
      exact ⟨_ :: us, vs, rfl, .word hps, hqs⟩
    | bare h hrest =>
      obtain ⟨us, vs, rfl, hps, hqs⟩ := ih hrest
      exact ⟨_, vs, (List.append_assoc ..).symm, .bare h hps, hqs⟩
    | enclosed hl h hr hrest =>
      obtain ⟨us, vs, rfl, hps, hqs⟩ := ih hrest
      exact ⟨_, vs, by simp, .enclosed hl h hr hps, hqs⟩

theorem of_cons {p : Slot} (h : Printed R (p :: ps) ts) :
    ∃ us vs, ts = us ++ vs ∧ Printed R [p] us ∧ Printed R ps vs :=
  of_append (List.singleton_append ▸ h)

theorem of_between {left right : TokenKind} (h : Printed R (between left right ps) ts) :
    ∃ l us r, ts = l :: (us ++ [r]) ∧ l.kind = left ∧ Printed R ps us ∧ r.kind = right := by
  obtain ⟨l, _, rfl, hl, hrest⟩ := h.of_mark
  obtain ⟨us, _, rfl, hps, hlast⟩ := hrest.of_append
  obtain ⟨r, _, rfl, hr, hend⟩ := hlast.of_mark
  obtain rfl := hend.eq_nil
  exact ⟨l, us, r, rfl, hl, hps, hr⟩

theorem items {α : Type} {slot : α → Slot} {xs : List α}
    (h : Printed R (commas (xs.map slot)) ts) :
    Items (fun us x ↦ Printed R [slot x] us) ts xs := by
  induction xs generalizing ts with
  | nil =>
    obtain rfl := h.eq_nil
    exact .nil
  | cons x xs ih =>
    rcases xs with _ | ⟨y, ys⟩
    · exact .one h
    · rw [List.map_cons, List.map_cons, commas, List.intersperse_cons_cons] at h
      obtain ⟨us, vs, rfl, hx, hrest⟩ := h.of_cons
      obtain ⟨comma, ws, rfl, hcomma, hrest⟩ := hrest.of_mark
      exact .more hx hcomma (ih hrest)

theorem exists_of_forall_phrase (h : ∀ b e, .phrase b e ∈ ps → ∃ ts, R e ts) :
    ∃ ts, Printed R ps ts := by
  induction ps with
  | nil => exact ⟨[], .nil⟩
  | cons p ps ih =>
    obtain ⟨ts, hts⟩ := ih fun b e he ↦ h b e (List.mem_cons_of_mem _ he)
    match p with
    | .mark kind => exact ⟨⟨kind, "", 1⟩ :: ts, .mark rfl hts⟩
    | .word kind lexeme => exact ⟨⟨kind, lexeme, 1⟩ :: ts, .word hts⟩
    | .phrase b e =>
      obtain ⟨us, hus⟩ := h b e List.mem_cons_self
      rcases b with _ | _
      · exact ⟨us ++ ts, .bare hus hts⟩
      · exact ⟨⟨.leftParen, "", 1⟩ :: (us ++ ⟨.rightParen, "", 1⟩ :: ts), .enclosed rfl hus rfl hts⟩

end Printed

/-! ## Written expressions -/

theorem mem_of_mem_commas {p : Slot} {ps : List Slot} (h : p ∈ commas ps) :
    p = .mark .comma ∨ p ∈ ps := by
  rw [commas] at h
  fun_induction List.intersperse with
  | case1 => exact Or.inr h
  | case2 => exact Or.inr h
  | case3 x y zs ih =>
    rw [List.mem_cons, List.mem_cons] at h
    rcases h with rfl | rfl | h
    · exact Or.inr List.mem_cons_self
    · exact Or.inl rfl
    · exact (ih h).imp_right (List.mem_cons_of_mem _)

theorem mem_parts_of_phrase_mem {d e : Expr} {b : Bool} (h : .phrase b d ∈ e.layout) :
    d ∈ e.parts := by
  match e with
  | .number _ | .string _ | .boolean true | .boolean false | .name _ => simp [Expr.layout] at h
  | .unary .. =>
    simp only [Expr.layout, List.mem_cons, Slot.phrase.injEq, reduceCtorEq, List.not_mem_nil,
      or_false, false_or] at h
    exact List.mem_singleton.mpr h.2
  | .binary .. =>
    simp only [Expr.layout, List.mem_cons, Slot.phrase.injEq, reduceCtorEq, List.not_mem_nil,
      or_false, false_or] at h
    simpa [Expr.parts] using h.imp And.right And.right
  | .call _ arguments =>
    simp only [Expr.layout, between, List.mem_cons, List.mem_append, reduceCtorEq, List.not_mem_nil,
      or_false, false_or] at h
    obtain ⟨a, ha, heq⟩ := List.mem_map.mp ((mem_of_mem_commas h).resolve_left (by simp))
    cases heq
    exact ha

theorem exists_prints (e : Expr) : ∃ ts, Prints e ts := by
  induction e using Expr.induction_parts with
  | h e ih =>
    obtain ⟨ts, hts⟩ := Printed.exists_of_forall_phrase fun b d hd ↦
      ih d (mem_parts_of_phrase_mem hd)
    exact ⟨ts, .layout hts⟩

/-- The tightest level at which the expression is a phrase without parentheses around it. -/
def levelOf : Expr → Level
  | .binary op _ _ => .ofOperator op
  | .unary .. => .unary
  | _ => .primary

/-- The tightest level at which the expression is a phrase, in parentheses or without them. -/
def levelWithin (enclosed : Bool) (e : Expr) : Level := if enclosed then .primary else levelOf e

theorem Level.rank_le_primary (level : Level) : level.rank ≤ Level.primary.rank := by
  cases level <;> decide

theorem Level.logical_rank_le (level : Level) : Level.logical.rank ≤ level.rank := by
  cases level <;> decide

theorem Level.rank_tighter_ofOperator_le (op : BinaryOp) :
    (Level.ofOperator op).tighter.rank ≤ Level.unary.rank := by
  cases op <;> decide

/-- An operand without a binary operator is tight enough for every place, and so is one in
parentheses. It remains to look at the binary operands that need none. -/
theorem rank_le_levelWithin {level : Level} {enclosed : Bool} {e : Expr}
    (hlevel : level.rank ≤ Level.unary.rank)
    (hbinary : ∀ inner left right, e = .binary inner left right → enclosed = false →
      level.rank ≤ inner.precedence.rank) :
    level.rank ≤ (levelWithin enclosed e).rank := by
  rw [levelWithin]
  split
  · exact Level.rank_le_primary level
  · rename_i hbare
    match e with
    | .binary inner left right =>
      rw [levelOf, Level.rank_ofOperator]
      exact hbinary inner left right rfl (Bool.eq_false_iff.mpr hbare)
    | .unary .. => exact hlevel
    | .number _ | .string _ | .boolean _ | .name _ | .call .. =>
      exact Level.rank_le_primary level

theorem rank_unary_le_operand (e : Expr) :
    Level.unary.rank ≤ (levelWithin e.isBinary e).rank := by
  refine rank_le_levelWithin (Nat.le_refl _) ?_
  rintro inner left right rfl hbare
  cases hbare

theorem rank_ofOperator_le_left (op : BinaryOp) (e : Expr) :
    (Level.ofOperator op).rank ≤ (levelWithin (e.isLooserThan op) e).rank := by
  refine rank_le_levelWithin
    (Nat.le_trans (Level.rank_le_tighter _) (Level.rank_tighter_ofOperator_le op)) ?_
  rintro inner left right rfl hbare
  rw [Level.rank_ofOperator]
  exact Nat.not_lt.mp (of_decide_eq_false hbare)

theorem rank_tighter_le_right (op : BinaryOp) (e : Expr) :
    (Level.ofOperator op).tighter.rank ≤ (levelWithin (e.isNotTighterThan op) e).rank := by
  refine rank_le_levelWithin (Level.rank_tighter_ofOperator_le op) ?_
  rintro inner left right rfl hbare
  rw [Level.tighter_ofOperator]
  exact Level.rank_above_le_of_lt (Nat.not_le.mp (of_decide_eq_false hbare))

/-- The tokens spell the expression at its own level. -/
def SpellsSelf (e : Expr) (ts : List Token) : Prop := Spells (levelOf e) ts e

theorem spells_of_phrase {b : Bool} {e : Expr} {ts : List Token}
    (h : Printed SpellsSelf [.phrase b e] ts) : Spells (levelWithin b e) ts e := by
  cases h with
  | bare h hrest =>
    rw [hrest.eq_nil, List.append_nil]
    exact h
  | enclosed hl h hr hrest =>
    rw [hrest.eq_nil]
    exact .group hl (h.mono (Level.logical_rank_le _)) hr

theorem spellsSelf_of_printed {e : Expr} {ts : List Token} (h : Printed SpellsSelf e.layout ts) :
    SpellsSelf e ts := by
  match e with
  | .number _ =>
    obtain ⟨line, us, rfl, hrest⟩ := h.of_word
    rw [hrest.eq_nil]
    exact .literal (.number rfl)
  | .string _ =>
    obtain ⟨line, us, rfl, hrest⟩ := h.of_word
    rw [hrest.eq_nil]
    exact .literal (.string rfl)
  | .boolean true =>
    obtain ⟨t, us, rfl, hkind, hrest⟩ := h.of_mark
    rw [hrest.eq_nil]
    exact .literal (.true hkind)
  | .boolean false =>
    obtain ⟨t, us, rfl, hkind, hrest⟩ := h.of_mark
    rw [hrest.eq_nil]
    exact .literal (.false hkind)
  | .name _ =>
    obtain ⟨line, us, rfl, hrest⟩ := h.of_word
    rw [hrest.eq_nil]
    exact .name rfl
  | .unary op operand =>
    obtain ⟨t, us, rfl, hkind, hoperand⟩ := h.of_mark
    have hop : t.kind.unaryOp? = some op := by rw [hkind, UnaryOp.unaryOp?_kind]
    exact .unary (Level.mem_unaryOperators_iff.mpr hop)
      ((spells_of_phrase hoperand).mono (rank_unary_le_operand operand))
  | .binary op left right =>
    obtain ⟨ls, vs, rfl, hleft, hrest⟩ := h.of_cons
    obtain ⟨t, rs, rfl, hkind, hright⟩ := hrest.of_mark
    have hop : t.kind.binaryOp? = some op := by rw [hkind, BinaryOp.binaryOp?_kind]
    exact .fold ((spells_of_phrase hleft).mono (rank_ofOperator_le_left op left))
      (Level.mem_operators_ofOperator hop)
      ((spells_of_phrase hright).mono (rank_tighter_le_right op right))
  | .call callee arguments =>
    obtain ⟨line, us, rfl, hrest⟩ := h.of_word
    obtain ⟨l, vs, r, rfl, hl, harguments, hr⟩ := hrest.of_between
    refine .call rfl hl (harguments.items.imp fun h ↦ ?_) hr
    exact (spells_of_phrase h).mono (Level.logical_rank_le _)

/-- A written expression is a phrase of its own level: what holds of the expressions inside a layout
holds of the whole, and parentheses only make a phrase tighter. -/
theorem spellsSelf_of_prints {e : Expr} {ts : List Token} (h : Prints e ts) : SpellsSelf e ts :=
  @Prints.rec (fun e ts _ ↦ SpellsSelf e ts) (fun ps ts _ ↦ Printed SpellsSelf ps ts)
    (fun _ ih ↦ spellsSelf_of_printed ih)
    (fun hl _ hr ih ↦ (Spells.group hl (ih.mono (Level.logical_rank_le _)) hr).mono
      (Level.rank_le_primary _))
    .nil (fun hkind _ ih ↦ .mark hkind ih) (fun _ ih ↦ .word ih)
    (fun _ _ ih ihrest ↦ .bare ih ihrest)
    (fun hl _ hr _ ih ihrest ↦ .enclosed hl ih hr ihrest) e ts h

theorem spells_of_prints {e : Expr} {ts : List Token} (h : Prints e ts) : Spells .logical ts e :=
  (spellsSelf_of_prints h).mono (Level.logical_rank_le _)

/-! ## Written programs -/

theorem spellsStatements_of_printsAll {p : Program}
    (hp : ∀ s ∈ p, ∀ {us}, Printed Prints s.layout us → SpellsStatement us s) {ts : List Token}
    (h : PrintsAll p ts) : SpellsStatements ts p := by
  induction p generalizing ts with
  | nil =>
    obtain rfl := h.eq_nil
    exact .nil
  | cons s p ih =>
    obtain ⟨us, vs, rfl, hs, hrest⟩ := h.of_append
    refine .cons (hp s List.mem_cons_self hs) (ih (fun r hr ↦ ?_) hrest)
    exact hp r (List.mem_cons_of_mem s hr)

theorem LinkedThroughout.linked {ι : Type} {p : List (Statement ι)} (h : LinkedThroughout p) :
    Linked p :=
  h.rec fun hlinked _ _ ↦ hlinked

theorem LinkedThroughout.of_mem {ι : Type} {p : List (Statement ι)} (h : LinkedThroughout p)
    {s : Statement ι} (hs : s ∈ p) : LinkedThroughout s.body := by
  obtain ⟨_, hbodies⟩ := h
  exact hbodies s hs

theorem spellsName_of_word {R : Expr → List Token → Prop} {ts : List Token} {x : String}
    (h : Printed R [.word .identifier x] ts) : SpellsName ts x := by
  obtain ⟨line, _, rfl, hrest⟩ := h.of_word
  rw [hrest.eq_nil]
  exact .name rfl

theorem of_printed_semicolon {e : Expr} {ts : List Token}
    (h : Printed Prints [.phrase false e, .mark .semicolon] ts) :
    ∃ us semi, ts = us ++ [semi] ∧ Spells .logical us e ∧ semi.kind = .semicolon := by
  obtain ⟨us, _, rfl, he, hrest⟩ := h.of_bare
  obtain ⟨semi, _, rfl, hsemi, hend⟩ := hrest.of_mark
  obtain rfl := hend.eq_nil
  exact ⟨us, semi, rfl, spells_of_prints he, hsemi⟩

theorem spellsBlock_of_printed {body : Program} (hlinked : Linked body)
    (hbody : ∀ s ∈ body, ∀ {us}, Printed Prints s.layout us → SpellsStatement us s)
    {ts : List Token}
    (h : Printed Prints (between .leftBrace .rightBrace (Statement.layoutAll body)) ts) :
    SpellsBlock ts body := by
  obtain ⟨l, us, r, rfl, hl, hbs, hr⟩ := h.of_between
  exact .braces hl (spellsStatements_of_printsAll hbody hbs) hlinked hr

theorem spellsBranch_of_printed {kind : TokenKind}
    {build : Expr → List (Statement Unit) → Statement Unit} (hbuild : branch? kind = some build)
    {e : Expr} {block : List Slot} {body : Program}
    (hblock : ∀ {us}, Printed Prints block us → SpellsBlock us body) {ts : List Token}
    (h : Printed Prints
      (.mark kind :: (between .leftParen .rightParen [.phrase false e] ++ block)) ts) :
    SpellsStatement ts (build e body) := by
  obtain ⟨k, _, rfl, hk, hrest⟩ := h.of_mark
  obtain ⟨cs, bs, rfl, hcondition, hbs⟩ := hrest.of_append
  obtain ⟨l, cs, r, rfl, hl, hcs, hr⟩ := hcondition.of_between
  obtain ⟨es, _, rfl, he, hend⟩ := hcs.of_bare
  rw [hend.eq_nil, List.append_nil, List.cons_append, List.append_assoc, List.singleton_append]
  exact .branch (hk ▸ hbuild) hl (spells_of_prints he) hr (hblock hbs)

theorem spellsStatement_of_printed (s : Statement Unit) (hlinked : LinkedThroughout s.body)
    {ts : List Token} (h : Printed Prints s.layout ts) : SpellsStatement ts s := by
  induction s using Statement.induction_body generalizing ts with
  | h s ih =>
    have hblock : ∀ {bs},
        Printed Prints (between .leftBrace .rightBrace (Statement.layoutAll s.body)) bs →
        SpellsBlock bs s.body :=
      spellsBlock_of_printed hlinked.linked fun r hr ↦ ih r hr (hlinked.of_mem hr)
    cases s with
    | declare _ e =>
      obtain ⟨k, _, rfl, hk, hrest⟩ := h.of_mark
      obtain ⟨line, _, rfl, hafter⟩ := hrest.of_word
      obtain ⟨eq, _, rfl, heq, hvalue⟩ := hafter.of_mark
      obtain ⟨us, semi, rfl, he, hsemi⟩ := of_printed_semicolon hvalue
      exact .declare hk rfl heq he hsemi
    | assign _ e =>
      obtain ⟨line, _, rfl, hafter⟩ := h.of_word
      obtain ⟨eq, _, rfl, heq, hvalue⟩ := hafter.of_mark
      obtain ⟨us, semi, rfl, he, hsemi⟩ := of_printed_semicolon hvalue
      exact .simple (.assign rfl heq he) hsemi
    | ifBranch e body => exact spellsBranch_of_printed rfl hblock h
    | elifBranch e body => exact spellsBranch_of_printed rfl hblock h
    | elseBranch body =>
      obtain ⟨k, bs, rfl, hk, hbs⟩ := h.of_mark
      exact .elseBranch hk (hblock hbs)
    | returns e =>
      obtain ⟨k, _, rfl, hk, hvalue⟩ := h.of_mark
      obtain ⟨us, semi, rfl, he, hsemi⟩ := of_printed_semicolon hvalue
      exact .simple (.returns hk he) hsemi
    | function _ _ params body =>
      obtain ⟨k, _, rfl, hk, hrest⟩ := h.of_mark
      obtain ⟨line, _, rfl, hafter⟩ := hrest.of_word
      obtain ⟨_, bs, rfl, hheader, hbs⟩ := hafter.of_append
      obtain ⟨l, ps, r, rfl, hl, hps, hr⟩ := hheader.of_between
      rw [List.cons_append, List.append_assoc, List.singleton_append]
      exact .function hk rfl hl (hps.items.imp spellsName_of_word) hr (hblock hbs)
    | block body => exact .block (hblock h)
    | expression e =>
      obtain ⟨us, semi, rfl, he, hsemi⟩ := of_printed_semicolon h
      exact .simple (.expression he) hsemi

/-! ## Reading what was written -/

/-- Every expression and every program can be written. A written expression is read as the
expression itself, up to a rest that starts with neither a binary operator nor an opening
parenthesis; and a written program in which all branches are linked is parsed as the program
itself. -/
theorem reading_undoes_printing :
    (∀ e : Expr, ∃ ts, Prints e ts) ∧
      (∀ p : Program, ∃ ts, PrintsAll p ts) ∧
      (∀ (e : Expr) (ts rest : List Token) (endLine : Nat), Prints e ts →
        (∀ t, rest.head? = some t → t.kind.binaryOp? = none ∧ t.kind ≠ .leftParen) →
        (expression ⟨.standard, endLine⟩ .lowest).run (ts ++ rest) = .ok e rest) ∧
      (∀ (p : Program) (ts : List Token), LinkedThroughout p → PrintsAll p ts →
        parse ts = .ok p) := by
  refine ⟨exists_prints, fun p ↦ ?_, fun e ts rest endLine h hrest ↦ ?_, fun p ts hlinked h ↦ ?_⟩
  · exact Printed.exists_of_forall_phrase fun _ e _ ↦ exists_prints e
  · have hspells : Spells (.above .lowest) ts e := spells_of_prints h
    apply run_expression_of_spells rfl hspells
    rintro (⟨next, op, hnext, hop, -⟩ | ⟨-, next, -, hnext, -, hkind⟩)
    · rw [(hrest next hnext).1] at hop
      cases hop
    · exact (hrest next hnext).2 hkind
  · rw [parse_eq_ok_iff]
    refine ⟨spellsStatements_of_printsAll (fun s hs _ ↦ ?_) h, hlinked.linked⟩
    exact spellsStatement_of_printed s (hlinked.of_mem hs)

/-- The tree of `-(a + 1) - (b - c)`. -/
def nestedOperands : Expr :=
  .binary .sub (.unary .negate (.binary .add (.name "a") (.number "1")))
    (.binary .sub (.name "b") (.name "c"))

/-- The tree of `if (a) { return 1; } else { }`. -/
def twoBranches : Program :=
  [.ifBranch (.name "a") [.returns (.number "1")], .elseBranch []]

theorem linkedThroughout_twoBranches : LinkedThroughout twoBranches := by
  have hempty : LinkedThroughout ([] : Program) :=
    .intro (linkedAfter_false_iff.mp linkedAfter_nil) fun _ hs ↦ absurd hs List.not_mem_nil
  have hbody : LinkedThroughout ([.returns (.number "1")] : Program) := by
    refine .intro (linkedAfter_false_iff.mp (linkedAfter_cons.mpr ⟨?_, linkedAfter_nil⟩)) ?_
    · exact fun h ↦ h
    simpa [Statement.body] using hempty
  refine .intro (linkedAfter_false_iff.mp ?_) ?_
  · exact linkedAfter_cons.mpr ⟨fun h ↦ h, linkedAfter_cons.mpr ⟨fun _ ↦ rfl, linkedAfter_nil⟩⟩
  · simpa [Statement.body, twoBranches] using ⟨hbody, hempty⟩

/-- The token as it stands in a text of one line. -/
def inLine (kind : TokenKind) (lexeme : String) : Token := ⟨kind, lexeme, 1⟩

/-- The parentheses in the tree are demanded, and there is another pair around `c`. -/
theorem nested_operands_read_back :
    (expression ⟨.standard, 1⟩ .lowest).run
      ([inLine .minus "-", inLine .leftParen "(", inLine .identifier "a", inLine .plus "+",
        inLine .number "1", inLine .rightParen ")", inLine .minus "-", inLine .leftParen "(",
        inLine .identifier "b", inLine .minus "-", inLine .leftParen "(", inLine .identifier "c",
        inLine .rightParen ")", inLine .rightParen ")"] ++ [inLine .semicolon ";"])
      = .ok nestedOperands [inLine .semicolon ";"] ∧
    parse
      [inLine .keyIf "if", inLine .leftParen "(", inLine .identifier "a", inLine .rightParen ")",
        inLine .leftBrace "\x7b", inLine .keyReturn "return", inLine .number "1",
        inLine .semicolon ";", inLine .rightBrace "\x7d", inLine .keyElse "else",
        inLine .leftBrace "\x7b", inLine .rightBrace "\x7d"]
      = .ok twoBranches := by
  have hname : ∀ x, Prints (.name x) [inLine .identifier x] := fun _ ↦ .layout (.word .nil)
  have hnumber : Prints (.number "1") [inLine .number "1"] := .layout (.word .nil)
  have hsum : Prints (.binary .add (.name "a") (.number "1"))
      [inLine .identifier "a", inLine .plus "+", inLine .number "1"] :=
    .layout (.bare (hname "a") (.mark (by rfl) (.bare hnumber .nil)))
  have hnegated : Prints (.unary .negate (.binary .add (.name "a") (.number "1")))
      [inLine .minus "-", inLine .leftParen "(", inLine .identifier "a", inLine .plus "+",
        inLine .number "1", inLine .rightParen ")"] :=
    .layout (.mark (by rfl) (.enclosed (by rfl) hsum (by rfl) .nil))
  have hc : Prints (.name "c")
      [inLine .leftParen "(", inLine .identifier "c", inLine .rightParen ")"] :=
    .parens (by rfl) (hname "c") (by rfl)
  have hdifference : Prints (.binary .sub (.name "b") (.name "c"))
      [inLine .identifier "b", inLine .minus "-", inLine .leftParen "(", inLine .identifier "c",
        inLine .rightParen ")"] :=
    .layout (.bare (hname "b") (.mark (by rfl) (.bare hc .nil)))
  obtain ⟨-, -, hexpression, hprogram⟩ := reading_undoes_printing
  constructor
  · refine hexpression nestedOperands _ _ 1 (.layout (.bare hnegated (.mark (by rfl)
      (.enclosed (by rfl) hdifference (by rfl) .nil)))) ?_
    rintro t ⟨⟩
    decide
  · refine hprogram twoBranches _ linkedThroughout_twoBranches ?_
    exact .mark (by rfl) (.mark (by rfl) (.bare (hname "a") (.mark (by rfl) (.mark (by rfl)
      (.mark (by rfl) (.bare hnumber (.mark (by rfl) (.mark (by rfl) (.mark (by rfl)
        (.mark (by rfl) (.mark (by rfl) .nil)))))))))))

end Parse

end Scriptlet
