import Scriptlet.Proofs.Parse.Statements
import Scriptlet.Proofs.Tree.Parts

/-!
# The numbers of a program

A parser neither makes up numbers nor changes or loses them: the numbers in a tree are the texts of
the number tokens that it was read from, in the same order. They are also the same after the tags of
the tree have been replaced by numbers.
-/

namespace Scriptlet

def numberTexts (ts : List Token) : List String :=
  ts.filterMap fun t ↦ if t.kind = .number then some t.lexeme else none

section Tokens

variable {t : Token} {ts us : List Token}

@[simp]
theorem numberTexts_append : numberTexts (ts ++ us) = numberTexts ts ++ numberTexts us :=
  List.filterMap_append

theorem numberTexts_cons (h : t.kind = .number) :
    numberTexts (t :: ts) = t.lexeme :: numberTexts ts :=
  List.filterMap_cons_some (if_pos h)

theorem numberTexts_cons_of_ne (h : t.kind ≠ .number) : numberTexts (t :: ts) = numberTexts ts :=
  List.filterMap_cons_none (if_neg h)

theorem mem_numberTexts {lexeme : String} :
    lexeme ∈ numberTexts ts ↔ ∃ t ∈ ts, t.kind = .number ∧ t.lexeme = lexeme := by
  simp [numberTexts]

end Tokens

namespace Parse

/-! ## Reading -/

theorem Items.numberTexts_eq {α : Type} {R : List Token → α → Prop} {f : α → List String}
    {ts : List Token} {as : List α} (h : Items R ts as)
    (hR : ∀ {us a}, R us a → numberTexts us = f a) : numberTexts ts = as.flatMap f := by
  induction h with
  | nil => rfl
  | one h => rw [hR h, List.flatMap_cons, List.flatMap_nil, List.append_nil]
  | @more ts us a b bs comma h hcomma _ ih =>
    have hne : comma.kind ≠ .number := by rw [hcomma]; decide
    rw [numberTexts_append, numberTexts_cons_of_ne hne, hR h, ih]
    rfl

theorem Spells.numberTexts_eq {level : Level} {ts : List Token} {e : Expr}
    (h : Spells level ts e) : numberTexts ts = e.numerals := by
  induction h using Spells.induction with
  | literal h =>
    cases h with
    | number h => exact numberTexts_cons h
    | string h | true h | false h => exact numberTexts_cons_of_ne (by rw [h]; decide)
  | name h => exact numberTexts_cons_of_ne (by rw [h]; decide)
  | @call f l r ts es hf hl _ hr ih =>
    have hitems : numberTexts ts = es.flatMap Expr.numerals :=
      ih.numberTexts_eq fun ⟨_, hus⟩ ↦ hus
    have htexts : numberTexts (f :: l :: (ts ++ [r])) = numberTexts ts := by
      simp [numberTexts, hf, hl, hr]
    rw [htexts, hitems, Expr.numerals, Expr.collect_eq]
    rfl
  | @group l r ts e hl _ hr ih =>
    have htexts : numberTexts (l :: (ts ++ [r])) = numberTexts ts := by
      simp [numberTexts, hl, hr]
    rw [htexts, ih]
  | @unary t op ts e ht _ ih =>
    have hne : t.kind ≠ .number := by
      intro hkind
      rw [Level.mem_unaryOperators_iff, hkind] at ht
      cases ht
    rw [numberTexts_cons_of_ne hne, ih]
    rfl
  | lift _ ih => exact ih
  | @fold level t op ls rs l r _ ht _ ihl ihr =>
    have hne : t.kind ≠ .number := by
      intro hkind
      have hop := (Level.binaryOp?_of_mem_operators ht).1
      rw [hkind] at hop
      cases hop
    rw [numberTexts_append, numberTexts_cons_of_ne hne, ihl, ihr]
    rfl

theorem SpellsSimple.numberTexts_eq {ts : List Token} {s : Statement Unit}
    (h : SpellsSimple ts s) : numberTexts ts = s.numerals := by
  cases h with
  | @returns k ts e hk h =>
    have htexts : numberTexts (k :: ts) = numberTexts ts := by simp [numberTexts, hk]
    rw [htexts, h.numberTexts_eq]
    rfl
  | @assign x eq ts e hx heq h =>
    have htexts : numberTexts (x :: eq :: ts) = numberTexts ts := by simp [numberTexts, hx, heq]
    rw [htexts, h.numberTexts_eq]
    rfl
  | expression h => exact h.numberTexts_eq

theorem numerals_of_branch? {kind : TokenKind}
    {build : Expr → List (Statement Unit) → Statement Unit} (h : branch? kind = some build)
    (e : Expr) (body : List (Statement Unit)) :
    (build e body).numerals = e.numerals ++ body.flatMap Statement.numerals := by
  rw [Statement.numerals_eq]
  cases kind <;> cases h <;> simp [Statement.expressions, Statement.body]

theorem SpellsName.numberTexts_eq {ts : List Token} {name : String} (h : SpellsName ts name) :
    numberTexts ts = [] := by
  cases h with
  | name h => simp [numberTexts, h]

mutual

theorem SpellsStatement.numberTexts_eq {ts : List Token} {s : Statement Unit} :
    SpellsStatement ts s → numberTexts ts = s.numerals
  | @SpellsStatement.simple semi ts s h hsemi => by
    have htexts : numberTexts (ts ++ [semi]) = numberTexts ts := by simp [numberTexts, hsemi]
    rw [htexts, h.numberTexts_eq]
  | @SpellsStatement.declare k x eq semi ts e hk hx heq h hsemi => by
    have htexts : numberTexts (k :: x :: eq :: (ts ++ [semi])) = numberTexts ts := by
      simp [numberTexts, hk, hx, heq, hsemi]
    rw [htexts, h.numberTexts_eq]
    rfl
  | @SpellsStatement.branch k l r build cs bs e body hk hl h hr hbody => by
    have hne : k.kind ≠ .number := by
      intro hkind
      rw [hkind] at hk
      cases hk
    have htexts : numberTexts (k :: l :: (cs ++ r :: bs)) = numberTexts cs ++ numberTexts bs := by
      rw [numberTexts_cons_of_ne hne]
      simp [numberTexts, hl, hr]
    rw [htexts, h.numberTexts_eq, hbody.numberTexts_eq, numerals_of_branch? hk]
  | @SpellsStatement.elseBranch k bs body hk hbody => by
    have htexts : numberTexts (k :: bs) = numberTexts bs := by simp [numberTexts, hk]
    rw [htexts, hbody.numberTexts_eq, Statement.numerals_eq]
    rfl
  | @SpellsStatement.function k x l r ps bs params body hk hx hl hparams hr hbody => by
    have hnames : numberTexts ps = params.flatMap fun _ ↦ [] :=
      hparams.numberTexts_eq SpellsName.numberTexts_eq
    have htexts : numberTexts (k :: x :: l :: (ps ++ r :: bs))
        = numberTexts ps ++ numberTexts bs := by
      simp [numberTexts, hk, hx, hl, hr]
    rw [htexts, hnames, hbody.numberTexts_eq, Statement.numerals_eq]
    simp [Statement.expressions, Statement.body]
  | @SpellsStatement.block bs body hbody => by
    rw [hbody.numberTexts_eq, Statement.numerals_eq]
    rfl

theorem SpellsBlock.numberTexts_eq {ts : List Token} {body : List (Statement Unit)} :
    SpellsBlock ts body → numberTexts ts = body.flatMap Statement.numerals
  | @SpellsBlock.braces l r ts body hl h _ hr => by
    have htexts : numberTexts (l :: (ts ++ [r])) = numberTexts ts := by
      simp [numberTexts, hl, hr]
    rw [htexts, h.numberTexts_eq]

theorem SpellsStatements.numberTexts_eq {ts : List Token} {p : List (Statement Unit)} :
    SpellsStatements ts p → numberTexts ts = p.flatMap Statement.numerals
  | .nil => rfl
  | .last h => by rw [h.numberTexts_eq, List.flatMap_cons, List.flatMap_nil, List.append_nil]
  | .cons h hrest => by
    rw [numberTexts_append, h.numberTexts_eq, hrest.numberTexts_eq, List.flatMap_cons]

end

theorem numerals_of_parse {ts : List Token} {p : Program} (h : parse ts = .ok p) :
    p.flatMap Statement.numerals = numberTexts ts :=
  (parse_eq_ok_iff.mp h).1.numberTexts_eq.symm

end Parse

/-! ## Tags -/

namespace Statement

variable {ι : Type}

theorem numerals_numberAllFrom_of_mem {p : List (Statement ι)}
    (h : ∀ s ∈ p, ∀ next, (numberFrom next s).1.numerals = s.numerals) (next : Nat) :
    (numberAllFrom next p).1.flatMap numerals = p.flatMap numerals := by
  induction p generalizing next with
  | nil => rfl
  | cons s p ih =>
    obtain ⟨hs, hp⟩ := List.forall_mem_cons.mp h
    rw [numberAllFrom, List.flatMap_cons, List.flatMap_cons, hs, ih hp]

theorem numerals_numberFrom (s : Statement ι) (next : Nat) :
    (numberFrom next s).1.numerals = s.numerals := by
  induction s using induction_body generalizing next with
  | h s ih =>
    have hbody := numerals_numberAllFrom_of_mem ih
    rw [numerals_eq, numerals_eq]
    cases s with
    | declare | assign | returns | expression => rfl
    | ifBranch | elifBranch | elseBranch | block => exact congrArg _ (hbody next)
    | function => exact congrArg _ (hbody (next + 1))

/-- Tags are no numbers of the program. -/
theorem numerals_numberAllFrom (next : Nat) (p : List (Statement ι)) :
    (numberAllFrom next p).1.flatMap numerals = p.flatMap numerals :=
  numerals_numberAllFrom_of_mem (fun s _ ↦ s.numerals_numberFrom) next

end Statement

end Scriptlet
