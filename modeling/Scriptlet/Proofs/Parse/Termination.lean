import Scriptlet.Proofs.Parse.Lines
import Scriptlet.Proofs.Parse.Statements

/-!
# Parsing comes to an end

The readers are total because they carry a bound on the tokens left, and to a reader that has used
up its bound the tokens are over. This module shows that no outcome depends on this. In `Nested` the
same readers call one another whatever is left of the tokens, and a round of a loop is a call as
well. The limit is on how deep calls may nest. A reader that goes beyond it has no outcome, so one
that runs forever has none under any limit.

The result is that calls nest about three times as deep as there are tokens, at most. Under any
higher limit each reader comes to an end, with the outcome that the reader with the bound computes.
No grammar can spoil this. Rules are looked up in tables that may hold anything, and a rule may
stand under a kind of token that it was not written for. It then refuses the token, which ends the
reading at once.

## The measure

What sinks is the number of tokens left. A rule for terms that does not fail has read a token before
it asks for an inner expression, a tail has read its operator, and a round of a loop has read at
least one token when the next round begins. `Settles d u p ts` carries this along: on `ts` the
reader `u` has the outcome of `p`, and if that is a success it has read at least `d` tokens.
-/

namespace Scriptlet.Parse

/-! ## Readers that call one another -/

namespace Nested

/-- Readers that may have no outcome. -/
abbrev Reader := ExceptT ParseError (StateT (List Token) Option)

/-- The outcome on a token list, if there is one. -/
def Reader.outcome? {α : Type} (u : Reader α) (ts : List Token) : Option (Outcome α) :=
  (u.run.run ts).map fun
    | (.ok a, rest) => .ok a rest
    | (.error e, rest) => .error e rest

/-- A step that makes no calls. -/
def once {α : Type} (p : ParseM α) : Reader α := fun ts ↦
  match p.run ts with
  | .ok a rest => some (.ok a, rest)
  | .error e rest => some (.error e, rest)

def tooDeep {α : Type} : Reader α := fun _ ↦ none

def moreItems {α : Type} (cx : Context) (item : Reader α) (closing : TokenKind) :
    (depth : Nat) → Reader (List α)
  | 0 => tooDeep
  | depth + 1 => do
    let next ← once peekKind
    if next = some .comma then
      let _ ← once advance
      let x ← item
      let xs ← moreItems cx item closing depth
      return x :: xs
    else if next = some closing then
      let _ ← once advance
      return []
    else once (unexpected cx (.commaOr closing))

def items {α : Type} (cx : Context) (item : Reader α) (closing : TokenKind) (depth : Nat) :
    Reader (List α) := do
  if (← once peekKind) = some closing then
    let _ ← once advance
    return []
  else
    let x ← item
    let xs ← moreItems cx item closing depth
    return x :: xs

mutual

def expression (cx : Context) : (depth : Nat) → (min : Precedence) → Reader Expr
  | 0, _ => tooDeep
  | depth + 1, min => do
    match ← once peek with
    | none => once (failAtEnd cx .expression)
    | some t =>
      match cx.grammar.term? t.kind with
      | none => once (throw (.noTermRule t))
      | some rule =>
        let left ← term cx depth rule
        tails cx depth min left

def term (cx : Context) : (depth : Nat) → (rule : TermRule) → Reader Expr
  | 0, _ => tooDeep
  | _ + 1, .number => do return .number (← once (expect cx .number)).lexeme
  | _ + 1, .string => do return .string (← once (expect cx .string)).lexeme
  | _ + 1, .boolean => do
    match ← once peekKind with
    | some .keyTrue => let _ ← once advance; return .boolean true
    | some .keyFalse => let _ ← once advance; return .boolean false
    | _ => once (unexpected cx .boolean)
  | depth + 1, .nameOrCall => do
    let name ← once (expectName cx)
    if (← once peekKind) = some .leftParen then
      let _ ← once advance
      return .call name (← items cx (expression cx depth .lowest) .rightParen depth)
    else return .name name
  | depth + 1, .group => do
    let _ ← once (expect cx .leftParen)
    let e ← expression cx depth .lowest
    let _ ← once (expect cx .rightParen)
    return e
  | depth + 1, .unary => do
    match (← once peekKind).bind TokenKind.unaryOp? with
    | some op =>
      let _ ← once advance
      return .unary op (← expression cx depth .unary)
    | none => once (unexpected cx .unaryOperator)

def binaryTail (cx : Context) : (depth : Nat) → (left : Expr) → (precedence : Precedence) →
    Reader Expr
  | 0, _, _ => tooDeep
  | depth + 1, left, precedence => do
    match (← once peekKind).bind TokenKind.binaryOp? with
    | some op =>
      let _ ← once advance
      return .binary op left (← expression cx depth precedence)
    | none => once (unexpected cx .binaryOperator)

def tail (cx : Context) : (depth : Nat) → (left : Expr) → (precedence : Precedence) →
    (rule : TailRule) → Reader Expr
  | 0, _, _, _ => tooDeep
  | depth + 1, left, precedence, .binary => binaryTail cx depth left precedence
  | depth + 1, left, _, .looseBinary => binaryTail cx depth left .lowest
  | _ + 1, left, _, .mark => do
    let _ ← once advance
    return left

def tails (cx : Context) : (depth : Nat) → (min : Precedence) → (left : Expr) → Reader Expr
  | 0, _, _ => tooDeep
  | depth + 1, min, left => do
    match ← once peek with
    | none => return left
    | some t =>
      if t.kind.endsExpression || t.kind.precedence ≤ min then return left
      else match cx.grammar.tail? t.kind with
        | none => once (throw (.noTailRule t))
        | some rule =>
          let longer ← tail cx depth left t.kind.precedence rule
          tails cx depth min longer

end

def parenthesized (cx : Context) (depth : Nat) : Reader Expr := do
  let _ ← once (expect cx .leftParen)
  let e ← expression cx depth .lowest
  let _ ← once (expect cx .rightParen)
  return e

mutual

def statement (cx : Context) : (depth : Nat) → Reader (Statement Unit)
  | 0 => tooDeep
  | depth + 1 => do
    match ← once peek with
    | none => once (failAtEnd cx .statement)
    | some t =>
      match t.kind with
      | .keyLet =>
        let _ ← once (expect cx .keyLet)
        let name ← once (expectName cx)
        let _ ← once (expect cx .assign)
        let value ← expression cx depth .lowest
        let _ ← once (expect cx .semicolon)
        return .declare name value
      | .keyIf =>
        let _ ← once advance
        let test ← parenthesized cx depth
        return .ifBranch test (← block cx depth)
      | .keyElif =>
        let _ ← once advance
        let test ← parenthesized cx depth
        return .elifBranch test (← block cx depth)
      | .keyElse =>
        let _ ← once advance
        return .elseBranch (← block cx depth)
      | .keyFunction =>
        let _ ← once (expect cx .keyFunction)
        let name ← once (expectName cx)
        let _ ← once (expect cx .leftParen)
        let params ← items cx (once (expectName cx)) .rightParen depth
        let body ← block cx depth
        return .function () name params body
      | .keyReturn =>
        let _ ← once advance
        let value ← expression cx depth .lowest
        once (endStatement cx)
        return .returns value
      | .leftBrace => return .block (← block cx depth)
      | kind =>
        if kind = .identifier && (← once (peekKindAt 1)) = some .assign then
          let name ← once (expectName cx)
          let _ ← once (expect cx .assign)
          let value ← expression cx depth .lowest
          once (endStatement cx)
          return .assign name value
        else if (cx.grammar.term? kind).isSome then
          let value ← expression cx depth .lowest
          once (endStatement cx)
          return .expression value
        else once (throw (.unknownStatement t))

def block (cx : Context) : (depth : Nat) → Reader (List (Statement Unit))
  | 0 => tooDeep
  | depth + 1 => do
    let _ ← once (expect cx .leftBrace)
    statements cx depth (some .rightBrace) false

def statements (cx : Context) : (depth : Nat) → (closing : Option TokenKind) →
    (afterBranch : Bool) → Reader (List (Statement Unit))
  | 0, _, _ => tooDeep
  | depth + 1, closing, afterBranch => do
    match ← once peek with
    | none =>
      match closing with
      | some kind => once (failAtEnd cx (.token kind))
      | none => return []
    | some t =>
      if some t.kind = closing then
        let _ ← once advance
        return []
      else if (t.kind = .keyElif || t.kind = .keyElse) && !afterBranch then
        once (throw (.danglingBranch t))
      else
        let s ← statement cx depth
        let rest ← statements cx depth closing s.opensBranch
        return s :: rest

end

def program (cx : Context) (depth : Nat) : Reader Program := statements cx depth none false

end Nested

open Nested (Reader once)

/-! ## Outcomes -/

section Outcomes

variable {α β : Type} {f : α → Reader β} {p : ParseM α} {ts mid : List Token} {a : α}

theorem outcome?_once (p : ParseM α) (ts : List Token) :
    (once p).outcome? ts = some (p.run ts) := by
  have hrun : (once p).run.run ts = match p.run ts with
      | .ok a rest => some (.ok a, rest)
      | .error e rest => some (.error e, rest) := rfl
  rw [Reader.outcome?, hrun]
  rcases p.run ts with ⟨a, rest⟩ | ⟨e, rest⟩ <;> rfl

theorem outcome?_bind (u : Reader α) (f : α → Reader β) (ts : List Token) :
    (u >>= f : Reader β).outcome? ts = match u.outcome? ts with
      | some (.ok a mid) => (f a).outcome? mid
      | some (.error e mid) => some (.error e mid)
      | none => none := by
  have hrun : (u >>= f : Reader β).run.run ts = match u.run.run ts with
      | some (.ok a, mid) => (f a).run.run mid
      | some (.error e, mid) => some (.error e, mid)
      | none => none := by
    rw [ExceptT.run_bind, StateT.run_bind]
    rcases u.run.run ts with _ | ⟨a | e, mid⟩ <;> rfl
  rw [Reader.outcome?, hrun, Reader.outcome?]
  rcases u.run.run ts with _ | ⟨a | e, mid⟩ <;> rfl

theorem outcome?_once_bind (hp : p.run ts = .ok a mid) :
    (once p >>= f : Reader β).outcome? ts = (f a).outcome? mid := by
  rw [outcome?_bind, outcome?_once, hp]

end Outcomes

/-- On these tokens the unbounded reader comes to the outcome of the other. The cursor then stands
at a tail of the tokens, and a success has read at least `d` of them. -/
structure Settles {α : Type} (d : Nat) (u : Reader α) (p : ParseM α) (ts : List Token) :
    Prop where
  outcome : u.outcome? ts = some (p.run ts)
  agree : Agree d p p ts

namespace Settles

variable {α β : Type} {d : Nat} {u : Reader α} {p : ParseM α} {ts : List Token}

theorem loosen (h : Settles d u p ts) : Settles 0 u p ts := ⟨h.outcome, h.agree.loosen⟩

theorem of_run_eq {q : ParseM α} (h : Settles d u p ts) (hq : q.run ts = p.run ts) :
    Settles d u q ts := ⟨by rw [hq]; exact h.outcome, h.agree.of_run_eq hq hq⟩

theorem once (h : Agree d p p ts) : Settles d (once p) p ts := ⟨outcome?_once p ts, h⟩

theorem pure (a : α) (ts : List Token) : Settles 0 (pure a) (pure a) ts := ⟨rfl, agree_pure a ts⟩

theorem bind {f : α → Reader β} {g : α → ParseM β} (h : Settles d u p ts)
    (hfg : ∀ a rest, p.run ts = .ok a rest → rest.length + d ≤ ts.length →
      Settles 0 (f a) (g a) rest) : Settles d (u >>= f) (p >>= g) ts where
  outcome := by
    rw [outcome?_bind, h.outcome, EStateM.run_bind]
    rcases hp : p.run ts with ⟨a, rest⟩ | ⟨e, rest⟩
    · exact (hfg a rest hp (h.agree.reads a rest hp).2).outcome
    · rfl
  agree := h.agree.bind fun a rest hp hrest ↦ (hfg a rest hp hrest).agree

theorem map (h : Settles d u p ts) (g : α → β) :
    Settles d (do return g (← u)) (do return g (← p)) ts :=
  h.bind fun _ _ _ _ ↦ .pure _ _

variable {γ : Type} {q : ParseM γ} {c : γ} {k : γ → Reader α} {g : γ → ParseM α}

/-- A step that does not move only picks how the unbounded reader goes on. -/
theorem still (hq : q.run ts = .ok c ts) (h : Settles d (k c) p ts) :
    Settles d (Nested.once q >>= k) p ts := by
  refine ⟨?_, h.agree⟩
  rw [outcome?_once_bind hq, h.outcome]

theorem bind_still (hq : q.run ts = .ok c ts) (h : Settles d (k c) (g c) ts) :
    Settles d (Nested.once q >>= k) (q >>= g) ts :=
  (h.still hq).of_run_eq (run_bind_of_ok hq)

theorem cons {t : Token} {v : Reader α} {r : ParseM α} (hu : u.outcome? (t :: ts) = v.outcome? ts)
    (hp : p.run (t :: ts) = r.run ts) (h : Settles 0 v r ts) : Settles 1 u p (t :: ts) where
  outcome := by rw [hu, hp, h.outcome]
  agree := by
    refine ⟨rfl, fun a rest hrun ↦ ?_, fun e rest hrun ↦ ?_⟩
    · rw [hp] at hrun
      obtain ⟨hrest, hlength⟩ := h.agree.reads a rest hrun
      exact ⟨hrest.trans (List.suffix_cons t ts), Nat.succ_le_succ hlength⟩
    · rw [hp] at hrun
      exact (h.agree.stays e rest hrun).trans (List.suffix_cons t ts)

theorem advance_bind {t : Token} {k : Option Token → Reader α} {g : Option Token → ParseM α}
    (h : Settles 0 (k (some t)) (g (some t)) ts) :
    Settles 1 (Nested.once advance >>= k) (advance >>= g) (t :: ts) :=
  .cons (outcome?_once_bind (run_advance _)) (run_bind_of_ok (run_advance _)) h

end Settles

/-! ## Expressions -/

section Lists

variable {α : Type} {cx : Context} {u : Reader α} {p : ParseM α} {ts : List Token}

theorem settles_moreItems (closing : TokenKind) {m b : Nat}
    (hitem : ∀ r : List Token, r.length < ts.length → Settles 1 u p r) (hm : ts.length ≤ m)
    (hb : ts.length ≤ b) :
    Settles 1 (Nested.moreItems cx u closing (m + 1)) (moreItems cx p closing b) ts := by
  induction b generalizing ts m with
  | zero =>
    obtain rfl := List.eq_nil_of_length_eq_zero (Nat.le_zero.mp hb)
    rw [Nested.moreItems]
    exact (Settles.once (agree_unexpected cx _ [])).still (run_peekKind [])
  | succ b ih =>
    rw [Nested.moreItems]
    refine .bind_still (run_peekKind ts) ?_
    rcases ts with _ | ⟨t, ts⟩
    · exact .once (agree_unexpected cx _ [])
    rw [List.length_cons] at hitem hm hb
    split
    · refine .advance_bind ((hitem ts (Nat.lt_succ_self _)).bind fun x rest _ hrest ↦ ?_).loosen
      obtain ⟨k, rfl⟩ : ∃ k, m = k + 1 := ⟨m - 1, by omega⟩
      have hmore : Settles 1 (Nested.moreItems cx u closing (k + 1)) (moreItems cx p closing b)
          rest := ih (fun r hr ↦ hitem r (by omega)) (by omega) (by omega)
      exact (hmore.map _).loosen
    · split
      · exact .advance_bind (.pure _ _)
      · exact .once (agree_unexpected cx _ _)

theorem settles_items (closing : TokenKind) {m b : Nat}
    (hitem : ∀ r : List Token, r.length ≤ ts.length → Settles 1 u p r) (hm : ts.length < m)
    (hb : ts.length ≤ b + 1) :
    Settles 1 (Nested.items cx u closing m) (items cx p closing b) ts := by
  refine .bind_still (run_peekKind ts) ?_
  split
  · rename_i hnext
    rcases ts with _ | ⟨t, ts⟩
    · cases hnext
    · exact .advance_bind (.pure _ _)
  · refine (hitem ts (Nat.le_refl _)).bind fun x rest _ hrest ↦ ?_
    obtain ⟨k, rfl⟩ : ∃ k, m = k + 1 := ⟨m - 1, by omega⟩
    have hmore : Settles 1 (Nested.moreItems cx u closing (k + 1)) (moreItems cx p closing b)
        rest := settles_moreItems closing (fun r hr ↦ hitem r (by omega)) (by omega) (by omega)
    exact (hmore.map _).loosen

end Lists

section Expressions

variable {cx : Context} {n : Nat}
  (ho : ∀ r : List Token, r.length < n → ∀ m, 2 * r.length + 2 ≤ m → ∀ min,
    Settles 1 (Nested.expression cx m min) (expression cx min) r)
  {ts : List Token} {m : Nat}

include ho

/-- Whatever the rule and whatever stands there, an inner expression is read behind a token. -/
theorem settles_term (rule : TermRule) {b : Nat} (hn : ts.length ≤ n) (hm : 2 * ts.length ≤ m)
    (hb : ts.length ≤ b + 1) :
    Settles 1 (Nested.term cx (m + 1) rule) (term cx (expression cx) b rule) ts := by
  cases rule with
  | number =>
    rw [Nested.term]
    exact (Settles.once (agree_expect cx .number ts)).map _
  | string =>
    rw [Nested.term]
    exact (Settles.once (agree_expect cx .string ts)).map _
  | boolean =>
    rw [Nested.term]
    refine .bind_still (run_peekKind ts) ?_
    rcases ts with _ | ⟨t, ts⟩
    · exact .once (agree_unexpected cx _ [])
    · rw [List.head?_cons, Option.map_some]
      generalize t.kind = kind
      cases kind with
      | keyTrue | keyFalse => exact .advance_bind (.pure _ _)
      | _ => exact .once (agree_unexpected cx _ _)
  | nameOrCall =>
    rw [Nested.term]
    refine (Settles.once (agree_expectName cx ts)).bind fun name rest _ hrest ↦ ?_
    refine .bind_still (run_peekKind rest) ?_
    split
    · rename_i hnext
      rcases rest with _ | ⟨t, rest⟩
      · cases hnext
      · rw [List.length_cons] at hrest
        have hargs : Settles 1 (Nested.items cx (Nested.expression cx m .lowest) .rightParen m)
            (items cx (expression cx .lowest) .rightParen b) rest :=
          settles_items .rightParen (fun r hr ↦ ho r (by omega) m (by omega) .lowest) (by omega)
            (by omega)
        exact (Settles.advance_bind (hargs.map _).loosen).loosen
    · exact .pure _ _
  | group =>
    rw [Nested.term]
    refine (Settles.once (agree_expect cx .leftParen ts)).bind fun _ rest _ hrest ↦ ?_
    refine ((ho rest (by omega) m (by omega) .lowest).bind fun e mid _ _ ↦ ?_).loosen
    exact ((Settles.once (agree_expect cx .rightParen mid)).map _).loosen
  | unary =>
    rw [Nested.term]
    refine .bind_still (run_peekKind ts) ?_
    rcases ts with _ | ⟨t, ts⟩
    · exact .once (agree_unexpected cx _ [])
    · rw [List.head?_cons, Option.map_some, Option.bind_some]
      rcases t.kind.unaryOp? with _ | op
      · exact .once (agree_unexpected cx _ _)
      · rw [List.length_cons] at hn hm
        exact .advance_bind ((ho ts hn m (by omega) .unary).map _).loosen

theorem settles_binaryTail (left : Expr) (min : Precedence) (hn : ts.length ≤ n)
    (hm : 2 * ts.length ≤ m) :
    Settles 1 (Nested.binaryTail cx (m + 1) left min) (binaryTail cx (expression cx) left min)
      ts := by
  rw [Nested.binaryTail]
  refine .bind_still (run_peekKind ts) ?_
  rcases ts with _ | ⟨t, ts⟩
  · exact .once (agree_unexpected cx _ [])
  · rw [List.head?_cons, Option.map_some, Option.bind_some]
    rcases t.kind.binaryOp? with _ | op
    · exact .once (agree_unexpected cx _ _)
    · rw [List.length_cons] at hn hm
      exact .advance_bind ((ho ts hn m (by omega) min).map _).loosen

theorem settles_tail (left : Expr) (min : Precedence) (rule : TailRule) {t : Token}
    (hn : (t :: ts).length ≤ n) (hm : 2 * (t :: ts).length ≤ m) :
    Settles 1 (Nested.tail cx (m + 2) left min rule) (tail cx (expression cx) left min rule)
      (t :: ts) := by
  cases rule with
  | binary =>
    rw [Nested.tail]
    exact settles_binaryTail ho left min hn hm
  | looseBinary =>
    rw [Nested.tail]
    exact settles_binaryTail ho left .lowest hn hm
  | mark =>
    rw [Nested.tail]
    exact .advance_bind (.pure _ _)

/-- Each round of the loop of tails begins with fewer tokens than the one before. -/
theorem settles_tails (min : Precedence) {b : Nat} {left : Expr} (hn : ts.length ≤ n)
    (hm : 2 * ts.length ≤ m) (hb : ts.length ≤ b) :
    Settles 0 (Nested.tails cx (m + 3) min left) (tails cx (expression cx) min b left) ts := by
  induction b generalizing left ts m with
  | zero =>
    obtain rfl := List.eq_nil_of_length_eq_zero (Nat.le_zero.mp hb)
    rw [Nested.tails]
    exact (Settles.pure left []).still (run_peek [])
  | succ b ih =>
    rw [Nested.tails]
    refine .bind_still (run_peek ts) ?_
    rcases ts with _ | ⟨t, ts⟩
    · exact .pure left []
    rw [List.head?_cons]
    dsimp only
    split
    · exact .pure left _
    · rcases cx.grammar.tail? t.kind with _ | rule
      · exact .once (agree_throw _ _)
      · refine ((settles_tail ho left _ _ hn hm).bind fun longer rest _ hrest ↦ ?_).loosen
        rw [List.length_cons] at hn hm hb hrest
        obtain ⟨k, rfl⟩ : ∃ k, m = k + 1 := ⟨m - 1, by omega⟩
        exact ih (by omega) (by omega) (by omega)

omit ho

/-- By induction on the number of tokens: an expression inside another is read behind a token. -/
theorem settles_expression_below :
    ∀ r : List Token, r.length < n → ∀ m, 2 * r.length + 2 ≤ m → ∀ min,
      Settles 1 (Nested.expression cx m min) (expression cx min) r := by
  induction n with
  | zero => exact fun r hr ↦ absurd hr (Nat.not_lt_zero _)
  | succ n ho =>
    intro r hn m hm min
    obtain ⟨m, rfl⟩ : ∃ k, m = k + 2 := ⟨m - 2, by omega⟩
    rw [Nested.expression]
    refine .still (run_peek r) ?_
    rcases r with _ | ⟨t, ts⟩
    · exact (Settles.once (agree_failAtEnd cx _ [])).of_run_eq (run_expression_nil min)
    · rw [List.head?_cons]
      dsimp only
      rcases hrule : cx.grammar.term? t.kind with _ | rule
      · exact (Settles.once (agree_throw _ _)).of_run_eq (run_expression_refused min hrule)
      · refine Settles.of_run_eq ?_ (run_expression_cons min hrule)
        rw [List.length_cons] at hn hm
        refine (settles_term ho rule (by rw [List.length_cons]; omega)
          (by rw [List.length_cons]; omega) (Nat.le_refl _)).bind fun left rest _ hrest ↦ ?_
        rw [List.length_cons] at hrest
        obtain ⟨k, rfl⟩ : ∃ k, m = k + 2 := ⟨m - 2, by omega⟩
        exact (settles_tails ho min (by omega) (by omega) (Nat.le_refl _)).of_run_eq rfl

theorem settles_expression (min : Precedence) (hm : 2 * ts.length + 2 ≤ m) :
    Settles 1 (Nested.expression cx m min) (expression cx min) ts :=
  settles_expression_below ts (Nat.lt_succ_self _) m hm min

end Expressions

/-! ## Statements -/

section Statements

variable {cx : Context} {m : Nat} {ts : List Token}

theorem settles_parenthesized (hm : 2 * ts.length ≤ m) :
    Settles 1 (Nested.parenthesized cx m) (parenthesized cx) ts := by
  refine (Settles.once (agree_expect cx .leftParen ts)).bind fun _ r _ hr ↦ ?_
  refine ((settles_expression .lowest (by omega)).bind fun e r' _ _ ↦ ?_).loosen
  exact ((Settles.once (agree_expect cx .rightParen r')).map _).loosen

theorem settles_parameters (hm : ts.length < m) :
    Settles 1 (Nested.items cx (once (expectName cx)) .rightParen m) (parameters cx) ts :=
  (settles_items .rightParen (fun r _ ↦ .once (agree_expectName cx r)) hm
    (Nat.le_succ _)).of_run_eq rfl

theorem settles_simple (build : Expr → Statement Unit) (hm : 2 * ts.length + 2 ≤ m) :
    Settles 1
      (do
        let value ← Nested.expression cx m .lowest
        once (endStatement cx)
        return build value)
      (do
        let value ← expression cx .lowest
        endStatement cx
        return build value) ts :=
  (settles_expression .lowest hm).bind fun e r _ _ ↦
    (Settles.once (agree_endStatement r)).map fun _ ↦ build e

theorem settles_declare (hm : 2 * ts.length ≤ m) :
    Settles 1
      (do
        let name ← once (expectName cx)
        let _ ← once (expect cx .assign)
        let value ← Nested.expression cx m .lowest
        let _ ← once (expect cx .semicolon)
        return (Statement.declare name value : Statement Unit))
      (do
        let name ← expectName cx
        let _ ← expect cx .assign
        let value ← expression cx .lowest
        let _ ← expect cx .semicolon
        return Statement.declare name value) ts := by
  refine (Settles.once (agree_expectName cx ts)).bind fun _ r₁ _ _ ↦ ?_
  refine ((Settles.once (agree_expect cx .assign r₁)).bind fun _ r₂ _ _ ↦ ?_).loosen
  refine ((settles_expression .lowest (by omega)).bind fun _ r₃ _ _ ↦ ?_).loosen
  exact ((Settles.once (agree_expect cx .semicolon r₃)).map _).loosen

/-- An assignment, an expression, or nothing that a statement begins with. -/
theorem settles_statement_other {t : Token} (hopen : opensStatement t.kind = false)
    (hm : 2 * (t :: ts).length + 2 ≤ m) :
    Settles 1 (Nested.statement cx (m + 1)) (statement cx) (t :: ts) := by
  rw [Nested.statement]
  refine .still (run_peek _) ?_
  rw [List.head?_cons]
  dsimp only
  split
  iterate 7
    · rename_i hkind
      rw [hkind] at hopen
      cases hopen
  refine .still (run_peekKindAt_one t ts) ?_
  split
  · rename_i htest
    rw [Bool.and_eq_true, decide_eq_true_iff, decide_eq_true_iff] at htest
    obtain ⟨hname, hnext⟩ := htest
    rcases ts with _ | ⟨eq, ts⟩
    · cases hnext
    have heq : eq.kind = .assign := Option.some.inj hnext
    rw [List.length_cons, List.length_cons] at hm
    refine .cons (outcome?_once_bind (run_expectName_eq_ok.mpr ⟨t, rfl, hname, rfl⟩))
      (r := do
        let _ ← advance
        let value ← expression cx .lowest
        endStatement cx
        return .assign t.lexeme value) ?_ ?_
    · rw [run_statement_assign hname heq, run_bind_of_ok (run_advance _), List.tail_cons]
    · exact (Settles.cons (outcome?_once_bind (run_expect_eq_ok.mpr ⟨rfl, heq⟩))
        (run_bind_of_ok (run_advance _)) (settles_simple _ (by omega)).loosen).loosen
  · rename_i htest
    rw [Bool.and_eq_true, decide_eq_true_iff, decide_eq_true_iff] at htest
    split
    · rename_i hterm
      exact (settles_simple _ hm).of_run_eq ((run_statement_other hopen htest).trans (if_pos hterm))
    · rename_i hterm
      exact (Settles.once (agree_throw _ _)).of_run_eq
        ((run_statement_other hopen htest).trans (if_neg hterm))

variable {n : Nat}
  (hs : ∀ r : List Token, r.length < n → ∀ m, 3 * r.length + 3 ≤ m →
    Settles 1 (Nested.statement cx m) (statement cx) r)

include hs

theorem settles_statements (closing : Option TokenKind) (afterBranch : Bool) (hn : ts.length < n)
    (hm : 3 * ts.length + 3 ≤ m) :
    Settles 0 (Nested.statements cx (m + 1) closing afterBranch)
      (sequence cx closing afterBranch) ts := by
  induction hlength : ts.length using Nat.strongRecOn generalizing ts m afterBranch with
  | _ l ih =>
  rw [Nested.statements.eq_def]
  refine .still (run_peek ts) ?_
  rcases ts with _ | ⟨t, ts⟩
  · cases closing with
    | some kind =>
      exact (Settles.once (agree_failAtEnd cx _ [])).of_run_eq (run_sequence_nil _ _)
    | none => exact (Settles.pure [] []).of_run_eq (run_sequence_nil _ _)
  rw [List.head?_cons]
  dsimp only
  split
  · rename_i hclose
    exact (Settles.cons (outcome?_once_bind (run_advance _)) (run_sequence_close _ hclose)
      (.pure [] ts)).loosen
  rename_i hopen
  split
  · rename_i htest
    rw [Bool.and_eq_true, Bool.or_eq_true, decide_eq_true_iff, decide_eq_true_iff,
      Bool.not_eq_true'] at htest
    obtain ⟨hkind, rfl⟩ := htest
    exact (Settles.once (agree_throw _ _)).of_run_eq (run_sequence_dangling hopen hkind)
  · rename_i htest
    have hbranch : t.kind = .keyElif ∨ t.kind = .keyElse → afterBranch = true := by
      intro hkind
      cases afterBranch with
      | true => rfl
      | false => exact absurd (by simpa using hkind) htest
    refine Settles.of_run_eq ?_ (run_sequence_cons hopen hbranch)
    refine ((hs _ hn m hm).bind fun x rest _ hrest ↦ ?_).loosen
    obtain ⟨k, rfl⟩ : ∃ k, m = k + 1 := ⟨m - 1, by omega⟩
    exact (ih rest.length (by omega) x.opensBranch (by omega) (by omega) rfl).map _

theorem settles_block (hn : ts.length ≤ n) (hm : 3 * ts.length + 2 ≤ m) :
    Settles 1 (Nested.block cx m) (block cx) ts := by
  obtain ⟨m, rfl⟩ : ∃ k, m = k + 2 := ⟨m - 2, by omega⟩
  rw [Nested.block]
  refine Settles.of_run_eq ?_ (run_block ts)
  refine (Settles.once (agree_expect cx .leftBrace ts)).bind fun _ rest _ hrest ↦ ?_
  exact settles_statements hs _ _ (by omega) (by omega)

theorem settles_branch (build : Expr → List (Statement Unit) → Statement Unit)
    (hn : ts.length ≤ n) (hm : 3 * ts.length + 2 ≤ m) :
    Settles 1
      (do
        let test ← Nested.parenthesized cx m
        return build test (← Nested.block cx m))
      (do
        let test ← parenthesized cx
        return build test (← block cx)) ts :=
  (settles_parenthesized (by omega)).bind fun _ _ _ _ ↦
    ((settles_block hs (by omega) (by omega)).map _).loosen

theorem settles_function (hn : ts.length ≤ n) (hm : 3 * ts.length + 2 ≤ m) :
    Settles 1
      (do
        let name ← once (expectName cx)
        let _ ← once (expect cx .leftParen)
        let params ← Nested.items cx (once (expectName cx)) .rightParen m
        let body ← Nested.block cx m
        return Statement.function () name params body)
      (do
        let name ← expectName cx
        let _ ← expect cx .leftParen
        let params ← parameters cx
        let body ← block cx
        return Statement.function () name params body) ts := by
  refine (Settles.once (agree_expectName cx ts)).bind fun _ r₁ _ _ ↦ ?_
  refine ((Settles.once (agree_expect cx .leftParen r₁)).bind fun _ r₂ _ _ ↦ ?_).loosen
  refine ((settles_parameters (by omega)).bind fun _ r₃ _ _ ↦ ?_).loosen
  exact ((settles_block hs (by omega) (by omega)).map _).loosen

omit hs

/-- By induction on the number of tokens: a statement inside another is read behind its brace. -/
theorem settles_statement_below :
    ∀ r : List Token, r.length < n → ∀ m, 3 * r.length + 3 ≤ m →
      Settles 1 (Nested.statement cx m) (statement cx) r := by
  induction n with
  | zero => exact fun r hr ↦ absurd hr (Nat.not_lt_zero _)
  | succ n hs =>
    intro r hn m hm
    obtain ⟨m, rfl⟩ : ∃ k, m = k + 1 := ⟨m - 1, by omega⟩
    rcases r with _ | ⟨t, ts⟩
    · rw [Nested.statement]
      refine .still (run_peek []) ?_
      exact (Settles.once (agree_failAtEnd cx _ [])).of_run_eq run_statement_nil
    cases hopen : opensStatement t.kind with
    | false => exact settles_statement_other hopen (by omega)
    | true =>
    have hblock : Settles 1 (Nested.block cx m) (block cx) (t :: ts) :=
      settles_block hs (Nat.le_of_lt_succ hn) (by omega)
    rw [Nested.statement]
    refine .still (run_peek _) ?_
    rw [List.head?_cons]
    dsimp only
    rw [List.length_cons] at hn hm
    rcases statement_cases t.kind with ht | ⟨build, hb⟩ | ht | ht | ht | ht | hother
    · simp only [ht]
      exact .cons (outcome?_once_bind (run_expect_eq_ok.mpr ⟨rfl, ht⟩)) (run_statement_let ht)
        (settles_declare (by omega)).loosen
    · rcases branch?_eq_some hb with ⟨hkind, rfl⟩ | ⟨hkind, rfl⟩ <;> simp only [hkind] <;>
        exact .cons (outcome?_once_bind (run_advance _)) (run_statement_branch hb)
          (settles_branch hs _ (by omega) (by omega)).loosen
    · simp only [ht]
      exact .cons (outcome?_once_bind (run_advance _)) (run_statement_else ht)
        ((settles_block hs (by omega) (by omega)).map _).loosen
    · simp only [ht]
      exact .cons (outcome?_once_bind (run_expect_eq_ok.mpr ⟨rfl, ht⟩)) (run_statement_function ht)
        (settles_function hs (by omega) (by omega)).loosen
    · simp only [ht]
      exact .cons (outcome?_once_bind (run_advance _)) (run_statement_return ht)
        (settles_simple _ (by omega)).loosen
    · simp only [ht]
      exact (hblock.map _).of_run_eq (run_statement_block ht)
    · rw [hopen] at hother
      cases hother

end Statements

/-! ## Coming to an end -/

/-- Among `tokens`, from position `p` on, the reader `u` comes to an end, with the outcome of `r`,
and its calls nest at most `3 * (tokens.length - p) + 4` deep. The cursor never goes back and never
leaves the tokens, and a success has moved it by at least `d`. -/
structure Finishes {α : Type} (d : Nat) (u : (depth : Nat) → Reader α) (r : ParseM α)
    (tokens : List Token) (p : Nat) : Prop where
  outcome : ∀ depth, 3 * (tokens.length - p) + 4 ≤ depth →
    (u depth).outcome? (tokens.drop p) = some (r.run (tokens.drop p))
  ok : ∀ a rest, r.run (tokens.drop p) = .ok a rest →
    ∃ q, p + d ≤ q ∧ q ≤ tokens.length ∧ rest = tokens.drop q
  error : ∀ e rest, r.run (tokens.drop p) = .error e rest →
    ∃ q, p ≤ q ∧ q ≤ tokens.length ∧ rest = tokens.drop q

theorem finishes_of_settles {α : Type} {d : Nat} {u : (depth : Nat) → Reader α} {r : ParseM α}
    {tokens : List Token} {p : Nat} (hp : p ≤ tokens.length)
    (h : ∀ depth, 3 * (tokens.drop p).length + 4 ≤ depth → Settles d (u depth) r (tokens.drop p)) :
    Finishes d u r tokens p := by
  have hagree : Agree d r r (tokens.drop p) := (h _ (Nat.le_refl _)).agree
  have position : ∀ rest, rest <:+ tokens.drop p →
      rest = tokens.drop (tokens.length - rest.length) ∧ rest.length ≤ tokens.length - p := by
    intro rest hrest
    have hlength := hrest.length_le
    rw [List.length_drop] at hlength
    exact ⟨List.suffix_iff_eq_drop.mp (hrest.trans (List.drop_suffix p tokens)), hlength⟩
  rw [List.length_drop] at h
  refine ⟨fun depth hdepth ↦ (h depth hdepth).outcome, fun a rest hrun ↦ ?_, fun e rest hrun ↦ ?_⟩
  · obtain ⟨hsuffix, hread⟩ := hagree.reads a rest hrun
    obtain ⟨hrest, hlength⟩ := position rest hsuffix
    rw [List.length_drop] at hread
    exact ⟨tokens.length - rest.length, by omega, Nat.sub_le _ _, hrest⟩
  · obtain ⟨hrest, hlength⟩ := position rest (hagree.stays e rest hrun)
    exact ⟨tokens.length - rest.length, by omega, Nat.sub_le _ _, hrest⟩

/-- The readers come to an end on every token list and from every position, whatever the tables of
the grammar hold. An expression, a statement or a block that is read moves the cursor. -/
theorem parsing_always_finishes (cx : Context) (tokens : List Token) {p : Nat}
    (hp : p ≤ tokens.length) :
    (∀ min, Finishes 1 (fun depth ↦ Nested.expression cx depth min) (expression cx min) tokens p)
      ∧ Finishes 1 (Nested.statement cx) (statement cx) tokens p
      ∧ Finishes 1 (Nested.block cx) (block cx) tokens p
      ∧ Finishes 0 (Nested.program cx) (program cx) tokens p := by
  refine ⟨fun min ↦ ?_, ?_, ?_, ?_⟩ <;> refine finishes_of_settles hp fun depth hdepth ↦ ?_
  · exact settles_expression min (by omega)
  · exact settles_statement_below _ (Nat.lt_succ_self _) depth (by omega)
  · exact settles_block settles_statement_below (Nat.le_refl _) (by omega)
  · obtain ⟨k, rfl⟩ : ∃ k, depth = k + 1 := ⟨depth - 1, by omega⟩
    exact (settles_statements settles_statement_below none false (Nat.lt_succ_self _)
      (by omega)).of_run_eq (run_program _)

/-- The rule for unary operators, put under a token that is none of them, refuses the token. -/
theorem unary_rule_under_star_finishes :
    (Nested.expression { grammar := Grammar.standard.setTerm .star .unary } 10 .lowest).outcome?
        ([⟨.rightParen, ")", 1⟩, ⟨.star, "*", 1⟩, ⟨.number, "2", 2⟩].drop 1)
      = some (.error (.unexpectedToken .unaryOperator ⟨.star, "*", 1⟩)
          [⟨.star, "*", 1⟩, ⟨.number, "2", 2⟩]) :=
  ((parsing_always_finishes _ _ (by decide)).1 .lowest).outcome 10 (by decide)

end Scriptlet.Parse
