import Scriptlet.Parse.Program

/-!
# The cursor and its bounds

Readers of nested phrases take a bound on the number of tokens left, so that they are total by
recursion on it. This module shows that the bound is no part of what they do: two bounds that are
both large enough give the same outcome, for every grammar and every token list.

## The judgement

`Agree d p q ts` says that the readers `p` and `q` have the same outcome on `ts`, that the cursor
then stands at a tail of `ts`, and that a success has read at least `d` tokens. The two halves are
proved together because each round of a loop may sink its bound only if it has read a token.

## What comes out

`agree_expression` and `agree_statement` are the two results: at any sufficient bound the readers
agree with `expression` and `statement`, which take the number of tokens left for it. They also say
that an expression or a statement that is read takes at least one token.
-/

namespace Scriptlet.Parse

/-! ## Outcomes -/

theorem run_bind_eq_ok {α β : Type} {p : ParseM α} {f : α → ParseM β} {ts rest : List Token}
    {b : β} :
    (p >>= f).run ts = .ok b rest ↔
      ∃ a mid, p.run ts = .ok a mid ∧ (f a).run mid = .ok b rest := by
  rw [EStateM.run_bind]
  constructor
  · intro h
    rcases hp : p.run ts with ⟨a, mid⟩ | ⟨e, mid⟩
    · exact ⟨a, mid, rfl, by rw [hp] at h; exact h⟩
    · rw [hp] at h; cases h
  · rintro ⟨a, mid, hp, hf⟩
    rw [hp]
    exact hf

/-- The first part of a sequence, once it has succeeded, can be skipped. -/
theorem run_bind_of_ok {α β : Type} {p : ParseM α} {f : α → ParseM β} {ts mid : List Token}
    {a : α} (h : p.run ts = .ok a mid) : (p >>= f).run ts = (f a).run mid := by
  rw [EStateM.run_bind, h]

/-- The readers do the same on `ts`, stay inside it, and read at least `d` tokens unless they
fail. -/
structure Agree {α : Type} (d : Nat) (p q : ParseM α) (ts : List Token) : Prop where
  run_eq : p.run ts = q.run ts
  reads : ∀ a rest, p.run ts = .ok a rest → rest <:+ ts ∧ rest.length + d ≤ ts.length
  stays : ∀ e rest, p.run ts = .error e rest → rest <:+ ts

namespace Agree

variable {α β : Type} {d : Nat} {p q : ParseM α} {f g : α → ParseM β} {ts : List Token}

theorem loosen (h : Agree d p q ts) : Agree 0 p q ts where
  run_eq := h.run_eq
  reads a rest hr := ⟨(h.reads a rest hr).1, (h.reads a rest hr).1.length_le⟩
  stays := h.stays

/-- Only the outcomes on `ts` matter. -/
theorem of_run_eq {p' q' : ParseM α} (h : Agree d p q ts) (hp : p'.run ts = p.run ts)
    (hq : q'.run ts = q.run ts) : Agree d p' q' ts where
  run_eq := by rw [hp, hq, h.run_eq]
  reads a rest hr := h.reads a rest (by rw [← hp]; exact hr)
  stays e rest hr := h.stays e rest (by rw [← hp]; exact hr)

theorem right (h : Agree d p q ts) : Agree d q q ts := h.of_run_eq h.run_eq.symm rfl

/-- The rule for sequences: the second parts need to agree only where the first part can end. -/
theorem bind (h : Agree d p q ts)
    (hfg : ∀ a rest, p.run ts = .ok a rest → rest.length + d ≤ ts.length →
      Agree 0 (f a) (g a) rest) : Agree d (p >>= f) (q >>= g) ts := by
  have hrun : (p >>= f).run ts = (q >>= g).run ts := by
    rw [EStateM.run_bind, EStateM.run_bind, ← h.run_eq]
    rcases hp : p.run ts with ⟨a, rest⟩ | ⟨e, rest⟩
    · exact (hfg a rest hp (h.reads a rest hp).2).run_eq
    · rfl
  refine ⟨hrun, ?_, ?_⟩
  · intro b rest hb
    obtain ⟨a, mid, hp, hf⟩ := run_bind_eq_ok.mp hb
    obtain ⟨hmid, hlen⟩ := h.reads a mid hp
    obtain ⟨hrest, hlen'⟩ := (hfg a mid hp hlen).reads b rest hf
    exact ⟨hrest.trans hmid, by omega⟩
  · intro e rest he
    rw [EStateM.run_bind] at he
    rcases hp : p.run ts with ⟨a, mid⟩ | ⟨e', mid⟩
    · rw [hp] at he
      obtain ⟨hmid, hlen⟩ := h.reads a mid hp
      exact ((hfg a mid hp hlen).stays e rest he).trans hmid
    · rw [hp] at he
      cases he
      exact h.stays _ _ hp

/-- The rule for a first part that succeeds without moving: it only picks the second part. -/
theorem bind_still {a : α} (hp : p.run ts = .ok a ts) (h : Agree d (f a) (g a) ts) :
    Agree d (p >>= f) (p >>= g) ts :=
  h.of_run_eq (run_bind_of_ok hp) (run_bind_of_ok hp)

theorem of_ok {a : α} (hp : p.run ts = .ok a ts) (hq : q.run ts = .ok a ts) :
    Agree 0 p q ts := by
  refine ⟨by rw [hp, hq], ?_, ?_⟩
  · intro b rest h
    rw [hp] at h
    cases h
    exact ⟨List.suffix_refl _, Nat.le_refl _⟩
  · intro e rest h
    rw [hp] at h
    cases h

theorem of_error {e : ParseError} (hp : p.run ts = .error e ts) (hq : q.run ts = .error e ts) :
    Agree d p q ts := by
  refine ⟨by rw [hp, hq], ?_, ?_⟩
  · intro a rest h
    rw [hp] at h
    cases h
  · intro e' rest h
    rw [hp] at h
    cases h
    exact List.suffix_refl _

end Agree

/-! ## Single steps -/

section Steps

variable {α β : Type} {d : Nat} {f g : Option Token → ParseM β} (cx : Context)

theorem agree_pure (a : α) (ts : List Token) : Agree 0 (pure a) (pure a) ts := .of_ok rfl rfl

theorem agree_throw (e : ParseError) (ts : List Token) :
    Agree d (throw e : ParseM α) (throw e) ts := .of_error rfl rfl

theorem agree_failAtEnd (expected : Expected) (ts : List Token) :
    Agree d (failAtEnd cx expected : ParseM α) (failAtEnd cx expected) ts := agree_throw _ ts

theorem agree_unexpected (expected : Expected) (ts : List Token) :
    Agree d (unexpected cx expected : ParseM α) (unexpected cx expected) ts := by
  refine Agree.bind_still (run_peek ts) ?_
  rcases ts with _ | ⟨t, ts⟩
  · exact agree_failAtEnd cx expected []
  · exact agree_throw _ _

theorem agree_advance_bind {t : Token} {ts : List Token}
    (h : Agree 0 (f (some t)) (g (some t)) ts) :
    Agree 1 (advance >>= f) (advance >>= g) (t :: ts) := by
  refine Agree.bind ⟨rfl, ?_, ?_⟩ ?_
  · intro a rest ha
    cases ha
    exact ⟨List.suffix_cons t ts, Nat.le_refl _⟩
  · intro e rest he
    cases he
  · intro a rest ha _
    cases ha
    exact h

variable {cx} in
theorem run_expect_eq_ok {kind : TokenKind} {ts rest : List Token} {t : Token} :
    (expect cx kind).run ts = .ok t rest ↔ ts = t :: rest ∧ t.kind = kind := by
  constructor
  · intro h
    rcases ts with _ | ⟨u, us⟩
    · rw [run_expect_nil] at h
      cases h
    · rw [run_expect_cons] at h
      split at h
      · rename_i hkind
        cases h
        exact ⟨rfl, hkind⟩
      · cases h
  · rintro ⟨rfl, hkind⟩
    rw [run_expect_cons, if_pos hkind]

variable {cx} in
theorem run_expectName_eq_ok {x : String} {ts rest : List Token} :
    (expectName cx).run ts = .ok x rest ↔
      ∃ t, ts = t :: rest ∧ t.kind = .identifier ∧ t.lexeme = x := by
  rw [expectName, run_bind_eq_ok]
  constructor
  · rintro ⟨t, mid, ht, h⟩
    obtain ⟨rfl, hkind⟩ := run_expect_eq_ok.mp ht
    cases h
    exact ⟨t, rfl, hkind, rfl⟩
  · rintro ⟨t, rfl, hkind, rfl⟩
    exact ⟨t, rest, run_expect_eq_ok.mpr ⟨rfl, hkind⟩, rfl⟩

theorem agree_expect (kind : TokenKind) (ts : List Token) :
    Agree 1 (expect cx kind) (expect cx kind) ts := by
  rcases ts with _ | ⟨t, ts⟩
  · exact .of_error (run_expect_nil cx kind) (run_expect_nil cx kind)
  · by_cases ht : t.kind = kind
    · have hrun : (expect cx kind).run (t :: ts) = .ok t ts := run_expect_eq_ok.mpr ⟨rfl, ht⟩
      refine ⟨rfl, ?_, ?_⟩
      · intro a rest h
        rw [hrun] at h
        cases h
        exact ⟨List.suffix_cons t ts, Nat.le_refl _⟩
      · intro e rest h
        rw [hrun] at h
        cases h
    · have hrun : (expect cx kind).run (t :: ts)
          = .error (.unexpectedToken (.token kind) t) (t :: ts) := by
        rw [run_expect_cons, if_neg ht]
      exact .of_error hrun hrun

theorem agree_expectName (ts : List Token) : Agree 1 (expectName cx) (expectName cx) ts :=
  (agree_expect cx .identifier ts).bind fun _ _ _ _ ↦ agree_pure _ _

end Steps

/-! ## Lists -/

section Lists

variable {α : Type} {cx : Context} {i j : ParseM α} {closing : TokenKind} {n : Nat}

theorem run_moreItems_nil (b : Nat) :
    (moreItems cx i closing b).run []
      = .error (.unexpectedEnd (.commaOr closing) cx.endLine) [] := by
  cases b <;> rfl

theorem agree_moreItems (hitem : ∀ r : List Token, r.length < n → Agree 0 i j r) :
    ∀ {b c : Nat} {ts : List Token}, ts.length ≤ n → ts.length ≤ b → ts.length ≤ c →
      Agree 1 (moreItems cx i closing b) (moreItems cx j closing c) ts := by
  intro b c ts
  induction b generalizing c ts with
  | zero =>
    intro hn hb hc
    obtain rfl := List.eq_nil_of_length_eq_zero (Nat.le_zero.mp hb)
    exact .of_error (run_moreItems_nil 0) (run_moreItems_nil c)
  | succ b ih =>
    intro hn hb hc
    rcases ts with _ | ⟨t, ts⟩
    · exact .of_error (run_moreItems_nil (b + 1)) (run_moreItems_nil c)
    · rw [List.length_cons] at hn hb hc
      obtain ⟨c, rfl⟩ : ∃ k, c = k + 1 := ⟨c - 1, by omega⟩
      refine Agree.bind_still (run_peekKind _) ?_
      split
      · refine agree_advance_bind ((hitem ts (by omega)).bind fun x rest _ hrest ↦ ?_)
        refine ((ih ?_ ?_ ?_).bind fun _ _ _ _ ↦ agree_pure _ _).loosen <;> omega
      · split
        · exact agree_advance_bind (agree_pure _ _)
        · exact agree_unexpected cx _ _

theorem agree_items (hitem : ∀ r : List Token, r.length ≤ n → Agree 1 i j r) {b c : Nat}
    {ts : List Token} (hn : ts.length ≤ n) (hb : ts.length ≤ b + 1) (hc : ts.length ≤ c + 1) :
    Agree 1 (items cx i closing b) (items cx j closing c) ts := by
  refine Agree.bind_still (run_peekKind ts) ?_
  split
  · rename_i hnext
    rcases ts with _ | ⟨t, ts⟩
    · cases hnext
    · exact agree_advance_bind (agree_pure _ _)
  · refine (hitem ts hn).bind fun x rest _ hrest ↦ ?_
    have hmore : Agree 1 (moreItems cx i closing b) (moreItems cx j closing c) rest :=
      agree_moreItems (n := n) (fun r hr ↦ (hitem r (by omega)).loosen)
        (by omega) (by omega) (by omega)
    exact (hmore.bind fun _ _ _ _ ↦ agree_pure _ _).loosen

end Lists

/-! ## Expressions -/

section Expressions

variable {cx : Context} {o u : Precedence → ParseM Expr} {n : Nat}

theorem agree_term (ho : ∀ r : List Token, r.length < n → ∀ min, Agree 1 (o min) (u min) r)
    (rule : TermRule) {b c : Nat} {ts : List Token} (hn : ts.length ≤ n)
    (hb : ts.length ≤ b + 1) (hc : ts.length ≤ c + 1) :
    Agree 1 (term cx o b rule) (term cx u c rule) ts := by
  cases rule with
  | number => exact (agree_expect cx .number ts).bind fun _ _ _ _ ↦ agree_pure _ _
  | string => exact (agree_expect cx .string ts).bind fun _ _ _ _ ↦ agree_pure _ _
  | boolean =>
    refine Agree.bind_still (run_peekKind ts) ?_
    rcases ts with _ | ⟨t, ts⟩
    · exact agree_unexpected cx _ []
    · rw [List.head?_cons, Option.map_some]
      split
      · exact agree_advance_bind (agree_pure _ _)
      · exact agree_advance_bind (agree_pure _ _)
      · exact agree_unexpected cx _ _
  | nameOrCall =>
    refine (agree_expectName cx ts).bind fun name rest _ hrest ↦ ?_
    refine Agree.bind_still (run_peekKind rest) ?_
    split
    · rename_i hnext
      rcases rest with _ | ⟨t, rest⟩
      · cases hnext
      · rw [List.length_cons] at hrest
        have hargs : Agree 1 (items cx (o .lowest) .rightParen b)
            (items cx (u .lowest) .rightParen c) rest :=
          agree_items (n := rest.length) (fun r hr ↦ ho r (by omega) .lowest) (Nat.le_refl _)
            (by omega) (by omega)
        exact (agree_advance_bind (hargs.bind fun _ _ _ _ ↦ agree_pure _ _).loosen).loosen
    · exact agree_pure _ _
  | group =>
    refine (agree_expect cx .leftParen ts).bind fun _ rest _ hrest ↦ ?_
    refine ((ho rest (by omega) .lowest).bind fun e mid _ _ ↦ ?_).loosen
    exact ((agree_expect cx .rightParen mid).bind fun _ _ _ _ ↦ agree_pure _ _).loosen
  | unary =>
    refine Agree.bind_still (run_peekKind ts) ?_
    rcases ts with _ | ⟨t, ts⟩
    · exact agree_unexpected cx _ []
    · rw [List.length_cons] at hn
      rw [List.head?_cons, Option.map_some, Option.bind_some]
      split
      · refine agree_advance_bind ?_
        exact ((ho ts (by omega) .unary).bind fun _ _ _ _ ↦ agree_pure _ _).loosen
      · exact agree_unexpected cx _ _

theorem agree_binaryTail (ho : ∀ r : List Token, r.length < n → ∀ min, Agree 1 (o min) (u min) r)
    (left : Expr) (min : Precedence) {ts : List Token} (hn : ts.length ≤ n) :
    Agree 1 (binaryTail cx o left min) (binaryTail cx u left min) ts := by
  refine Agree.bind_still (run_peekKind ts) ?_
  rcases ts with _ | ⟨t, ts⟩
  · exact agree_unexpected cx _ []
  · rw [List.length_cons] at hn
    rw [List.head?_cons, Option.map_some, Option.bind_some]
    split
    · refine agree_advance_bind ?_
      exact ((ho ts (by omega) min).bind fun _ _ _ _ ↦ agree_pure _ _).loosen
    · exact agree_unexpected cx _ _

theorem agree_tail (ho : ∀ r : List Token, r.length < n → ∀ min, Agree 1 (o min) (u min) r)
    (left : Expr) (min : Precedence) (rule : TailRule) {t : Token} {ts : List Token}
    (hn : (t :: ts).length ≤ n) :
    Agree 1 (tail cx o left min rule) (tail cx u left min rule) (t :: ts) := by
  cases rule with
  | binary => exact agree_binaryTail ho left min hn
  | looseBinary => exact agree_binaryTail ho left .lowest hn
  | mark => exact agree_advance_bind (agree_pure _ _)

theorem run_tails_nil (min : Precedence) (b : Nat) (left : Expr) :
    (tails cx o min b left).run [] = .ok left [] := by
  cases b <;> rfl

/-- The loop of tails: every round reads a token, so a bound on the tokens left is a bound on the
rounds. -/
theorem agree_tails (ho : ∀ r : List Token, r.length < n → ∀ min, Agree 1 (o min) (u min) r)
    (min : Precedence) : ∀ {b c : Nat} {left : Expr} {ts : List Token}, ts.length ≤ n →
      ts.length ≤ b → ts.length ≤ c →
      Agree 0 (tails cx o min b left) (tails cx u min c left) ts := by
  intro b c left ts
  induction b generalizing c left ts with
  | zero =>
    intro _ hb _
    obtain rfl := List.eq_nil_of_length_eq_zero (Nat.le_zero.mp hb)
    exact .of_ok (run_tails_nil min 0 left) (run_tails_nil min c left)
  | succ b ih =>
    intro hn hb hc
    rcases ts with _ | ⟨t, ts⟩
    · exact .of_ok (run_tails_nil min (b + 1) left) (run_tails_nil min c left)
    · obtain ⟨c, rfl⟩ : ∃ k, c = k + 1 := ⟨c - 1, by rw [List.length_cons] at hc; omega⟩
      refine Agree.bind_still (run_peek _) ?_
      rw [List.head?_cons]
      dsimp only
      split
      · exact agree_pure _ _
      · split
        · exact agree_throw _ _
        · -- the tail has read a token, so both bounds still reach to the end
          refine ((agree_tail ho left _ _ hn).bind fun longer rest _ hrest ↦ ?_).loosen
          exact ih (by omega) (by omega) (by omega)

/-- Bounds that reach to the end of the tokens are all alike. -/
theorem agree_expressionAt : ∀ {b c : Nat} {ts : List Token}, ts.length ≤ b → ts.length ≤ c →
    ∀ min, Agree 1 (expressionAt cx b min) (expressionAt cx c min) ts := by
  intro b c ts
  induction b generalizing c ts with
  | zero =>
    intro hb _ min
    obtain rfl := List.eq_nil_of_length_eq_zero (Nat.le_zero.mp hb)
    refine .of_error (e := .unexpectedEnd .expression cx.endLine) rfl ?_
    cases c <;> rfl
  | succ b ih =>
    intro hb hc min
    rcases ts with _ | ⟨t, ts⟩
    · refine .of_error (e := .unexpectedEnd .expression cx.endLine) rfl ?_
      cases c <;> rfl
    · rw [List.length_cons] at hb hc
      obtain ⟨c, rfl⟩ : ∃ k, c = k + 1 := ⟨c - 1, by omega⟩
      -- inner expressions are read behind at least one token
      have hinner : ∀ r : List Token, r.length < ts.length + 1 → ∀ min,
          Agree 1 (expressionAt cx b min) (expressionAt cx c min) r := by
        intro r hr
        exact ih (by omega) (by omega)
      refine Agree.bind_still (run_peek _) ?_
      rw [List.head?_cons]
      dsimp only
      split
      · exact agree_throw _ _
      · rename_i rule _
        refine (agree_term hinner rule (Nat.le_refl _) ?_ ?_).bind fun left rest _ hrest ↦ ?_
        · rw [List.length_cons]; omega
        · rw [List.length_cons]; omega
        · rw [List.length_cons] at hrest
          exact agree_tails hinner min (by omega) (by omega) (by omega)

theorem agree_expression {b : Nat} {ts : List Token} (hb : ts.length ≤ b) (min : Precedence) :
    Agree 1 (expressionAt cx b min) (expression cx min) ts :=
  (agree_expressionAt hb (Nat.le_refl _) min).of_run_eq rfl rfl

end Expressions

/-! ## Statements -/

section Statements

variable {cx : Context} {b c n : Nat} {ts : List Token}

theorem agree_endStatement (ts : List Token) : Agree 0 (endStatement cx) (endStatement cx) ts := by
  refine Agree.bind_still (run_peekKind ts) ?_
  rcases ts with _ | ⟨t, ts⟩
  · exact agree_pure _ _
  · rw [List.head?_cons, Option.map_some]
    split
    · refine (agree_advance_bind ?_).loosen
      exact agree_pure _ _
    · exact agree_pure _ _
    · exact agree_pure _ _
    · exact agree_unexpected cx _ _

theorem agree_condition (hb : ts.length ≤ b + 1) (hc : ts.length ≤ c + 1) :
    Agree 1 (condition cx b) (condition cx c) ts := by
  refine (agree_expect cx .leftParen ts).bind fun _ rest _ hrest ↦ ?_
  refine ((agree_expressionAt (by omega) (by omega) .lowest).bind fun e mid _ _ ↦ ?_).loosen
  exact ((agree_expect cx .rightParen mid).bind fun _ _ _ _ ↦ agree_pure _ _).loosen

theorem agree_declaration (hb : ts.length ≤ b + 1) (hc : ts.length ≤ c + 1) :
    Agree 1 (declaration cx b) (declaration cx c) ts := by
  refine (agree_expect cx .keyLet ts).bind fun _ r₁ _ h₁ ↦ ?_
  refine ((agree_expectName cx r₁).bind fun _ r₂ _ h₂ ↦ ?_).loosen
  refine ((agree_expect cx .assign r₂).bind fun _ r₃ _ h₃ ↦ ?_).loosen
  refine ((agree_expressionAt (by omega) (by omega) .lowest).bind fun _ r₄ _ _ ↦ ?_).loosen
  exact ((agree_expect cx .semicolon r₄).bind fun _ _ _ _ ↦ agree_pure _ _).loosen

theorem agree_assignment (hb : ts.length ≤ b + 1) (hc : ts.length ≤ c + 1) :
    Agree 1 (assignment cx b) (assignment cx c) ts := by
  refine (agree_expectName cx ts).bind fun _ r₁ _ h₁ ↦ ?_
  refine ((agree_expect cx .assign r₁).bind fun _ r₂ _ h₂ ↦ ?_).loosen
  refine ((agree_expressionAt (by omega) (by omega) .lowest).bind fun _ r₃ _ _ ↦ ?_).loosen
  exact (agree_endStatement r₃).bind fun _ _ _ _ ↦ agree_pure _ _

variable {s u : ParseM (Statement Unit)}

theorem agree_statements_nil (closing : Option TokenKind) (b c : Nat) (afterBranch : Bool) :
    Agree 0 (statements cx s closing b afterBranch) (statements cx u closing c afterBranch)
      [] := by
  cases closing with
  | some kind =>
    refine .of_error (e := .unexpectedEnd (.token kind) cx.endLine) ?_ ?_
    · cases b <;> rfl
    · cases c <;> rfl
  | none =>
    have hrun : ∀ (v : ParseM (Statement Unit)) (k : Nat),
        (statements cx v none k afterBranch).run [] = .ok [] [] := by
      intro v k
      cases k <;> rfl
    exact .of_ok (hrun s b) (hrun u c)

/-- The loop of statements, in which each round reads a statement. -/
theorem agree_statements (hs : ∀ r : List Token, r.length ≤ n → Agree 1 s u r)
    (closing : Option TokenKind) : ∀ {b c : Nat} {afterBranch : Bool} {ts : List Token},
      ts.length ≤ n → ts.length ≤ b → ts.length ≤ c →
      Agree 0 (statements cx s closing b afterBranch) (statements cx u closing c afterBranch)
        ts := by
  intro b c afterBranch ts
  induction b generalizing c afterBranch ts with
  | zero =>
    intro _ hb _
    obtain rfl := List.eq_nil_of_length_eq_zero (Nat.le_zero.mp hb)
    exact agree_statements_nil closing 0 c afterBranch
  | succ b ih =>
    intro hn hb hc
    rcases ts with _ | ⟨t, ts⟩
    · exact agree_statements_nil closing (b + 1) c afterBranch
    · obtain ⟨c, rfl⟩ : ∃ k, c = k + 1 := ⟨c - 1, by rw [List.length_cons] at hc; omega⟩
      refine Agree.bind_still (run_peek _) ?_
      rw [List.head?_cons]
      dsimp only
      split
      · refine (agree_advance_bind ?_).loosen
        exact agree_pure _ _
      · split
        · exact agree_throw _ _
        · refine ((hs _ hn).bind fun x rest _ hrest ↦ ?_).loosen
          exact (ih (by omega) (by omega) (by omega)).bind fun _ _ _ _ ↦ agree_pure _ _

theorem agree_blockOf (hs : ∀ r : List Token, r.length < ts.length → Agree 1 s u r)
    (hb : ts.length ≤ b + 1) (hc : ts.length ≤ c + 1) :
    Agree 1 (blockOf cx s b) (blockOf cx u c) ts := by
  refine (agree_expect cx .leftBrace ts).bind fun _ rest _ hrest ↦ ?_
  exact agree_statements (n := rest.length) (fun r hr ↦ hs r (by omega)) _ (Nat.le_refl _)
    (by omega) (by omega)

theorem agree_functionOf (hs : ∀ r : List Token, r.length < ts.length → Agree 1 s u r)
    (hb : ts.length ≤ b + 1) (hc : ts.length ≤ c + 1) :
    Agree 1 (functionOf cx s b) (functionOf cx u c) ts := by
  refine (agree_expect cx .keyFunction ts).bind fun _ r₁ _ h₁ ↦ ?_
  refine ((agree_expectName cx r₁).bind fun _ r₂ _ h₂ ↦ ?_).loosen
  refine ((agree_expect cx .leftParen r₂).bind fun _ r₃ _ h₃ ↦ ?_).loosen
  have hparams : Agree 1 (items cx (expectName cx) .rightParen b)
      (items cx (expectName cx) .rightParen c) r₃ :=
    agree_items (n := r₃.length) (fun r _ ↦ agree_expectName cx r) (Nat.le_refl _) (by omega)
      (by omega)
  refine (hparams.bind fun _ r₄ _ h₄ ↦ ?_).loosen
  have hbody : Agree 1 (blockOf cx s b) (blockOf cx u c) r₄ :=
    agree_blockOf (fun r hr ↦ hs r (by omega)) (by omega) (by omega)
  exact (hbody.bind fun _ _ _ _ ↦ agree_pure _ _).loosen

theorem agree_branchOf (hs : ∀ r : List Token, r.length < ts.length → Agree 1 s u r)
    (build : Expr → List (Statement Unit) → Statement Unit) (hb : ts.length ≤ b + 1)
    (hc : ts.length ≤ c + 1) :
    Agree 1
      (do
        let test ← condition cx b
        return build test (← blockOf cx s b))
      (do
        let test ← condition cx c
        return build test (← blockOf cx u c)) ts := by
  refine (agree_condition hb hc).bind fun test r _ hr ↦ ?_
  have hbody : Agree 1 (blockOf cx s b) (blockOf cx u c) r :=
    agree_blockOf (fun r' hr' ↦ hs r' (by omega)) (by omega) (by omega)
  exact (hbody.bind fun _ _ _ _ ↦ agree_pure _ _).loosen

/-- Bounds that reach to the end of the tokens are all alike, for statements too. -/
theorem agree_statementAt : ∀ {b c : Nat} {ts : List Token}, ts.length ≤ b → ts.length ≤ c →
    Agree 1 (statementAt cx b) (statementAt cx c) ts := by
  intro b c ts
  induction b generalizing c ts with
  | zero =>
    intro hb _
    obtain rfl := List.eq_nil_of_length_eq_zero (Nat.le_zero.mp hb)
    refine .of_error (e := .unexpectedEnd .statement cx.endLine) rfl ?_
    cases c <;> rfl
  | succ b ih =>
    intro hb hc
    rcases ts with _ | ⟨t, ts⟩
    · refine .of_error (e := .unexpectedEnd .statement cx.endLine) rfl ?_
      cases c <;> rfl
    · obtain ⟨c, rfl⟩ : ∃ k, c = k + 1 := ⟨c - 1, by rw [List.length_cons] at hc; omega⟩
      have hinner : ∀ r : List Token, r.length < (t :: ts).length →
          Agree 1 (statementAt cx b) (statementAt cx c) r := by
        intro r hr
        exact ih (by omega) (by omega)
      have hblock : ∀ r : List Token, r.length ≤ (t :: ts).length →
          Agree 1 (blockOf cx (statementAt cx b) b) (blockOf cx (statementAt cx c) c) r := by
        intro r hr
        exact agree_blockOf (fun r' hr' ↦ hinner r' (by omega)) (by omega) (by omega)
      have hafter : ∀ r : List Token, r.length < ts.length →
          Agree 1 (statementAt cx b) (statementAt cx c) r := fun r hr ↦
        hinner r (Nat.lt_succ_of_lt hr)
      refine Agree.bind_still (run_peek _) ?_
      rw [List.head?_cons]
      dsimp only
      split
      -- the statements in the order in which their first tokens are tried
      · exact agree_declaration hb hc
      · exact agree_advance_bind (agree_branchOf hafter _ (Nat.le_of_succ_le hb)
          (Nat.le_of_succ_le hc)).loosen
      · exact agree_advance_bind (agree_branchOf hafter _ (Nat.le_of_succ_le hb)
          (Nat.le_of_succ_le hc)).loosen
      · refine agree_advance_bind ?_
        exact ((hblock ts (by rw [List.length_cons]; omega)).bind fun _ _ _ _ ↦
          agree_pure _ _).loosen
      · exact agree_functionOf hinner hb hc
      · refine agree_advance_bind ?_
        rw [List.length_cons] at hb hc
        refine ((agree_expressionAt (by omega) (by omega) .lowest).bind fun _ r _ _ ↦ ?_).loosen
        exact (agree_endStatement r).bind fun _ _ _ _ ↦ agree_pure _ _
      · exact (hblock _ (Nat.le_refl _)).bind fun _ _ _ _ ↦ agree_pure _ _
      · refine Agree.bind_still rfl ?_
        split
        · exact agree_assignment hb hc
        · split
          · refine (agree_expressionAt hb hc .lowest).bind fun _ r _ _ ↦ ?_
            exact (agree_endStatement r).bind fun _ _ _ _ ↦ agree_pure _ _
          · exact agree_throw _ _

theorem agree_statement (hb : ts.length ≤ b) : Agree 1 (statementAt cx b) (statement cx) ts :=
  (agree_statementAt hb (Nat.le_refl _)).of_run_eq rfl rfl

end Statements

end Scriptlet.Parse
