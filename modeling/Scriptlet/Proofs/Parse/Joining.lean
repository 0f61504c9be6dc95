import Scriptlet.Proofs.Parse.Lines
import Scriptlet.Proofs.Parse.Statements
import Scriptlet.Proofs.Token.LineEnd

/-!
# Programs one after another

A complete token list that spells a program is read in front of any other list as it is by itself.
What the two parse to, one after the other, is that program followed by what the second list gives,
be it a program or an error. The first list has to be complete: a simple statement at its end may
lack its semicolon only if nothing follows.

The reader carries one flag from the first list to the second: whether an `elif` or `else` may come
next. `parseAfter` is parsing with that flag. A list that starts with neither does not look at it, so
it parses as it does by itself; one that does is refused at its first token if the flag is not set.
Nor does the second list see where the tokens end, since both lists together end where it does.

Parsing does not see the lines of tokens, so the second list may stand further down than it would by
itself.
-/

namespace Scriptlet.Parse

/-! ## Where programs may be joined -/

/-- The list is empty or ends with a semicolon or a closing brace. -/
def Complete (ts : List Token) : Prop :=
  ∀ t, ts.getLast? = some t → t.kind = .semicolon ∨ t.kind = .rightBrace

instance : DecidablePred Complete := fun ts ↦
  inferInstanceAs (Decidable (∀ t ∈ ts.getLast?, t.kind = .semicolon ∨ t.kind = .rightBrace))

/-- The list does not start with a statement that continues a chain. -/
def Independent {ι : Type} (p : List (Statement ι)) : Prop :=
  ∀ s, p.head? = some s → continuesBranch s = false

/-- The list starts with a keyword that continues a chain. -/
def StartsInBranch (ts : List Token) : Prop :=
  ∃ t, ts.head? = some t ∧ (t.kind = .keyElif ∨ t.kind = .keyElse)

/-- Whether an `elif` or `else` may follow the last statement of the list. -/
def endsInBranch {ι : Type} (p : List (Statement ι)) : Bool := p.getLast?.any Statement.opensBranch

/-! ## Parsing behind other statements -/

/-- Reads statements to the end of the tokens. `afterBranch` says whether the statement before is
one that `elif` and `else` may follow. -/
def programAfter (cx : Context) (afterBranch : Bool) : ParseM Program := do
  let bound := (← get).length
  statements cx (statementAt cx bound) none bound afterBranch

/-- The program a token list spells behind other statements. -/
def parseAfter (afterBranch : Bool) (tokens : List Token) : Except ParseError Program :=
  match (programAfter ⟨.standard, endLine tokens⟩ afterBranch).run tokens with
  | .ok p _ => .ok p
  | .error e _ => .error e

theorem parseAfter_false (ts : List Token) : parseAfter false ts = parse ts := rfl

section Flag

variable {cx : Context} {us : List Token}

theorem run_programAfter (afterBranch : Bool) (ts : List Token) :
    (programAfter cx afterBranch).run ts = (sequence cx none afterBranch).run ts :=
  (agree_sequence (Nat.le_refl _) none afterBranch).run_eq

/-- Only a keyword that continues a chain is looked at with the flag. -/
theorem run_sequence_of_not_startsInBranch (h : ¬ StartsInBranch us) (afterBranch : Bool) :
    (sequence cx none afterBranch).run us = (sequence cx none false).run us := by
  rcases us with _ | ⟨t, us⟩
  · rfl
  · have hkind : ¬ (t.kind = .keyElif ∨ t.kind = .keyElse) := fun hk ↦ h ⟨t, rfl, hk⟩
    have hopen : some t.kind ≠ none := Option.some_ne_none _
    rw [run_sequence_cons hopen fun hk ↦ absurd hk hkind,
      run_sequence_cons hopen fun hk ↦ absurd hk hkind]

theorem parseAfter_of_not_startsInBranch (h : ¬ StartsInBranch us) (afterBranch : Bool) :
    parseAfter afterBranch us = parse us := by
  rw [← parseAfter_false, parseAfter, parseAfter, run_programAfter, run_programAfter,
    run_sequence_of_not_startsInBranch h]

theorem parse_of_startsInBranch {t : Token} (hhead : us.head? = some t)
    (hkind : t.kind = .keyElif ∨ t.kind = .keyElse) : parse us = .error (.danglingBranch t) := by
  obtain ⟨rest, rfl⟩ := List.head?_eq_some_iff.mp hhead
  rw [parse, run_program, run_sequence_dangling (Option.some_ne_none _) hkind]

theorem not_startsInBranch_of_parse {q : Program} (hq : parse us = .ok q) :
    ¬ StartsInBranch us := by
  rintro ⟨t, hhead, hkind⟩
  rw [parse_of_startsInBranch hhead hkind] at hq
  cases hq

end Flag

section Joining

variable {ts us : List Token} {p q : Program}

theorem Complete.right (h : Complete (ts ++ us)) : Complete us := by
  intro t ht
  refine h t ?_
  rw [List.getLast?_append, ht, Option.some_or]

theorem Spells.not_complete {level : Level} {e : Expr} (h : Spells level us e) (ts : List Token) :
    ¬ Complete (ts ++ us) := by
  intro hcomplete
  have hlast : us.getLast? = some (us.getLast h.ne_nil) := List.getLast?_eq_some_getLast h.ne_nil
  have hin := h.inExpression _ (List.getLast_mem h.ne_nil)
  rcases hcomplete.right _ hlast with hkind | hkind
  · rw [hkind] at hin
    cases hin
  · rw [hkind] at hin
    cases hin

theorem SpellsSimple.not_complete {s : Statement Unit} (h : SpellsSimple ts s) :
    ¬ Complete ts := by
  cases h with
  | @returns k ts e _ h => exact h.not_complete [k]
  | @assign x eq ts e _ _ h => exact h.not_complete [x, eq]
  | expression h => exact h.not_complete []

/-! ## What is read across the seam -/

/-- In a complete list every statement is complete, so it is read whatever follows. Behind the list
the reader goes on with the flag that its last statement leaves, or, if there is none, with the one
that it started with. -/
theorem run_sequence_append {cx : Context} (hcx : cx.grammar = .standard) (us : List Token) :
    ∀ {ts : List Token} {p : Program}, SpellsStatements ts p → Complete ts →
      ∀ {afterBranch : Bool}, LinkedAfter afterBranch p →
      (sequence cx none afterBranch).run (ts ++ us)
        = (do return p ++ (← sequence cx none
            (p.getLast?.elim afterBranch Statement.opensBranch))).run us
  | _, _, .nil, _, afterBranch, _ => by
    rw [List.nil_append, List.getLast?_nil, Option.elim_none, EStateM.run_bind]
    rcases (sequence cx none afterBranch).run us with ⟨q, rest⟩ | ⟨e, rest⟩
    · rfl
    · rfl
  | _, _, .last h, hcomplete, _, _ => absurd hcomplete h.not_complete
  | _, _, @SpellsStatements.cons ts vs s p h hrest, hcomplete, afterBranch, hlinked => by
    obtain ⟨t, used, hts, -, hhead⟩ := h.exists_head
    obtain ⟨hfirst, hlater⟩ := linkedAfter_cons.mp hlinked
    have hread := run_statement_of_spells hcx h (vs ++ us)
    have hthen := run_sequence_append hcx us hrest hcomplete.right hlater
    rw [List.append_assoc, elim_getLast?_cons]
    rw [hts, List.cons_append] at hread ⊢
    rw [run_sequence_cons (Option.some_ne_none _) (fun hk ↦ hfirst (hhead.mp hk)),
      run_bind_of_ok hread, EStateM.run_bind, hthen, EStateM.run_bind, EStateM.run_bind]
    rcases (sequence cx none (p.getLast?.elim s.opensBranch Statement.opensBranch)).run us
      with ⟨q, rest⟩ | ⟨e, rest⟩
    · rfl
    · rfl

theorem endLine_append (ts : List Token) (hus : us ≠ []) : endLine (ts ++ us) = endLine us := by
  rw [endLine, endLine, List.getLast?_append, List.getLast?_eq_some_getLast hus, Option.some_or]

/-- Behind a complete program any list parses as it does with the flag that the program leaves. -/
theorem parse_append_eq (hp : parse ts = .ok p) (hcomplete : Complete ts) (us : List Token) :
    parse (ts ++ us) = (parseAfter (endsInBranch p) us).map (p ++ ·) := by
  obtain ⟨hspells, hlinked⟩ := parse_eq_ok_iff.mp hp
  have hflag : p.getLast?.elim false Statement.opensBranch = endsInBranch p := by
    rw [endsInBranch]
    cases p.getLast? <;> rfl
  have hrun (cx : Context) (hcx : cx.grammar = .standard) :=
    run_sequence_append hcx us hspells hcomplete (linkedAfter_false_iff.mpr hlinked)
  by_cases hus : us = []
  · subst hus
    rw [List.append_nil, hp]
    exact congrArg Except.ok (List.append_nil p).symm
  · rw [parse, parseAfter, run_program, run_programAfter, endLine_append ts hus, hrun _ rfl, hflag,
      EStateM.run_bind]
    rcases (sequence ⟨.standard, endLine us⟩ none (endsInBranch p)).run us
      with ⟨q, rest⟩ | ⟨e, rest⟩
    · rfl
    · rfl

/-- Parsing commutes with joining. Behind a complete program a list parses as it does by itself, and
so to its program or to exactly its error. If it starts with an `elif` or `else`, it is parsed as the
continuation of a chain where the program ends with an `if` or `elif`, and refused at its first token
elsewhere. -/
theorem parsing_commutes_with_joining (hp : parse ts = .ok p) (hcomplete : Complete ts)
    (us : List Token) :
    (¬ StartsInBranch us → parse (ts ++ us) = (parse us).map (p ++ ·)) ∧
      ∀ t, us.head? = some t → t.kind = .keyElif ∨ t.kind = .keyElse →
        parse (ts ++ us)
          = if endsInBranch p then (parseAfter true us).map (p ++ ·)
            else .error (.danglingBranch t) := by
  have hjoin := parse_append_eq hp hcomplete us
  constructor
  · intro hstart
    rw [hjoin, parseAfter_of_not_startsInBranch hstart]
  · intro t hhead hkind
    rw [hjoin]
    split
    · rename_i hbranch
      rw [hbranch]
    · rename_i hbranch
      rw [Bool.not_eq_true] at hbranch
      rw [hbranch, parseAfter_false, parse_of_startsInBranch hhead hkind]
      rfl

/-- An `else` behind an `if` that lacks its closing brace: the error is that of the second list, and
it points at the line where that one ends. -/
theorem unclosed_else_behind_branch :
    parse [⟨.keyIf, "if", 1⟩, ⟨.leftParen, "(", 1⟩, ⟨.identifier, "a", 1⟩, ⟨.rightParen, ")", 1⟩,
        ⟨.leftBrace, "\x7b", 1⟩, ⟨.rightBrace, "\x7d", 1⟩, ⟨.keyElse, "else", 2⟩,
        ⟨.leftBrace, "\x7b", 2⟩, ⟨.identifier, "b", 3⟩]
      = .error (.unexpectedEnd (.token .rightBrace) 3) := by
  have hp : parse [⟨.keyIf, "if", 1⟩, ⟨.leftParen, "(", 1⟩, ⟨.identifier, "a", 1⟩,
      ⟨.rightParen, ")", 1⟩, ⟨.leftBrace, "\x7b", 1⟩, ⟨.rightBrace, "\x7d", 1⟩]
      = .ok [.ifBranch (.name "a") []] := rfl
  have hjoin := (parsing_commutes_with_joining hp (by decide) [⟨.keyElse, "else", 2⟩,
    ⟨.leftBrace, "\x7b", 2⟩, ⟨.identifier, "b", 3⟩]).2 _ rfl (Or.inr rfl)
  exact hjoin.trans rfl

/-! ## Two programs -/

theorem independent_of_parse (hq : parse us = .ok q) : Independent q := by
  obtain ⟨-, hlinked⟩ := parse_eq_ok_iff.mp hq
  intro s hs
  obtain ⟨after, rfl⟩ := List.head?_eq_some_iff.mp hs
  rw [Bool.eq_false_iff]
  intro hcontinues
  obtain ⟨b, hlast, -⟩ := hlinked [] s after rfl hcontinues
  cases hlast

theorem parse_map_lower (hq : parse us = .ok q) (k : Nat) :
    parse (us.map (Token.lower k)) = .ok q := by
  have hsame : sameTokens us (us.map (Token.lower k)) = true := by
    rw [sameTokens_iff, List.map_map]
    rfl
  rcases parse_of_sameTokens hsame with ⟨p, hp, hlowered⟩ | ⟨e, e', he, -⟩
  · rw [hq] at hp
    cases hp
    exact hlowered
  · rw [hq] at he
    cases he

/-- The tokens of two programs, one after the other, parse to the one followed by the other. The
second does not start with an `elif` or `else`, which would be dangling in it. -/
theorem parse_append (hp : parse ts = .ok p) (hcomplete : Complete ts) (hq : parse us = .ok q)
    (k : Nat) : parse (ts ++ us.map (Token.lower k)) = .ok (p ++ q) := by
  have hlowered := parse_map_lower hq k
  have hstart := not_startsInBranch_of_parse hlowered
  rw [parse_append_eq hp hcomplete, parseAfter_of_not_startsInBranch hstart, hlowered]
  rfl

end Joining

end Scriptlet.Parse
