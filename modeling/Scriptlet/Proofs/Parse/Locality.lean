import Scriptlet.Proofs.Parse.FirstError
import Scriptlet.Proofs.Parse.Lines

/-!
# What a phrase depends on

A phrase that has been read depends on its own tokens and on the one behind them. What stands in
front of it does not matter, nor does what follows further on, nor the line on which the tokens end.

Three facts about a reader go into this. It looks no further than the token at which it stops
(`Recognizes.ok`). The line of the end goes into errors only, so that a success is the same with any
other (`LineBlind`). And a success has read a token (`Agree`), so that the token at which it stops
is not the one at which it started.
-/

namespace Scriptlet.Parse

variable {α : Type}

/-! ## Successes and the line of the end -/

/-- Readers that differ in lines only succeed with the same result and at the same place. -/
theorem LineBlind.run_eq_ok {p q : ParseM α} {ts rest : List Token} {a : α}
    (h : LineBlind Eq p q) (hp : Agree 0 p p ts) (hq : Agree 0 q q ts)
    (hrun : p.run ts = .ok a rest) : q.run ts = .ok a rest := by
  have hboth : EndsAlike ts ts (p.run ts) (q.run ts) :=
    h.endsAlike (n := 0) (sameTokens_iff.mpr rfl) hp hq
  rw [hrun] at hboth
  rcases hq' : q.run ts with ⟨b, rest'⟩ | ⟨e, rest'⟩ <;> rw [hq'] at hboth
  · obtain ⟨rfl, k, -, rfl, rfl⟩ := hboth
    rfl
  · exact hboth.elim

/-! ## Places -/

/-- A list that has the tokens of another from the place `p` on, as far as they are `used` and for
one more. -/
theorem drop_eq_append_of_getElem?_eq {tokens tokens' used rest : List Token} {p : Nat}
    (hdrop : tokens.drop p = used ++ rest) (hne : used ≠ [])
    (h : ∀ i, p ≤ i → i ≤ p + used.length → tokens'[i]? = tokens[i]?) :
    p + used.length ≤ tokens'.length ∧ tokens'.drop p = used ++ tokens'.drop (p + used.length) ∧
      (tokens'.drop (p + used.length)).head? = rest.head? := by
  have hpos := List.length_pos_iff.mpr hne
  have htake : (tokens'.drop p).take used.length = used := by
    refine List.ext_getElem? fun i ↦ ?_
    by_cases hi : i < used.length
    · rw [List.getElem?_take_of_lt hi, List.getElem?_drop, h (p + i) (by omega) (by omega),
        ← List.getElem?_drop, hdrop, List.getElem?_append_left hi]
    · rw [List.getElem?_take_eq_none (by omega), List.getElem?_eq_none (by omega)]
  have hlength : used.length ≤ tokens'.length - p := by
    have hmin := congrArg List.length htake
    rw [List.length_take, List.length_drop] at hmin
    omega
  refine ⟨by omega, ?_, ?_⟩
  · have hsplit := List.take_append_drop used.length (tokens'.drop p)
    rw [htake, List.drop_drop] at hsplit
    exact hsplit.symm
  · rw [List.head?_drop, h _ (by omega) (Nat.le_refl _), ← (ends_of_drop_eq hdrop hne).2]

/-- Reading from the place `p` on gives `a` and stops at the place `q`. -/
def StopsAt (reader : Context → ParseM α) (tokens : List Token) (p : Nat) (a : α) (q : Nat) :
    Prop :=
  q ≤ tokens.length ∧
    (reader ⟨.standard, endLine tokens⟩).run (tokens.drop p) = .ok a (tokens.drop q)

/-- A success stops behind the place where it started, and it is the same on every list that has the
same tokens in between and the same token, or none, where it stopped. -/
def IsLocal (reader : Context → ParseM α) : Prop :=
  ∀ tokens p a rest, (reader ⟨.standard, endLine tokens⟩).run (tokens.drop p) = .ok a rest →
    ∃ q, p < q ∧ rest = tokens.drop q ∧ StopsAt reader tokens p a q ∧
      ∀ tokens', (∀ i, p ≤ i → i ≤ q → tokens'[i]? = tokens[i]?) → StopsAt reader tokens' p a q

theorem isLocal_of_recognizes {reader : Context → ParseM α} {L : List Token → Prop}
    (hreads : ∀ cx ts, Agree 1 (reader cx) (reader cx) ts)
    (hblind : ∀ l l', LineBlind Eq (reader ⟨.standard, l⟩) (reader ⟨.standard, l'⟩))
    (hknows : ∀ l ts, Recognizes ⟨.standard, l⟩ (reader ⟨.standard, l⟩) L ts) :
    IsLocal reader := by
  intro tokens p a rest hrun
  obtain ⟨used, hdrop, -, hstable⟩ := (hknows _ _).ok a rest hrun
  have hlength : used.length + rest.length = tokens.length - p := by
    rw [← List.length_append, ← hdrop, List.length_drop]
  have hshort := ((hreads _ _).reads a rest hrun).2
  rw [List.length_drop] at hshort
  have hne : used ≠ [] := List.length_pos_iff.mp (by omega)
  have hrest : rest = tokens.drop (p + used.length) := by
    rw [← List.drop_drop, hdrop, List.drop_left]
  refine ⟨p + used.length, by omega, hrest, ⟨by omega, hrest ▸ hrun⟩, fun tokens' hsame ↦ ?_⟩
  obtain ⟨hle, hdrop', hhead⟩ := drop_eq_append_of_getElem?_eq hdrop hne hsame
  have hstop := hstable _ hhead
  rw [← hdrop'] at hstop
  exact ⟨hle, (hblind _ _).run_eq_ok (hreads _ _).loosen (hreads _ _).loosen hstop⟩

/-! ## Phrases -/

/-- Reading is local: an expression at any precedence, a statement and a block depend on the tokens
that are read and on the next one. -/
theorem reading_is_local :
    (∀ min, IsLocal fun cx ↦ expression cx min) ∧ IsLocal statement ∧ IsLocal block := by
  refine ⟨fun min ↦ ?_, ?_, ?_⟩
  · exact isLocal_of_recognizes (fun cx ts ↦ agree_expression_self min ts)
      (fun l l' ↦ lineBlind_expression min) fun l ts ↦ recognizes_expression rfl min ts
  · exact isLocal_of_recognizes (fun cx ts ↦ (agree_statement (Nat.le_refl _)).right)
      (fun l l' ↦ lineBlind_statement) fun l ts ↦
        recognizes_statement_below rfl ts (Nat.lt_succ_self _)
  · exact isLocal_of_recognizes (fun cx ts ↦ (agree_block (Nat.le_succ _)).right)
      (fun l l' ↦ lineBlind_block) fun l ts ↦
        recognizes_block rfl (recognizes_statement_below rfl) (Nat.le_refl _)

end Scriptlet.Parse
