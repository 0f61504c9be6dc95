import Scriptlet.Proofs.Parse.Statements

/-!
# Readers that fail as early as they can

A reader goes from left to right and looks one token ahead. If it does so with care, what it has
read when it fails is the beginning of a phrase, and the token in front of it is one that no phrase
has there. This module gives the judgement that says so, and its rules for sequences and lists.

## The judgement

`Recognizes cx p L ts` is about the reader `p` and the set `L` of the token lists that it is meant
to read. If `p` succeeds on `ts`, what it has read belongs to `L`. If it fails, what it has read is
the beginning of a member of `L`, and the error is about the place where it stopped. In both cases
only the next token matters: with any other tokens behind that one the outcome is the same.

## Sequences

The rule for sequences is `Recognizes.bind`. What the first part has read is taken off the set that
the second part is meant to read, so sets need not be products. Where they are, `Recognizes.seq` is
enough.
-/

namespace Scriptlet.Parse

/-- The tokens are the beginning of a member of the set. -/
def Begins (L : List Token → Prop) (ts : List Token) : Prop := ∃ us, L (ts ++ us)

/-- The error is about the first of the tokens, or about their absence. -/
inductive PointsAt (cx : Context) : ParseError → List Token → Prop
  | atEnd (expected : Expected) : PointsAt cx (.unexpectedEnd expected cx.endLine) []
  | unexpected (expected : Expected) (t : Token) (ts : List Token) :
      PointsAt cx (.unexpectedToken expected t) (t :: ts)
  | noTerm (t : Token) (ts : List Token) : PointsAt cx (.noTermRule t) (t :: ts)
  | unknown (t : Token) (ts : List Token) : PointsAt cx (.unknownStatement t) (t :: ts)
  | dangling (t : Token) (ts : List Token) : PointsAt cx (.danglingBranch t) (t :: ts)

/-- The reader reads members of the set, and fails where no member goes on as the tokens do. -/
structure Recognizes {α : Type} (cx : Context) (p : ParseM α) (L : List Token → Prop)
    (ts : List Token) : Prop where
  ok : ∀ a rest, p.run ts = .ok a rest → ∃ used, ts = used ++ rest ∧ L used ∧
    ∀ rest' : List Token, rest'.head? = rest.head? → p.run (used ++ rest') = .ok a rest'
  error : ∀ e rest, p.run ts = .error e rest → ∃ used, ts = used ++ rest ∧ Begins L used ∧
    PointsAt cx e rest ∧
    ∀ rest' : List Token, rest'.head? = rest.head? → p.run (used ++ rest') = .error e rest'

theorem head?_append_congr (us : List Token) {vs ws : List Token} (h : vs.head? = ws.head?) :
    (us ++ vs).head? = (us ++ ws).head? := by
  rw [List.head?_append, List.head?_append, h]

namespace Recognizes

variable {α β : Type} {cx : Context} {p : ParseM α} {f : α → ParseM β}
  {L M N : List Token → Prop} {ts : List Token}

theorem mono (h : Recognizes cx p L ts) (hL : ∀ us, L us → N us) : Recognizes cx p N ts where
  ok a rest hrun := by
    obtain ⟨used, hts, hused, hstable⟩ := h.ok a rest hrun
    exact ⟨used, hts, hL used hused, hstable⟩
  error e rest hrun := by
    obtain ⟨used, hts, ⟨us, hus⟩, hpoints, hstable⟩ := h.error e rest hrun
    exact ⟨used, hts, ⟨us, hL _ hus⟩, hpoints, hstable⟩

theorem of_ok {a : α} (hnil : L [])
    (hrun : ∀ us : List Token, us.head? = ts.head? → p.run us = .ok a us) :
    Recognizes cx p L ts where
  ok b rest h := by
    rw [hrun ts rfl] at h
    cases h
    exact ⟨[], rfl, hnil, hrun⟩
  error e rest h := by
    rw [hrun ts rfl] at h
    cases h

theorem of_error {e : ParseError} (hsome : ∃ us, L us) (hpoints : PointsAt cx e ts)
    (hrun : ∀ us : List Token, us.head? = ts.head? → p.run us = .error e us) :
    Recognizes cx p L ts where
  ok a rest h := by
    rw [hrun ts rfl] at h
    cases h
  error e' rest h := by
    rw [hrun ts rfl] at h
    cases h
    exact ⟨[], rfl, hsome, hpoints, hrun⟩

/-- A reader that goes on as `q` does behind the first tokens. -/
theorem append {q : ParseM α} {w : List Token}
    (h : Recognizes cx q (fun us ↦ L (w ++ us)) ts)
    (hrun : ∀ us : List Token, us.head? = ts.head? → p.run (w ++ us) = q.run us) :
    Recognizes cx p L (w ++ ts) where
  ok a rest hok := by
    rw [hrun ts rfl] at hok
    obtain ⟨used, rfl, hused, hstable⟩ := h.ok a rest hok
    refine ⟨w ++ used, (List.append_assoc _ _ _).symm, hused, fun rest' hrest' ↦ ?_⟩
    rw [List.append_assoc, hrun _ (head?_append_congr used hrest'), hstable rest' hrest']
  error e rest herror := by
    rw [hrun ts rfl] at herror
    obtain ⟨used, rfl, ⟨us, hus⟩, hpoints, hstable⟩ := h.error e rest herror
    refine ⟨w ++ used, (List.append_assoc _ _ _).symm, ⟨us, ?_⟩, hpoints, fun rest' hrest' ↦ ?_⟩
    · rw [List.append_assoc]
      exact hus
    · rw [List.append_assoc, hrun _ (head?_append_congr used hrest'), hstable rest' hrest']

theorem of_run_eq {q : ParseM α} (h : Recognizes cx q L ts)
    (hrun : ∀ us : List Token, us.head? = ts.head? → p.run us = q.run us) :
    Recognizes cx p L ts :=
  append (w := []) h hrun

/-- The rule for sequences. What the first part has read is taken off what the second part is meant
to read; and where the first part fails, its phrases have to be beginnings of those of the whole. -/
theorem bind (hp : Recognizes cx p L ts)
    (hbegins : ∀ used rest, ts = used ++ rest → Begins L used → Begins N used)
    (hf : ∀ a used rest, ts = used ++ rest → L used → p.run ts = .ok a rest →
      Recognizes cx (f a) (fun us ↦ N (used ++ us)) rest) :
    Recognizes cx (p >>= f) N ts where
  ok b rest h := by
    obtain ⟨a, mid, hpa, hfb⟩ := run_bind_eq_ok.mp h
    obtain ⟨used, hts, hused, hstable⟩ := hp.ok a mid hpa
    obtain ⟨used', rfl, hused', hstable'⟩ := (hf a used mid hts hused hpa).ok b rest hfb
    refine ⟨used ++ used', by rw [hts, List.append_assoc], hused', fun rest' hrest' ↦ ?_⟩
    rw [List.append_assoc, run_bind_of_ok (hstable _ (head?_append_congr used' hrest')),
      hstable' rest' hrest']
  error e rest h := by
    rw [EStateM.run_bind] at h
    rcases hrun : p.run ts with ⟨a, mid⟩ | ⟨e', mid⟩
    · rw [hrun] at h
      obtain ⟨used, hts, hused, hstable⟩ := hp.ok a mid hrun
      obtain ⟨used', rfl, ⟨us, hus⟩, hpoints, hstable'⟩ :=
        (hf a used mid hts hused hrun).error e rest h
      refine ⟨used ++ used', by rw [hts, List.append_assoc], ⟨us, ?_⟩, hpoints,
        fun rest' hrest' ↦ ?_⟩
      · rw [List.append_assoc]
        exact hus
      · rw [List.append_assoc, run_bind_of_ok (hstable _ (head?_append_congr used' hrest')),
          hstable' rest' hrest']
    · rw [hrun] at h
      cases h
      obtain ⟨used, hts, hbegin, hpoints, hstable⟩ := hp.error e rest hrun
      refine ⟨used, hts, hbegins used rest hts hbegin, hpoints, fun rest' hrest' ↦ ?_⟩
      rw [EStateM.run_bind, hstable rest' hrest']

theorem map (h : Recognizes cx p L ts) (g : α → β) :
    Recognizes cx (p >>= fun a ↦ pure (g a)) L ts := by
  refine h.bind (fun _ _ _ hbegin ↦ hbegin) fun a used rest _ hused _ ↦ ?_
  refine of_ok (a := g a) ?_ fun us _ ↦ rfl
  rw [List.append_nil]
  exact hused

/-- A reader that goes on as `q` does if the second token is the same, which is of no importance to
`q` itself: it reads the first one whatever follows. -/
theorem of_run_eq_cons {q : ParseM α} {t : Token} {a : α} (h : Recognizes cx q L (t :: ts))
    (hone : q.run [t] = .ok a [])
    (hrun : ∀ us : List Token, us.head? = ts.head? → p.run (t :: us) = q.run (t :: us)) :
    Recognizes cx p L (t :: ts) where
  ok b rest hok := by
    rw [hrun ts rfl] at hok
    obtain ⟨used, hts, hused, hstable⟩ := h.ok b rest hok
    rcases used with _ | ⟨u, used⟩
    · rw [List.nil_append] at hts
      have hstay := hstable [t] (by rw [← hts]; rfl)
      rw [List.nil_append, hone] at hstay
      cases hstay
    · obtain ⟨rfl, rfl⟩ := List.cons.inj hts
      refine ⟨t :: used, rfl, hused, fun rest' hrest' ↦ ?_⟩
      rw [List.cons_append, hrun _ (head?_append_congr used hrest')]
      exact hstable rest' hrest'
  error e rest herror := by
    rw [hrun ts rfl] at herror
    obtain ⟨used, hts, hbegin, hpoints, hstable⟩ := h.error e rest herror
    rcases used with _ | ⟨u, used⟩
    · rw [List.nil_append] at hts
      have hstay := hstable [t] (by rw [← hts]; rfl)
      rw [List.nil_append, hone] at hstay
      cases hstay
    · obtain ⟨rfl, rfl⟩ := List.cons.inj hts
      refine ⟨t :: used, rfl, hbegin, hpoints, fun rest' hrest' ↦ ?_⟩
      rw [List.cons_append, hrun _ (head?_append_congr used hrest')]
      exact hstable rest' hrest'

end Recognizes

/-- The lists that are a member of the one set followed by a member of the other. -/
def Joined (L M : List Token → Prop) (ts : List Token) : Prop :=
  ∃ us vs, ts = us ++ vs ∧ L us ∧ M vs

def OfKind (kind : TokenKind) (ts : List Token) : Prop := ∃ t, ts = [t] ∧ t.kind = kind

section Rules

variable {α β : Type} {cx : Context} {p : ParseM α} {f : α → ParseM β}
  {L M : List Token → Prop} {ts : List Token}

/-- The rule for sequences whose parts do not depend on each other. -/
theorem Recognizes.seq (hp : Recognizes cx p L ts) (hM : ∃ us, M us)
    (hf : ∀ a rest, p.run ts = .ok a rest → Recognizes cx (f a) M rest) :
    Recognizes cx (p >>= f) (Joined L M) ts := by
  refine hp.bind ?_ fun a used rest _ hused hrun ↦ ?_
  · rintro used rest - ⟨us, hus⟩
    obtain ⟨vs, hvs⟩ := hM
    exact ⟨us ++ vs, used ++ us, vs, (List.append_assoc _ _ _).symm, hus, hvs⟩
  · exact (hf a rest hrun).mono fun us hus ↦ ⟨used, us, rfl, hused, hus⟩

theorem exists_ofKind (kind : TokenKind) : ∃ us, OfKind kind us :=
  ⟨[⟨kind, "", 1⟩], _, rfl, rfl⟩

theorem exists_joined (hL : ∃ us, L us) (hM : ∃ us, M us) : ∃ us, Joined L M us := by
  obtain ⟨us, hus⟩ := hL
  obtain ⟨vs, hvs⟩ := hM
  exact ⟨us ++ vs, us, vs, rfl, hus, hvs⟩

theorem recognizes_expect (kind : TokenKind) (ts : List Token) :
    Recognizes cx (expect cx kind) (OfKind kind) ts := by
  rcases ts with _ | ⟨t, ts⟩
  · refine .of_error (exists_ofKind kind) (.atEnd (.token kind)) fun us hus ↦ ?_
    rw [List.head?_eq_none_iff.mp hus, run_expect_nil]
  · by_cases hkind : t.kind = kind
    · refine Recognizes.append (q := pure t) (w := [t]) ?_ fun us _ ↦ ?_
      · exact .of_ok (a := t) ⟨t, rfl, hkind⟩ fun us _ ↦ rfl
      · exact run_expect_eq_ok.mpr ⟨rfl, hkind⟩
    · refine .of_error (exists_ofKind kind) (.unexpected (.token kind) t ts) fun us hus ↦ ?_
      obtain ⟨us, rfl⟩ := List.head?_eq_some_iff.mp hus
      rw [run_expect_cons, if_neg hkind]

theorem recognizes_expectName (ts : List Token) :
    Recognizes cx (expectName cx) (OfKind .identifier) ts :=
  (recognizes_expect .identifier ts).map Token.lexeme

end Rules

/-! ## Lists with commas -/

/-- Items with a comma in front of each, up to the closing token. -/
inductive MoreItems (L : List Token → Prop) (closing : TokenKind) : List Token → Prop
  | close {t : Token} (ht : t.kind = closing) : MoreItems L closing [t]
  | comma {t : Token} {us vs : List Token} (ht : t.kind = .comma) (hus : L us)
      (hvs : MoreItems L closing vs) : MoreItems L closing (t :: (us ++ vs))

/-- Items with commas between them, up to the closing token. -/
def Listed (L : List Token → Prop) (closing : TokenKind) (ts : List Token) : Prop :=
  OfKind closing ts ∨ Joined L (MoreItems L closing) ts

section Lists

variable {α : Type} {R : List Token → α → Prop} {closing : TokenKind}

theorem exists_items_of_moreItems {us vs : List Token} {a : α} (hus : R us a)
    (hvs : MoreItems (fun us ↦ ∃ a, R us a) closing vs) :
    ∃ ws t as, us ++ vs = ws ++ [t] ∧ t.kind = closing ∧ Items R ws (a :: as) := by
  induction hvs generalizing us a with
  | close ht => exact ⟨us, _, [], rfl, ht, .one hus⟩
  | @comma t us' vs ht hus' _ ih =>
    obtain ⟨b, hb⟩ := hus'
    obtain ⟨ws, t', bs, hsplit, ht', hitems⟩ := ih hb
    refine ⟨us ++ t :: ws, t', b :: bs, ?_, ht', .more hus ht hitems⟩
    rw [hsplit]
    simp

theorem exists_items_of_listed {ts : List Token}
    (h : Listed (fun us ↦ ∃ a, R us a) closing ts) :
    ∃ ws t as, ts = ws ++ [t] ∧ t.kind = closing ∧ Items R ws as := by
  rcases h with ⟨t, rfl, ht⟩ | ⟨us, vs, rfl, ⟨a, hus⟩, hvs⟩
  · exact ⟨[], t, [], rfl, ht, .nil⟩
  · obtain ⟨ws, t, as, hsplit, ht, hitems⟩ := exists_items_of_moreItems hus hvs
    exact ⟨ws, t, a :: as, hsplit, ht, hitems⟩

def furtherItems (cx : Context) (item : ParseM α) (closing : TokenKind) : ParseM (List α) := do
  moreItems cx item closing (← get).length

def listed (cx : Context) (item : ParseM α) (closing : TokenKind) : ParseM (List α) := do
  items cx item closing (← get).length

variable {cx : Context} {item : ParseM α} {L : List Token → Prop} {t : Token} {ts : List Token}

theorem run_furtherItems_nil :
    (furtherItems cx item closing).run []
      = .error (.unexpectedEnd (.commaOr closing) cx.endLine) [] := rfl

theorem run_furtherItems_close (ht : t.kind = closing) (hne : closing ≠ .comma) :
    (furtherItems cx item closing).run (t :: ts) = .ok [] ts := by
  rw [furtherItems, run_bind_of_ok (EStateM.run_get _), List.length_cons,
    run_moreItems_close ht hne]

theorem run_furtherItems_other (hcomma : t.kind ≠ .comma) (hclose : t.kind ≠ closing) :
    (furtherItems cx item closing).run (t :: ts)
      = .error (.unexpectedToken (.commaOr closing) t) (t :: ts) := by
  rw [furtherItems, run_bind_of_ok (EStateM.run_get _), List.length_cons,
    run_moreItems_other hcomma hclose]

variable (hitem : ∀ r : List Token, Agree 1 item item r)

include hitem

theorem agree_furtherItems {b : Nat} (hb : ts.length ≤ b) :
    Agree 1 (moreItems cx item closing b) (furtherItems cx item closing) ts :=
  (agree_moreItems (fun r _ ↦ (hitem r).loosen) (Nat.le_refl _) hb (Nat.le_refl _)).of_run_eq
    rfl rfl

theorem run_furtherItems_comma (ht : t.kind = .comma) :
    (furtherItems cx item closing).run (t :: ts)
      = (do
          let x ← item
          let xs ← furtherItems cx item closing
          return x :: xs).run ts := by
  rw [furtherItems, run_bind_of_ok (EStateM.run_get _), List.length_cons, run_moreItems_comma ht]
  refine ((hitem ts).bind fun x rest _ hrest ↦ ?_).run_eq
  exact ((agree_furtherItems hitem (by omega)).bind fun _ _ _ _ ↦ agree_pure _ _).loosen

theorem run_listed (ts : List Token) :
    (listed cx item closing).run ts
      = if ts.head?.map Token.kind = some closing then .ok [] ts.tail
        else (do
          let x ← item
          let xs ← furtherItems cx item closing
          return x :: xs).run ts := by
  rw [listed, run_bind_of_ok (EStateM.run_get _), items, run_bind_of_ok (run_peekKind _)]
  split
  · rfl
  · refine ((hitem ts).bind fun x rest _ hrest ↦ ?_).run_eq
    exact ((agree_furtherItems hitem (by omega)).bind fun _ _ _ _ ↦ agree_pure _ _).loosen

theorem recognizes_furtherItems (hne : closing ≠ .comma) {n : Nat}
    (hread : ∀ r : List Token, r.length < n → Recognizes cx item L r) (hn : ts.length ≤ n) :
    Recognizes cx (furtherItems cx item closing) (MoreItems L closing) ts := by
  have hsome : ∃ us, MoreItems L closing us := ⟨[⟨closing, "", 1⟩], .close rfl⟩
  induction hlength : ts.length using Nat.strongRecOn generalizing ts with
  | _ m ih =>
  rcases ts with _ | ⟨t, ts⟩
  · refine .of_error hsome (.atEnd (.commaOr closing)) fun us hus ↦ ?_
    rw [List.head?_eq_none_iff.mp hus, run_furtherItems_nil]
  rw [List.length_cons] at hn hlength
  by_cases hcomma : t.kind = .comma
  · refine Recognizes.append (w := [t]) ?_ fun us _ ↦ run_furtherItems_comma hitem hcomma
    refine ((hread ts (by omega)).seq hsome fun x rest hx ↦ ?_).mono ?_
    · have hshort := ((hitem ts).reads x rest hx).2
      exact (ih rest.length (by omega) (by omega) rfl).map (x :: ·)
    · rintro us ⟨vs, ws, rfl, hvs, hws⟩
      show MoreItems L closing (t :: (vs ++ ws))
      exact .comma hcomma hvs hws
  by_cases hclose : t.kind = closing
  · refine Recognizes.append (w := [t]) (q := pure []) ?_ fun us _ ↦
      run_furtherItems_close hclose hne
    exact .of_ok (.close hclose) fun us _ ↦ rfl
  · refine .of_error hsome (.unexpected (.commaOr closing) t ts) fun us hus ↦ ?_
    obtain ⟨us, rfl⟩ := List.head?_eq_some_iff.mp hus
    exact run_furtherItems_other hcomma hclose

theorem recognizes_listed (hne : closing ≠ .comma)
    (hread : ∀ r : List Token, r.length ≤ ts.length → Recognizes cx item L r) :
    Recognizes cx (listed cx item closing) (Listed L closing) ts := by
  by_cases hhead : ts.head?.map Token.kind = some closing
  · obtain ⟨t, ht, hclose⟩ := Option.map_eq_some_iff.mp hhead
    obtain ⟨ts, rfl⟩ := List.head?_eq_some_iff.mp ht
    refine Recognizes.append (w := [t]) (q := pure []) ?_ fun us _ ↦ ?_
    · exact .of_ok (Or.inl ⟨t, rfl, hclose⟩) fun us _ ↦ rfl
    · rw [run_listed hitem, if_pos (by simp [hclose])]
      rfl
  · have hsome : ∃ us, MoreItems L closing us := ⟨[⟨closing, "", 1⟩], .close rfl⟩
    have hrun : ∀ us : List Token, us.head? = ts.head? → (listed cx item closing).run us
        = (do
            let x ← item
            let xs ← furtherItems cx item closing
            return x :: xs).run us := by
      intro us hus
      rw [run_listed hitem, hus, if_neg hhead]
    refine Recognizes.of_run_eq ?_ hrun
    refine ((hread ts (Nat.le_refl _)).seq hsome fun x rest hx ↦ ?_).mono fun us hus ↦ Or.inr hus
    have hshort := ((hitem ts).reads x rest hx).2
    refine (recognizes_furtherItems hitem hne (n := ts.length) ?_ (by omega)).map (x :: ·)
    exact fun r hr ↦ hread r (Nat.le_of_lt hr)

end Lists

end Scriptlet.Parse
