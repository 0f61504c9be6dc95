import Scriptlet.Eval.Basic

/-!
# Conditional chains

The branches of a conditional chain are separate statements that stand next to each other, and their
evaluation is told by a flag whether a branch before them has been taken. This file gives chains
their plain meaning, as conditionals inside one another, and proves that the flag implements it.

## Grouping

`Statement.group` reads a list of statements as a list in which every chain is a single statement.
A chain starts at an `if`, or at an `elif` or `else` with no open chain in front of it; each `elif`
continues it, an `else` ends it, and any other statement closes it. Where bodies and blocks are
grouped, no chain is open at their beginning.

Grouping goes through a list from its end. What a list means depends on whether a chain is open in
front of it, so grouping it gives a `Continuation`: the branches at its beginning that would continue
an open chain, and the groups behind them.

## Evaluation

A chain evaluates the condition of its first branch and either the body of that branch or the rest of
the chain, so no condition after the first that holds is evaluated and no other body. There is no
flag. The two evaluations are equal as functions of the world, so that they agree in how they end, in
what they print and in the scopes they leave.
-/

namespace Scriptlet

/-! ## Grouping -/

mutual

/-- Statements in which a conditional chain is a single one. The body of a function is grouped when
the function is called. -/
inductive Grouped where
  | declare (name : String) (value : Expr)
  | assign (name : String) (value : Expr)
  | chain (branches : Chain)
  | returns (value : Expr)
  | function (tag : Nat) (name : String) (params : List String) (body : List (Statement Nat))
  | block (body : List Grouped)
  | expression (value : Expr)

/-- Conditionals inside one another: each branch is followed by what happens otherwise. -/
inductive Chain where
  | done
  | otherwise (body : List Grouped)
  | branch (condition : Expr) (body : List Grouped) (rest : Chain)

end

/-- A grouped list as it looks behind an open chain: the branches that continue the chain, and the
groups that follow them. -/
structure Continuation where
  branches : Chain
  groups : List Grouped

/-- The groups of the list if no chain is open. Branches at its beginning are then a chain of their
own. -/
def Continuation.close : Continuation → List Grouped
  | ⟨.done, groups⟩ => groups
  | ⟨branches, groups⟩ => .chain branches :: groups

namespace Continuation

variable (gs : List Grouped)

@[simp]
theorem close_done : close ⟨.done, gs⟩ = gs := rfl

@[simp]
theorem close_otherwise (body : List Grouped) :
    close ⟨.otherwise body, gs⟩ = .chain (.otherwise body) :: gs := rfl

@[simp]
theorem close_branch (condition : Expr) (body : List Grouped) (rest : Chain) :
    close ⟨.branch condition body rest, gs⟩ = .chain (.branch condition body rest) :: gs := rfl

end Continuation

namespace Statement

mutual

/-- A statement in front of a grouped list. -/
def groupOnto (c : Continuation) : Statement Nat → Continuation
  | declare name value => ⟨.done, .declare name value :: c.close⟩
  | assign name value => ⟨.done, .assign name value :: c.close⟩
  | ifBranch condition body =>
    ⟨.done, .chain (.branch condition (groupFrom body).close c.branches) :: c.groups⟩
  | elifBranch condition body =>
    ⟨.branch condition (groupFrom body).close c.branches, c.groups⟩
  | elseBranch body => ⟨.otherwise (groupFrom body).close, c.close⟩
  | returns value => ⟨.done, .returns value :: c.close⟩
  | function tag name params body => ⟨.done, .function tag name params body :: c.close⟩
  | block body => ⟨.done, .block (groupFrom body).close :: c.close⟩
  | expression value => ⟨.done, .expression value :: c.close⟩

/-- The list as it looks behind an open chain. -/
def groupFrom : List (Statement Nat) → Continuation
  | [] => ⟨.done, []⟩
  | s :: rest => groupOnto (groupFrom rest) s

end

/-- The list with its conditional chains as single statements. -/
def group (body : List (Statement Nat)) : List Grouped := (groupFrom body).close

-- An `else` ends its chain, so the `elif` behind it starts another one.
example (e₁ e₂ e₃ : Expr) :
    group [ifBranch e₁ [], elifBranch e₂ [], elseBranch [], elifBranch e₃ [], elseBranch []]
      = [.chain (.branch e₁ [] (.branch e₂ [] (.otherwise []))),
          .chain (.branch e₃ [] (.otherwise []))] := rfl

end Statement

/-! ## Evaluation without a flag -/

namespace Eval

/-- Goes on with `y` unless `x` returns. -/
def andThen (x y : EvalM Completion) : EvalM Completion := do
  match ← x with
  | .returned v => return .returned v
  | .normal => y

section Calls

variable (host : Host) (call : UserFunction → List Value → EvalM Value)

/-- Evaluates the condition and goes on with `x` if it holds and with `y` if not. -/
def choose (condition : Expr) (x y : EvalM Completion) : EvalM Completion := do
  if (← expr host call condition).isTruthy then x else y

mutual

def grouped : Grouped → EvalM Completion
  | .declare name value => do
    let v ← expr host call value
    if ← isDefined name then fail (.redefinition name)
    else
      define name v
      return .normal
  | .assign name value => do
    let v ← expr host call value
    assign name v
    return .normal
  | .chain branches => chain branches
  | .returns value => do
    let v ← expr host call value
    if v.isCallable then fail (.illegalReturn v.type) else return .returned v
  | .function tag name params body => do
    if ← isDefined name then return .normal
    else
      define name (.function { tag, name, params, body })
      return .normal
  | .block body => groups body
  | .expression value => do
    let _ ← expr host call value
    return .normal

/-- Evaluates the body of the first branch whose condition holds. -/
def chain : Chain → EvalM Completion
  | .done => return .normal
  | .otherwise body => groups body
  | .branch condition body rest => choose host call condition (groups body) (chain rest)

def groups : List Grouped → EvalM Completion
  | [] => return .normal
  | g :: rest => andThen (grouped g) (groups rest)

end

end Calls

/-- Calls a script function, with its body grouped, and with at most `depth` calls nested. -/
def callGrouped (host : Host) : Nat → UserFunction → List Value → EvalM Value
  | 0, _, _ => throw .tooDeep
  | depth + 1, f, args =>
    within (.ofPairs (f.params.zip args)) do
      return (← groups host (callGrouped host depth) (Statement.group f.body)).value

/-- Evaluates grouped statements with at most `depth` calls nested. -/
def groupedBlock (host : Host) (depth : Nat) (body : List Grouped) : EvalM Completion :=
  groups host (callGrouped host depth) body

/-! ## The flag implements chains -/

section Sequencing

variable (x y z : EvalM Completion)

theorem pure_normal_andThen : andThen (pure .normal) y = y := by
  rw [andThen, pure_bind]

variable {host : Host} {call : UserFunction → List Value → EvalM Value}

theorem choose_andThen (condition : Expr) :
    andThen (choose host call condition x y) z
      = choose host call condition (andThen x z) (andThen y z) := by
  rw [andThen, choose, choose, bind_assoc]
  refine bind_congr fun v ↦ ?_
  split <;> rfl

theorem groups_close (c : Continuation) :
    groups host call c.close = andThen (chain host call c.branches) (groups host call c.groups) := by
  obtain ⟨branches, gs⟩ := c
  cases branches with
  | done => rw [Continuation.close_done, chain, pure_normal_andThen]
  | otherwise body => rw [Continuation.close_otherwise, groups, grouped]
  | branch condition body rest => rw [Continuation.close_branch, groups, grouped]

end Sequencing

section Lists

variable {host : Host} {call : UserFunction → List Value → EvalM Value}

/-- A statement that leaves the same flag however it ends passes it on to the rest. -/
theorem statements_cons {s : Statement Nat} {x : EvalM Completion} {taken after : Bool}
    (h : statement host call taken s = do return (← x, after)) (rest : List (Statement Nat)) :
    statements host call taken (s :: rest) = andThen x (statements host call after rest) := by
  rw [statements, h, andThen, bind_assoc]
  refine bind_congr fun completion ↦ ?_
  rw [pure_bind]
  cases completion <;> rfl

theorem statements_if (taken : Bool) (condition : Expr) (body rest : List (Statement Nat)) :
    statements host call taken (.ifBranch condition body :: rest)
      = choose host call condition
          (andThen (statements host call false body) (statements host call true rest))
          (statements host call false rest) := by
  rw [statements, statement, choose, bind_assoc]
  refine bind_congr fun v ↦ ?_
  dsimp only
  split
  · rw [andThen, bind_assoc]
    refine bind_congr fun completion ↦ ?_
    rw [pure_bind]
    cases completion <;> rfl
  · rw [pure_bind]

/-- An `elif` with no branch taken before it acts as an `if`. -/
theorem statements_elif (condition : Expr) (body rest : List (Statement Nat)) :
    statements host call false (.elifBranch condition body :: rest)
      = statements host call false (.ifBranch condition body :: rest) := by
  rw [statements, statements, statement, statement, if_neg Bool.false_ne_true]

theorem statements_elif_taken (condition : Expr) (body rest : List (Statement Nat)) :
    statements host call true (.elifBranch condition body :: rest)
      = statements host call true rest := by
  rw [statements, statement, if_pos rfl, pure_bind]

theorem statements_else (body rest : List (Statement Nat)) :
    statements host call false (.elseBranch body :: rest)
      = andThen (statements host call false body) (statements host call false rest) := by
  refine statements_cons ?_ rest
  rw [statement, if_neg Bool.false_ne_true]

theorem statements_else_taken (body rest : List (Statement Nat)) :
    statements host call true (.elseBranch body :: rest) = statements host call false rest := by
  rw [statements, statement, if_pos rfl, pure_bind]

variable (host call) in
/-- The continuation says what the list does with either value of the flag: with no branch taken
its branches are evaluated, and with one taken they are passed over. -/
def Represents (c : Continuation) (body : List (Statement Nat)) : Prop :=
  statements host call false body = groups host call c.close ∧
    statements host call true body = groups host call c.groups

theorem Represents.plain {c : Continuation} {rest : List (Statement Nat)} {s : Statement Nat}
    {g : Grouped} (hrest : Represents host call c rest)
    (h : ∀ taken, statement host call taken s = do return (← grouped host call g, false)) :
    Represents host call ⟨.done, g :: c.close⟩ (s :: rest) := by
  constructor
  · rw [statements_cons (h false), Continuation.close_done, groups, hrest.1]
  · rw [statements_cons (h true), groups, hrest.1]

theorem Represents.chosen {c : Continuation} {rest body : List (Statement Nat)}
    (hrest : Represents host call c rest)
    (hbody : Represents host call (Statement.groupFrom body) body) (taken : Bool)
    (condition : Expr) :
    statements host call taken (.ifBranch condition body :: rest)
      = groups host call
          (.chain (.branch condition (Statement.groupFrom body).close c.branches) :: c.groups) := by
  -- behind a branch that is taken the list goes on without `c.branches`, otherwise with them
  rw [statements_if, groups, grouped, chain, choose_andThen, ← groups_close, hrest.1, hrest.2,
    hbody.1]

mutual

theorem represents_cons (c : Continuation) (rest : List (Statement Nat))
    (hrest : Represents host call c rest) :
    ∀ s : Statement Nat, Represents host call (s.groupOnto c) (s :: rest)
  | .declare name value => by
    refine hrest.plain fun taken ↦ ?_
    rw [statement, grouped, bind_assoc]
    refine bind_congr fun v ↦ ?_
    rw [bind_assoc]
    refine bind_congr fun defined ↦ ?_
    cases defined <;> rfl
  | .assign name value => by
    refine hrest.plain fun taken ↦ ?_
    rw [statement, grouped, bind_assoc]
    refine bind_congr fun v ↦ ?_
    rw [bind_assoc]
    rfl
  | .ifBranch condition body => by
    have hbody := represents_groupFrom body
    constructor
    · rw [Statement.groupOnto, Continuation.close_done, hrest.chosen hbody]
    · rw [Statement.groupOnto, hrest.chosen hbody]
  | .elifBranch condition body => by
    have hbody := represents_groupFrom body
    constructor
    · rw [statements_elif, Statement.groupOnto, Continuation.close_branch, hrest.chosen hbody]
    · rw [statements_elif_taken, Statement.groupOnto, hrest.2]
  | .elseBranch body => by
    have hbody := represents_groupFrom body
    constructor
    · rw [statements_else, Statement.groupOnto, Continuation.close_otherwise, groups, grouped,
        chain, hbody.1, hrest.1]
    · rw [statements_else_taken, Statement.groupOnto, hrest.1]
  | .returns value => by
    refine hrest.plain fun taken ↦ ?_
    rw [statement, grouped, bind_assoc]
    refine bind_congr fun v ↦ ?_
    cases v.isCallable <;> rfl
  | .function tag name params body => by
    refine hrest.plain fun taken ↦ ?_
    rw [statement, grouped, bind_assoc]
    refine bind_congr fun defined ↦ ?_
    cases defined <;> rfl
  | .block body => by
    have hbody := represents_groupFrom body
    refine hrest.plain fun taken ↦ ?_
    rw [statement, grouped, hbody.1]
  | .expression value => by
    refine hrest.plain fun taken ↦ ?_
    rw [statement, grouped, bind_assoc]
    rfl

/-- Grouping says what a list does with either value of the flag. -/
theorem represents_groupFrom :
    ∀ body : List (Statement Nat), Represents host call (Statement.groupFrom body) body
  | [] => ⟨rfl, rfl⟩
  | s :: rest => represents_cons _ rest (represents_groupFrom rest) s

end

end Lists

theorem statements_eq_groups (host : Host) (call : UserFunction → List Value → EvalM Value)
    (body : List (Statement Nat)) :
    statements host call false body = groups host call (Statement.group body) :=
  (represents_groupFrom body).1

theorem callWithin_eq_callGrouped (host : Host) (depth : Nat) :
    callWithin host depth = callGrouped host depth := by
  induction depth with
  | zero => rfl
  | succ depth ih =>
    funext f args
    rw [callWithin, callGrouped, statements_eq_groups, ih]

/-- Carrying a flag along a list of statements gives conditional chains the meaning of conditionals
inside one another, in the list itself and in the body of every function that is called. -/
theorem block_eq_groupedBlock (host : Host) (depth : Nat) :
    (∀ body, block host depth body = groupedBlock host depth (Statement.group body)) ∧
      ∀ f args, callWithin host depth f args = callGrouped host depth f args := by
  constructor
  · intro body
    rw [block, groupedBlock, statements_eq_groups, callWithin_eq_callGrouped]
  · intro f args
    rw [callWithin_eq_callGrouped]

end Eval

end Scriptlet
