import TypedLowering.Proofs.JavaScript.Elision

/-!
# How conditional statements are read

A conditional statement is printed as a chain of tests, each with a branch in braces, and an `else`
in front of what is left (`IsChain.pieces`). The grammar lets a test be followed by any statement
and gives an `else` to the closest test that can have it (`Reads`). So a chain is read in one way
only (`Chain.reads_iff`), and that runs as the statement does (`IsChain.run_tree`). -/

namespace TypedLowering.JavaScript

open Ir (Location)
open Layout (mark)
open Control (Flow Machine runAll Runs)

/-! ## The grammar of conditional statements -/

/-- What conditional statements are made of: tests, branches in braces, and the word `else`. -/
inductive Clause where
  | head (loc : Option Location) (test : Expr)
  | block (stmts : List Stmt)
  | otherwise

/-- The pieces of a clause. -/
def Clause.pieces (sep : Separator) : Clause → List Piece
  | .head loc test => mark loc ++ .text "if (" :: test.pieces sep ++ [.text ") "]
  | .block stmts => blockPieces sep stmts
  | .otherwise => [.text " else "]

/-- A statement that clauses derive. -/
inductive Branching where
  | block (stmts : List Stmt)
  | ifThen (loc : Option Location) (test : Expr) (body : Branching)
  | ifElse (loc : Option Location) (test : Expr) (body alternative : Branching)

/-- The reading of a statement off some clauses, and the clauses after it. A test without `else` is
not followed by one. -/
inductive Reads : List Clause → Branching → List Clause → Prop
  | block (stmts : List Stmt) (rest : List Clause) :
    Reads (.block stmts :: rest) (.block stmts) rest
  | ifThen (loc : Option Location) (test : Expr) {cs rest : List Clause} {body : Branching}
      (hbody : Reads cs body rest) (hrest : rest.head? ≠ some .otherwise) :
      Reads (.head loc test :: cs) (.ifThen loc test body) rest
  | ifElse (loc : Option Location) (test : Expr) {cs ds rest : List Clause}
      {body alternative : Branching} (hbody : Reads cs body (.otherwise :: ds))
      (halternative : Reads ds alternative rest) :
      Reads (.head loc test :: cs) (.ifElse loc test body alternative) rest

/-- There is at most one way to read a statement. -/
theorem Reads.unique {cs rest rest' : List Clause} {b b' : Branching} (h : Reads cs b rest)
    (h' : Reads cs b' rest') : b' = b ∧ rest' = rest := by
  induction h generalizing b' rest' with
  | block =>
    cases h'
    exact ⟨rfl, rfl⟩
  | ifThen loc test hbody hrest ih =>
    cases h' with
    | ifThen _ _ hbody' _ =>
      obtain ⟨rfl, rfl⟩ := ih hbody'
      exact ⟨rfl, rfl⟩
    | ifElse _ _ hbody' _ =>
      obtain ⟨-, rfl⟩ := ih hbody'
      exact absurd rfl hrest
  | ifElse loc test hbody halternative ihbody ihalternative =>
    cases h' with
    | ifThen _ _ hbody' hrest' =>
      obtain ⟨-, rfl⟩ := ihbody hbody'
      exact absurd rfl hrest'
    | ifElse _ _ hbody' halternative' =>
      obtain ⟨rfl, hds⟩ := ihbody hbody'
      obtain rfl := (List.cons.inj hds).2
      obtain ⟨rfl, rfl⟩ := ihalternative halternative'
      exact ⟨rfl, rfl⟩

/-- The control flow of a statement that was read. -/
def Branching.flow : Branching → Flow StmtForm Expr
  | .block stmts => .block (flows stmts)
  | .ifThen _ test body => .choose test [body.flow] []
  | .ifElse _ test body alternative => .choose test [body.flow] [alternative.flow]

/-! ## Chains of conditionals -/

/-- A chain of tests with their branches in braces. -/
inductive Chain where
  | ifThen (loc : Option Location) (test : Expr) (thenStmts : List Stmt)
  | ifElse (loc : Option Location) (test : Expr) (thenStmts elseStmts : List Stmt)
  | elseIf (loc : Option Location) (test : Expr) (thenStmts : List Stmt) (chained : Chain)

namespace Chain

/-- The clauses of a chain, from left to right. -/
def clauses : Chain → List Clause
  | .ifThen loc test thenStmts => [.head loc test, .block thenStmts]
  | .ifElse loc test thenStmts elseStmts =>
    [.head loc test, .block thenStmts, .otherwise, .block elseStmts]
  | .elseIf loc test thenStmts chained =>
    .head loc test :: .block thenStmts :: .otherwise :: chained.clauses

/-- How a chain is meant. -/
def tree : Chain → Branching
  | .ifThen loc test thenStmts => .ifThen loc test (.block thenStmts)
  | .ifElse loc test thenStmts elseStmts => .ifElse loc test (.block thenStmts) (.block elseStmts)
  | .elseIf loc test thenStmts chained => .ifElse loc test (.block thenStmts) chained.tree

/-- The pieces of a chain: those of its clauses. -/
def pieces (sep : Separator) (c : Chain) : List Piece :=
  c.clauses.flatMap (·.pieces sep)

theorem reads_tree {rest : List Clause} (hrest : rest.head? ≠ some .otherwise) (c : Chain) :
    Reads (c.clauses ++ rest) c.tree rest := by
  induction c with
  | ifThen loc test thenStmts => exact .ifThen loc test (.block thenStmts rest) hrest
  | ifElse loc test thenStmts elseStmts =>
    exact .ifElse loc test (.block thenStmts _) (.block elseStmts rest)
  | elseIf loc test thenStmts chained ih => exact .ifElse loc test (.block thenStmts _) ih

/-- A chain is read as what it stands for, and as nothing else. -/
theorem reads_iff {rest : List Clause} (hrest : rest.head? ≠ some .otherwise) (c : Chain)
    (b : Branching) (rest' : List Clause) :
    Reads (c.clauses ++ rest) b rest' ↔ b = c.tree ∧ rest' = rest := by
  refine ⟨(c.reads_tree hrest).unique, ?_⟩
  rintro ⟨rfl, rfl⟩
  exact c.reads_tree hrest

end Chain

/-- Whether a statement is printed as a chain. What is dead makes no `else`, and a conditional that
is left alone after an `else` goes on with the chain. -/
inductive IsChain : Stmt → Chain → Prop
  | ifThen {loc : Option Location} {test : Expr} {thenStmts elseStmts : List Stmt}
      (hlive : live elseStmts = []) :
      IsChain ⟨loc, .ifElse test thenStmts elseStmts⟩ (.ifThen loc test thenStmts)
  | elseIf {loc : Option Location} {test : Expr} {thenStmts elseStmts : List Stmt} {s : Stmt}
      {chained : Chain} (hlive : live elseStmts = [s]) (hchained : IsChain s chained) :
      IsChain ⟨loc, .ifElse test thenStmts elseStmts⟩ (.elseIf loc test thenStmts chained)
  | ifElse {loc : Option Location} {test : Expr} {thenStmts elseStmts : List Stmt}
      (hlive : live elseStmts ≠ [])
      (hother : ∀ s, live elseStmts = [s] → ¬ s.isConditional = true) :
      IsChain ⟨loc, .ifElse test thenStmts elseStmts⟩ (.ifElse loc test thenStmts elseStmts)

theorem livePieces_of_live_eq_nil {sep : Separator} {stmts : List Stmt} (h : live stmts = []) :
    livePieces sep stmts = [] := by
  rw [livePieces_eq, h, List.map_nil]

theorem elsePieces_chained (sep : Separator) {stmts : List Stmt} {s : Stmt} (h : live stmts = [s])
    (hs : s.isConditional = true) :
    elsePieces sep (livePieces sep stmts) = .text " else " :: s.pieces sep := by
  rw [livePieces_eq, h, List.map_singleton, hs, elsePieces]

theorem elsePieces_block (sep : Separator) {stmts : List Stmt} (h : live stmts ≠ [])
    (hother : ∀ s, live stmts = [s] → ¬ s.isConditional = true) :
    elsePieces sep (livePieces sep stmts) = .text " else " :: blockPieces sep stmts := by
  rw [elsePieces.eq_def, blockPieces]
  split
  next hnil =>
    rw [livePieces_eq] at hnil
    exact absurd (List.map_eq_nil_iff.1 hnil) h
  next chained hchained =>
    rw [livePieces_eq] at hchained
    obtain ⟨s, hs, hpair⟩ := List.map_eq_singleton_iff.1 hchained
    exact absurd (Prod.mk.inj hpair).1 (hother s hs)
  next => rfl

namespace IsChain

theorem isConditional {s : Stmt} {c : Chain} (h : IsChain s c) : s.isConditional = true := by
  cases h <;> rfl

/-- Every conditional statement is a chain. -/
theorem exists_chain (loc : Option Location) (test : Expr) (thenStmts elseStmts : List Stmt) :
    ∃ c, IsChain ⟨loc, .ifElse test thenStmts elseStmts⟩ c := by
  by_cases hempty : live elseStmts = []
  · exact ⟨_, .ifThen hempty⟩
  by_cases hother : ∀ s, live elseStmts = [s] → ¬ s.isConditional = true
  · exact ⟨_, .ifElse hempty hother⟩
  push Not at hother
  obtain ⟨⟨loc', form⟩, hlive, hconditional⟩ := hother
  cases form with
  | ifElse test' thenStmts' elseStmts' =>
    have hmem : ⟨loc', .ifElse test' thenStmts' elseStmts'⟩ ∈ elseStmts :=
      (List.mem_filter.1 (hlive ▸ List.mem_singleton_self _ : _ ∈ live elseStmts)).1
    obtain ⟨c, hc⟩ := exists_chain loc' test' thenStmts' elseStmts'
    exact ⟨_, .elseIf hlive hc⟩
  | _ => cases hconditional
termination_by sizeOf elseStmts
decreasing_by
  have := List.sizeOf_lt_of_mem hmem
  simp only [Stmt.mk.sizeOf_spec, StmtForm.ifElse.sizeOf_spec] at this
  omega

/-- What is printed of a chain. -/
theorem pieces_eq (sep : Separator) {s : Stmt} {c : Chain} (h : IsChain s c) :
    s.pieces sep = c.pieces sep := by
  induction h with
  | ifThen hlive =>
    rw [Stmt.pieces, StmtForm.pieces, livePieces_of_live_eq_nil hlive]
    simp [StmtForm.ownMark, Chain.pieces, Chain.clauses, Clause.pieces, blockPieces, elsePieces]
  | elseIf hlive hchained ih =>
    rw [Stmt.pieces, StmtForm.pieces, elsePieces_chained sep hlive hchained.isConditional, ih]
    simp [StmtForm.ownMark, Chain.pieces, Chain.clauses, Clause.pieces, blockPieces]
  | ifElse hlive hother =>
    rw [Stmt.pieces, StmtForm.pieces, elsePieces_block sep hlive hother]
    simp [StmtForm.ownMark, Chain.pieces, Chain.clauses, Clause.pieces, blockPieces]

/-- There is an `else` exactly if something is live after it. -/
theorem otherwise_mem_iff {loc : Option Location} {test : Expr} {thenStmts elseStmts : List Stmt}
    {c : Chain} (h : IsChain ⟨loc, .ifElse test thenStmts elseStmts⟩ c) :
    .otherwise ∈ c.clauses ↔ live elseStmts ≠ [] := by
  cases h with
  | ifThen hlive => simp [Chain.clauses, hlive]
  | elseIf hlive => simp [Chain.clauses, hlive]
  | ifElse hlive => simp [Chain.clauses, hlive]

variable {M : Machine StmtForm Expr}

/-- A chain runs as the statement does. -/
theorem run_tree (hM : IgnoresInert M) {s : Stmt} {c : Chain} (h : IsChain s c)
    (labels : List String) : c.tree.flow.run M labels = s.flow.run M labels := by
  induction h generalizing labels with
  | @ifThen loc test thenStmts elseStmts hlive =>
    calc (Chain.ifThen loc test thenStmts).tree.flow.run M labels
      _ = .branch (M.test test) (runAll M (flows thenStmts)) (runAll M []) :=
        congrArg (Runs.branch (M.test test) · _) (Control.runAll_singleton M _)
      _ = .branch (M.test test) (runAll M (flows thenStmts)) (runAll M (flows elseStmts)) := by
        rw [← hM.runAll_live elseStmts, hlive, flows_nil]
  | @elseIf loc test thenStmts elseStmts s chained hlive hchained ih =>
    calc (Chain.elseIf loc test thenStmts chained).tree.flow.run M labels
      _ = .branch (M.test test) (runAll M (flows thenStmts)) (s.flow.run M []) := by
        rw [← ih []]
        exact congrArg₂ (Runs.branch (M.test test)) (Control.runAll_singleton M _)
          (Control.runAll_singleton M _)
      _ = .branch (M.test test) (runAll M (flows thenStmts)) (runAll M (flows elseStmts)) := by
        rw [← hM.runAll_live elseStmts, hlive, flows_cons, flows_nil, Control.runAll_singleton]
  | ifElse =>
    exact congrArg₂ (Runs.branch (M.test _)) (Control.runAll_singleton M _)
      (Control.runAll_singleton M _)

end IsChain

end TypedLowering.JavaScript
