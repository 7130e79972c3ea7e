import TypedLowering.Proofs.JavaScript.Evaluation
import TypedLowering.Proofs.Printing.Branching

/-!
# Dropping dead statements

To leave out the dead statements changes nothing of what a program does, and the conditional
statements that are printed are read as they were meant (`deadStatements_dropped`).
-/

namespace TypedLowering

open JavaScript in
/-- On a machine where constants, identifiers and empty objects do nothing, a list of statements
runs as its live statements do, also if the lists in it are cut down to their live statements, as
they are when it is printed. What is dropped is an expression without any effects in it, and the
rest keeps its order. A conditional has an `else` exactly if something after it is live, and can
only be read as what the statement does. -/
theorem deadStatements_dropped {M : Control.Machine StmtForm Expr} (hM : IgnoresInert M)
    (sep : Separator) (stmts : List Stmt) :
    Control.runAll M (flows (live stmts)) = Control.runAll M (flows stmts) ∧
    Control.runAll M (flows (prunedAll stmts)) = Control.runAll M (flows stmts) ∧
    stmtsPieces sep (prunedAll stmts) = stmtsPieces sep stmts ∧
    (∀ s ∈ stmts, s ∉ live stmts ↔
      ∃ e, s.form = .expr e ∧ ∀ x, e.Contains x → x.form.isInert = true) ∧
    (live stmts).Sublist stmts ∧
    (live stmts).length = stmts.countP (fun s => !s.isDead) ∧
    stmtsPieces sep stmts = Layout.stmtLines sep false ((live stmts).map (·.pieces sep)) ∧
    ∀ loc test thenStmts elseStmts, ∃ c,
      IsChain ⟨loc, .ifElse test thenStmts elseStmts⟩ c ∧
      Stmt.pieces sep ⟨loc, .ifElse test thenStmts elseStmts⟩ = c.pieces sep ∧
      (.otherwise ∈ c.clauses ↔ live elseStmts ≠ []) ∧
      (∀ rest : List Clause, rest.head? ≠ some .otherwise → ∀ b rest',
        Reads (c.clauses ++ rest) b rest' ↔ b = c.tree ∧ rest' = rest) ∧
      ∀ labels, c.tree.flow.run M labels =
        (Stmt.flow ⟨loc, .ifElse test thenStmts elseStmts⟩).run M labels := by
  refine ⟨hM.runAll_live stmts, hM.runAll_prunedAll stmts, stmtsPieces_prunedAll sep stmts,
    fun s hs => (not_mem_live_iff hs).trans s.isDead_iff, List.filter_sublist,
    List.countP_eq_length_filter.symm, stmtsPieces_eq sep stmts, ?_⟩
  intro loc test thenStmts elseStmts
  obtain ⟨c, hc⟩ := IsChain.exists_chain loc test thenStmts elseStmts
  exact ⟨c, hc, hc.pieces_eq sep, hc.otherwise_mem_iff,
    fun _ hrest b rest' => c.reads_iff hrest b rest', hc.run_tree hM⟩

/-! ## Calls on a machine of traces -/

namespace JavaScript

open Control

/-- The machine that writes down the calls of expressions. Reads of variables are not written
down. -/
def callTrace : Machine StmtForm Expr where
  State := List Event
  step code a ok b :=
    match code with
    | .expr e => ok = true ∧ e.run (World.trace []) a .normal b
    | _ => ok = true ∧ b = a
  test e a r b := r.isSome ∧ e.run (World.trace []) a .normal b
  start _ a ok b := ok = true ∧ b = a
  next _ a r b := r.isSome ∧ b = a
  pick _ _ a r b := r = some none ∧ b = a
  catches _ a b := b = a
  pick_tests h := nomatch h.1

theorem callTrace_ignores {e : Expr} (h : e.run (World.trace []) = .exit .normal) :
    Ignores callTrace e := by
  intro a ok b
  show ok = true ∧ e.run (World.trace []) a .normal b ↔ _
  rw [h]
  exact and_congr_right fun _ => and_iff_right rfl

theorem callTrace_ignoresInert : IgnoresInert callTrace where
  literal _ _ := callTrace_ignores rfl
  ident _ _ := callTrace_ignores (World.does_of_ignores (World.trace_ignores rfl))
  emptyObject _ := callTrace_ignores rfl
  void _ _ _ _ _ := Iff.rfl

/-- The call of a function without arguments. -/
def callTo (name : String) : Stmt := .expr (.call (.ident name) [])

/-- What stands after an `else`: `void x; if (d) { }` -/
def voidThenTest : List Stmt :=
  [.expr (.unary .void (.ident "x")), .of (.ifElse (.ident "d") [] [])]

/-- `x; f(); if (c) { f(); } else { void x; if (d) { } }` -/
def mixedStmts : List Stmt :=
  [.expr (.ident "x"), callTo "f", .of (.ifElse (.ident "c") [callTo "f"] voidThenTest)]

end JavaScript

open JavaScript in
/-- The identifier is dropped, and so is the `void` in front of the second test, which is still
printed after an `else`. -/
theorem mixedStmts_live :
    IgnoresInert callTrace ∧ live mixedStmts = mixedStmts.tail ∧
    Control.runAll callTrace (flows mixedStmts.tail) = Control.runAll callTrace (flows mixedStmts) ∧
    ∃ c : Chain, Clause.otherwise ∈ c.clauses ∧
      Stmt.pieces .semicolons (.of (.ifElse (.ident "c") [callTo "f"] voidThenTest)) =
        c.pieces .semicolons := by
  obtain ⟨hrun, -, -, -, -, -, -, hchain⟩ :=
    deadStatements_dropped callTrace_ignoresInert .semicolons mixedStmts
  obtain ⟨c, -, hpieces, helse, -, -⟩ := hchain none (.ident "c") [callTo "f"] voidThenTest
  exact ⟨callTrace_ignoresInert, rfl, hrun, c, helse.2 nofun, hpieces⟩

end TypedLowering
