import TypedLowering.Proofs.JavaScript.Flow
import TypedLowering.Proofs.Printing.Streaming

/-!
# Dead statements

A statement is dead if it is an expression that consists of constants, identifiers, empty objects
and `void` only (`Stmt.isDead_iff`). On a machine where these do nothing, a list of statements runs
as its live statements do (`runAll_live`), and so does it without the dead statements of the lists
in it (`runAll_prunedAll`). These are what is printed of it (`stmtsPieces_prunedAll`).
-/

namespace TypedLowering.JavaScript

open Control (Machine runAll Runs)

/-! ## What is dead -/

/-- The expressions that a member evaluates when its object is made. -/
def MemberValue.operands : MemberValue → List Expr
  | .value e => [e]
  | .method _ | .getter _ | .setter _ => []

/-- The expressions that an expression is made of. Functions are not opened. -/
def ExprForm.operands : ExprForm → List Expr
  | .ident _ | .this | .literal _ | .function _ => []
  | .array items | .sequence items | .emit _ items => items
  | .object members => members.flatMap (·.value.operands)
  | .unary _ operand | .spread operand | .member operand _ => [operand]
  | .binary _ left right | .index left right => [left, right]
  | .conditional test thenExpr elseExpr => [test, thenExpr, elseExpr]
  | .call callee args | .construct callee args => callee :: args

/-- Whether an expression is part of another, at any depth. -/
inductive Expr.Contains : Expr → Expr → Prop
  | self (e : Expr) : Contains e e
  | operand {e d x : Expr} (hd : d ∈ e.form.operands) (hx : Contains d x) : Contains e x

/-- The forms that have no effects besides those of their operands. -/
def ExprForm.isInert : ExprForm → Bool
  | .literal _ | .ident _ | .object [] | .unary .void _ => true
  | _ => false

/-- What is contained in an expression without operands. -/
theorem Expr.Contains.eq_self {e x : Expr} (h : e.Contains x) (hno : e.form.operands = []) :
    x = e := by
  cases h with
  | self => rfl
  | operand hd =>
    rw [hno] at hd
    cases hd

/-- An expression is dead exactly if there are only inert forms in it. -/
theorem Expr.isDead_iff (e : Expr) :
    e.isDead = true ↔ ∀ x, e.Contains x → x.form.isInert = true := by
  fun_induction Expr.isDead e with
  | case1 | case2 | case3 =>
    refine iff_of_true rfl fun x hx => ?_
    rw [hx.eq_self rfl]
    rfl
  | case4 loc operand ih =>
    refine ih.trans ⟨fun h x hx => ?_, fun h x hx => h x (.operand List.mem_cons_self hx)⟩
    cases hx with
    | self => rfl
    | operand hd hx =>
      rw [List.mem_singleton.1 hd] at hx
      exact h x hx
  | case5 e hliteral hident hobject hvoid =>
    obtain ⟨loc, form⟩ := e
    refine iff_of_false Bool.false_ne_true fun h => ?_
    have hinert : form.isInert = true := h _ (.self _)
    rw [ExprForm.isInert.eq_def] at hinert
    split at hinert
    next value => exact hliteral loc value rfl
    next name => exact hident loc name rfl
    next => exact hobject loc rfl
    next operand => exact hvoid loc operand rfl
    next => exact Bool.false_ne_true hinert

/-- A statement is dead if it is an expression that contains nothing but inert ones. -/
theorem Stmt.isDead_iff (s : Stmt) :
    s.isDead = true ↔ ∃ e, s.form = .expr e ∧ ∀ x, e.Contains x → x.form.isInert = true := by
  obtain ⟨loc, form⟩ := s
  cases form with
  | expr e =>
    refine (Expr.isDead_iff e).trans ⟨fun h => ⟨e, rfl, h⟩, ?_⟩
    rintro ⟨_, ⟨⟩, h⟩
    exact h
  | _ => exact iff_of_false Bool.false_ne_true nofun

/-- A statement of a list is dropped exactly if it is dead. -/
theorem not_mem_live_iff {s : Stmt} {stmts : List Stmt} (h : s ∈ stmts) :
    s ∉ live stmts ↔ s.isDead = true := by
  rw [live, List.mem_filter, and_iff_right h, Bool.not_eq_true', Bool.not_eq_false]

/-- A dead statement is left out. -/
theorem live_cons_of_isDead {s : Stmt} (h : s.isDead = true) (stmts : List Stmt) :
    live (s :: stmts) = live stmts := by
  rw [live, List.filter_cons_of_neg (by rw [h]; decide)]
  rfl

/-- A live statement stays. -/
theorem live_cons_of_not_isDead {s : Stmt} (h : ¬ s.isDead = true) (stmts : List Stmt) :
    live (s :: stmts) = s :: live stmts := by
  rw [live, List.filter_cons_of_pos (by rwa [Bool.not_eq_true', ← Bool.not_eq_true])]
  rfl

/-! ## What runs without dead statements -/

variable {M : Machine StmtForm Expr}

/-- Whether nothing comes of evaluating an expression as a statement. -/
def Ignores (M : Machine StmtForm Expr) (e : Expr) : Prop :=
  ∀ a ok b, M.step (.expr e) a ok b ↔ ok = true ∧ b = a

/-- Whether nothing comes of constants, identifiers and empty objects, and `void` has the effects of
its operand. -/
structure IgnoresInert (M : Machine StmtForm Expr) : Prop where
  literal (loc : Option Ir.Location) (value : Literal) : Ignores M ⟨loc, .literal value⟩
  ident (loc : Option Ir.Location) (name : String) : Ignores M ⟨loc, .ident name⟩
  emptyObject (loc : Option Ir.Location) : Ignores M ⟨loc, .object []⟩
  void (loc : Option Ir.Location) (operand : Expr) (a : M.State) (ok : Bool) (b : M.State) :
    M.step (.expr ⟨loc, .unary .void operand⟩) a ok b ↔ M.step (.expr operand) a ok b

namespace IgnoresInert

variable (hM : IgnoresInert M)

include hM

/-- A machine that ignores inert expressions ignores dead ones. -/
theorem ignores_of_isDead {e : Expr} (h : e.isDead = true) : Ignores M e := by
  fun_induction Expr.isDead e with
  | case1 loc value => exact hM.literal loc value
  | case2 loc name => exact hM.ident loc name
  | case3 loc => exact hM.emptyObject loc
  | case4 loc operand ih => exact fun a ok b => (hM.void loc operand a ok b).trans (ih h a ok b)
  | case5 => cases h

/-- A dead statement does nothing. -/
theorem run_of_isDead {s : Stmt} (h : s.isDead = true) (labels : List String) :
    s.flow.run M labels = .exit .normal := by
  obtain ⟨e, hform, -⟩ := s.isDead_iff.1 h
  obtain ⟨loc, form⟩ := s
  cases hform
  have hignored := hM.ignores_of_isDead h
  funext a x b
  refine propext ⟨?_, fun ⟨hx, hb⟩ => .inl ⟨(hignored a true b).2 ⟨rfl, hb⟩, hx⟩⟩
  rintro (⟨hstep, hx⟩ | ⟨hstep, -⟩)
  · exact ⟨hx, ((hignored a true b).1 hstep).2⟩
  · cases ((hignored a false b).1 hstep).1

/-- A dead statement does nothing. -/
theorem runAll_cons_of_isDead {s : Stmt} (h : s.isDead = true) (stmts : List Stmt) :
    runAll M (flows (s :: stmts)) = runAll M (flows stmts) := by
  rw [flows_cons, Control.runAll_cons, hM.run_of_isDead h, Runs.exit_normal_seq]

/-- A list of statements runs as its live statements do. -/
theorem runAll_live (stmts : List Stmt) :
    runAll M (flows (live stmts)) = runAll M (flows stmts) := by
  induction stmts with
  | nil => rfl
  | cons s stmts ih =>
    by_cases h : s.isDead = true
    · rw [live_cons_of_isDead h, hM.runAll_cons_of_isDead h, ih]
    · rw [live_cons_of_not_isDead h, flows_cons, flows_cons, Control.runAll_cons,
        Control.runAll_cons, ih]

end IgnoresInert

/-! ## The lists within statements -/

mutual

/-- A statement without the dead statements of the lists in it. -/
def Stmt.pruned : Stmt → Stmt
  | ⟨loc, form⟩ => ⟨loc, form.pruned⟩

/-- The form of a statement without the dead statements in it. -/
def StmtForm.pruned : StmtForm → StmtForm
  | .block stmts => .block (prunedAll stmts)
  | .ifElse test thenStmts elseStmts => .ifElse test (prunedAll thenStmts) (prunedAll elseStmts)
  | .whileLoop test body => .whileLoop test (prunedAll body)
  | .forLoop start test update body => .forLoop start test update (prunedAll body)
  | .labeled label body => .labeled label body.pruned
  | .tryCatch block handler finalizer =>
    .tryCatch (prunedAll block) (prunedHandler handler) (prunedFinalizer finalizer)
  | .switch subject cases => .switch subject (prunedCases cases)
  | .expr e => .expr e
  | .declare decl => .declare decl
  | .ret value => .ret value
  | .throw error => .throw error
  | .breakTo label => .breakTo label
  | .continueTo label => .continueTo label
  | .debugger => .debugger
  | .function func => .function func
  | .classDecl decl => .classDecl decl
  | .exported decl => .exported decl

/-- The live statements of a list, without the dead statements of the lists in them. -/
def prunedAll : List Stmt → List Stmt
  | [] => []
  | s :: stmts => if s.isDead then prunedAll stmts else s.pruned :: prunedAll stmts

/-- A handler without the dead statements in it. -/
def prunedHandler : Option CatchClause → Option CatchClause
  | none => none
  | some ⟨param, body⟩ => some ⟨param, prunedAll body⟩

/-- A finalizer without the dead statements in it. -/
def prunedFinalizer : Option (List Stmt) → Option (List Stmt)
  | none => none
  | some stmts => some (prunedAll stmts)

/-- The cases of a switch without the dead statements in them. -/
def prunedCases : List SwitchCase → List SwitchCase
  | [] => []
  | ⟨test, body⟩ :: cases => ⟨test, prunedAll body⟩ :: prunedCases cases

end

/-- A statement is dead without dead statements in it if it is dead with them. -/
theorem Stmt.isDead_pruned (s : Stmt) : s.pruned.isDead = s.isDead := by
  obtain ⟨_, form⟩ := s
  cases form <;> rfl

/-- A handler has the same parameter without dead statements in it. -/
theorem handlerHead_pruned (handler : Option CatchClause) :
    handlerHead (prunedHandler handler) = handlerHead handler := by
  rcases handler with _ | ⟨_, _⟩ <;> rfl

/-- Cases have the same tests without dead statements in them. -/
theorem tests_prunedCases (cases : List SwitchCase) :
    (caseFlows (prunedCases cases)).map (·.tests) = (caseFlows cases).map (·.tests) := by
  induction cases with
  | nil => rfl
  | cons c cases ih =>
    obtain ⟨_, _⟩ := c
    rw [prunedCases, caseFlows, caseFlows, List.map_cons, List.map_cons, ih]

namespace IgnoresInert

mutual

/-- A statement runs without the dead ones in it as with them. -/
theorem run_pruned (hM : IgnoresInert M) : (s : Stmt) → (labels : List String) →
    s.pruned.flow.run M labels = s.flow.run M labels
  | ⟨_, form⟩, labels => run_prunedForm hM form labels

/-- The form of a statement runs without the dead ones in it as with them. -/
theorem run_prunedForm (hM : IgnoresInert M) : (form : StmtForm) → (labels : List String) →
    form.pruned.flow.run M labels = form.flow.run M labels
  | .block stmts, _ => runAll_prunedAll hM stmts
  | .ifElse test thenStmts elseStmts, _ => by
    rw [StmtForm.pruned, StmtForm.flow, StmtForm.flow, Control.Flow.run, Control.Flow.run,
      runAll_prunedAll hM thenStmts, runAll_prunedAll hM elseStmts]
  | .whileLoop test body, _ => by
    rw [StmtForm.pruned, StmtForm.flow, StmtForm.flow, Control.Flow.run, Control.Flow.run,
      runAll_prunedAll hM body]
  | .forLoop start test update body, _ => by
    rw [StmtForm.pruned, StmtForm.flow, StmtForm.flow, Control.Flow.run, Control.Flow.run,
      runAll_prunedAll hM body]
  | .labeled label body, labels =>
    congrArg (Runs.exitBy (.leaveLabel label)) (run_pruned hM body (label :: labels))
  | .tryCatch block handler finalizer, _ => by
    rw [StmtForm.pruned, StmtForm.flow, StmtForm.flow, Control.Flow.run, Control.Flow.run,
      handlerHead_pruned, runAll_prunedAll hM block, runOption_prunedHandler hM handler,
      runOption_prunedFinalizer hM finalizer]
  | .switch subject cases, _ => by
    rw [StmtForm.pruned, StmtForm.flow, StmtForm.flow, Control.Flow.run, Control.Flow.run,
      tests_prunedCases, runFrom_prunedCases hM cases]
  | .expr _, _ | .declare _, _ | .ret _, _ | .throw _, _ | .breakTo _, _ | .continueTo _, _
  | .debugger, _ | .function _, _ | .classDecl _, _ | .exported _, _ => rfl

/-- A list of statements runs as it does without the dead statements, also of the lists in it. -/
theorem runAll_prunedAll (hM : IgnoresInert M) : (stmts : List Stmt) →
    runAll M (flows (prunedAll stmts)) = runAll M (flows stmts)
  | [] => rfl
  | s :: stmts => by
    rw [prunedAll]
    split
    next h => rw [hM.runAll_cons_of_isDead h, runAll_prunedAll hM stmts]
    next h =>
      rw [flows_cons, flows_cons, Control.runAll_cons, Control.runAll_cons, run_pruned hM s,
        runAll_prunedAll hM stmts]

/-- A handler runs without the dead statements in it as with them. -/
theorem runOption_prunedHandler (hM : IgnoresInert M) : (handler : Option CatchClause) →
    Control.runOption M (handlerFlows (prunedHandler handler)) =
      Control.runOption M (handlerFlows handler)
  | none => rfl
  | some ⟨_, body⟩ => congrArg some (runAll_prunedAll hM body)

/-- A finalizer runs without the dead statements in it as with them. -/
theorem runOption_prunedFinalizer (hM : IgnoresInert M) : (finalizer : Option (List Stmt)) →
    Control.runOption M (finalizerFlows (prunedFinalizer finalizer)) =
      Control.runOption M (finalizerFlows finalizer)
  | none => rfl
  | some stmts => congrArg some (runAll_prunedAll hM stmts)

/-- The cases of a switch run without the dead statements in them as with them. -/
theorem runFrom_prunedCases (hM : IgnoresInert M) : (cases : List SwitchCase) →
    Control.runFrom M (caseFlows (prunedCases cases)) = Control.runFrom M (caseFlows cases)
  | [] => rfl
  | ⟨_, body⟩ :: cases => by
    funext i
    cases i with
    | zero =>
      rw [prunedCases, caseFlows, caseFlows, Control.runFrom, Control.runFrom,
        runAll_prunedAll hM body, runFrom_prunedCases hM cases]
    | succ i =>
      rw [prunedCases, caseFlows, caseFlows, Control.runFrom, Control.runFrom,
        runFrom_prunedCases hM cases]

end

end IgnoresInert

/-! ## What is printed -/

mutual

/-- A statement is printed without the dead ones in it anyway. -/
theorem Stmt.pieces_pruned (sep : Separator) : (s : Stmt) → s.pruned.pieces sep = s.pieces sep
  | ⟨loc, form⟩ => by
    rw [Stmt.pruned, Stmt.pieces, Stmt.pieces, StmtForm.pieces_pruned sep form]
    cases form <;> rfl

/-- The form of a statement is printed without the dead ones in it anyway. -/
theorem StmtForm.pieces_pruned (sep : Separator) : (form : StmtForm) →
    form.pruned.pieces sep = form.pieces sep
  | .block stmts => congrArg (block sep) (livePieces_prunedAll sep stmts)
  | .ifElse test thenStmts elseStmts => by
    rw [StmtForm.pruned, StmtForm.pieces, StmtForm.pieces, livePieces_prunedAll sep thenStmts,
      livePieces_prunedAll sep elseStmts]
  | .whileLoop test body => by
    rw [StmtForm.pruned, StmtForm.pieces, StmtForm.pieces, livePieces_prunedAll sep body]
  | .forLoop start test update body => by
    rw [StmtForm.pruned, StmtForm.pieces, StmtForm.pieces, livePieces_prunedAll sep body]
  | .labeled label body => by
    rw [StmtForm.pruned, StmtForm.pieces, StmtForm.pieces, Stmt.pieces_pruned sep body]
  | .tryCatch body handler finalizer => by
    rw [StmtForm.pruned, StmtForm.pieces, StmtForm.pieces, livePieces_prunedAll sep body,
      handlerPieces_pruned sep handler, finalizerPieces_pruned sep finalizer]
  | .switch subject cases => by
    rw [StmtForm.pruned, StmtForm.pieces, StmtForm.pieces, casePieces_pruned sep cases]
  | .expr _ | .declare _ | .ret _ | .throw _ | .breakTo _ | .continueTo _ | .debugger
  | .function _ | .classDecl _ | .exported _ => rfl

/-- Dead statements are not printed anyway. -/
theorem livePieces_prunedAll (sep : Separator) : (stmts : List Stmt) →
    livePieces sep (prunedAll stmts) = livePieces sep stmts
  | [] => rfl
  | s :: stmts => by
    rw [prunedAll, livePieces]
    split
    next => exact livePieces_prunedAll sep stmts
    next h =>
      have hconditional : s.pruned.isConditional = s.isConditional := by
        obtain ⟨_, form⟩ := s
        cases form <;> rfl
      rw [livePieces, s.isDead_pruned, if_neg h, hconditional, Stmt.pieces_pruned sep s,
        livePieces_prunedAll sep stmts]

/-- A handler is printed without the dead statements in it anyway. -/
theorem handlerPieces_pruned (sep : Separator) : (handler : Option CatchClause) →
    handlerPieces sep (prunedHandler handler) = handlerPieces sep handler
  | none => rfl
  | some ⟨param, body⟩ => by
    cases param <;>
      rw [prunedHandler, handlerPieces, handlerPieces, livePieces_prunedAll sep body]

/-- A finalizer is printed without the dead statements in it anyway. -/
theorem finalizerPieces_pruned (sep : Separator) : (finalizer : Option (List Stmt)) →
    finalizerPieces sep (prunedFinalizer finalizer) = finalizerPieces sep finalizer
  | none => rfl
  | some stmts => by
    rw [prunedFinalizer, finalizerPieces, finalizerPieces, livePieces_prunedAll sep stmts]

/-- The cases of a switch are printed without the dead statements in them anyway. -/
theorem casePieces_pruned (sep : Separator) : (cases : List SwitchCase) →
    casePieces sep (prunedCases cases) = casePieces sep cases
  | [] => rfl
  | ⟨_, body⟩ :: cases => by
    rw [prunedCases, casePieces, casePieces, livePieces_prunedAll sep body,
      casePieces_pruned sep cases]

end

/-- The dead statements of a list, and of the lists in it, leave no trace in what is printed. -/
theorem stmtsPieces_prunedAll (sep : Separator) (stmts : List Stmt) :
    stmtsPieces sep (prunedAll stmts) = stmtsPieces sep stmts := by
  rw [stmtsPieces, livePieces_prunedAll, stmtsPieces]

/-- The live statements are printed one by one, in their order. -/
theorem stmtsPieces_eq (sep : Separator) (stmts : List Stmt) :
    stmtsPieces sep stmts = Layout.stmtLines sep false ((live stmts).map (·.pieces sep)) := by
  rw [stmtsPieces, livePieces_eq, List.map_map]
  rfl

end TypedLowering.JavaScript
