import TypedLowering.Dart.Tree
import TypedLowering.Proofs.Control.World

/-!
# Evaluation of Dart

What evaluating expressions and running statements does, in any world. Operands are evaluated from
left to right. Making a function does nothing, and neither do constants and names of other
libraries.
-/

namespace TypedLowering.Dart

open Control

variable (W : World)

mutual

/-- The evaluation of an expression. -/
def Expr.run : Expr → Runs W.State
  | .literal _ | .this | .function .. => .exit .normal
  | .list values _ => .all (runsOf values)
  | .ident id => if id.importPrefix.isSome then .exit .normal else W.does (.read id.name)
  | .unary _ e | .typeTest e _ => e.run
  | .binary _ left right => .seq left.run right.run
  | .logical .and left right => .branch (Runs.guard W.decide left.run) right.run (.exit .normal)
  | .logical .or left right => .branch (Runs.guard W.decide left.run) (.exit .normal) right.run
  | .conditional test thenExpr elseExpr =>
    .branch (Runs.guard W.decide test.run) thenExpr.run elseExpr.run
  | .call callee args named =>
    .seq callee.run (.seq (.all (runsOf args)) (.seq (.all (runsOfNamed named)) (W.does .call)))
  | .property object name => .seq object.run (W.does (.load (some name)))
  | .index object i => .seq object.run (.seq i.run (W.does (.load none)))
  | .cast e _ | .nullCheck e => .seq e.run (W.does .check)
  | .emit template args => .act (W.foreign template (runsOf args)) .normal

/-- The evaluations of expressions. -/
def runsOf : List Expr → List (Runs W.State)
  | [] => []
  | e :: es => e.run :: runsOf es

/-- The evaluations of named arguments, in order. -/
def runsOfNamed : List NamedArg → List (Runs W.State)
  | [] => []
  | ⟨_, value⟩ :: rest => value.run :: runsOfNamed rest

end

/-- The evaluation of the parts of a place, before something is assigned to it. -/
def Expr.locate : Expr → Runs W.State
  | .ident _ => .exit .normal
  | .property object _ => object.run W
  | .index object i => .seq (object.run W) (i.run W)
  | e => e.run W

/-- The assignment to a place. -/
def Expr.store : Expr → Runs W.State
  | .ident id => W.does (.write id.name)
  | .property _ name => W.does (.store (some name))
  | .index .. => W.does (.store none)
  | _ => .exit .normal

/-- The evaluation of an expression that may be left out. -/
def runOption : Option Expr → Runs W.State
  | none => .exit .normal
  | some e => e.run W

mutual

/-- The runs of a statement; the labels are those right in front of it. A case of a switch does not
go on with the next one. -/
def Stmt.run (labels : List String) : Stmt → Runs W.State
  | .expr e => e.run W
  | .ret value => .seq (runOption W value) (.exit .returned)
  | .declare _ _ none => .exit .normal
  | .declare id _ (some value) => .seq (value.run W) (W.does (.write id.name))
  | .assign target value => .seq (target.locate W) (.seq (value.run W) (target.store W))
  | .ifElse guard thenBody elseBody =>
    .branch (Runs.guard W.decide (guard.run W)) (runStmts thenBody) (runStmts elseBody)
  | .whileLoop guard body => .iterate (Runs.guard W.decide (guard.run W)) labels (runStmts body)
  | .forLoop id start limit _ body =>
    .seq (.all [start.run W, limit.run W, W.does (.write id.name)])
      (.iterate (Runs.guard W.decide (.exit .normal)) labels
        (.seq (runStmts body) (W.does (.write id.name))))
  | .switch value cases default =>
    .seq (value.run W) fun a x b => ∃ i m, W.pick a i m ∧
      Runs.exitBy .leave ((runsOfCases cases)[i]?.getD (runDefault default)) m x b
  | .tryCatch body handler finalizer =>
    .finalized (.handled W.caught (runStmts body) (runHandler handler)) (runFinalizer finalizer)
  | .throw e => .seq (e.run W) (.act (W.act .raise) .raised)
  | .rethrow => .act (W.act .raise) .raised
  | .breakTo label => .exit (.broke label)
  | .continueTo label => .exit (.continued label)
  | .labeled label body => .exitBy (.leaveLabel label) (body.run (label :: labels))
  | .function _ => .exit .normal

/-- The runs of statements one after the other. -/
def runStmts : List Stmt → Runs W.State
  | [] => .exit .normal
  | stmt :: stmts => .seq (stmt.run []) (runStmts stmts)

/-- The run of the handler of a `try` statement, if there is one. -/
def runHandler : Option CatchClause → Option (Runs W.State)
  | none => none
  | some ⟨_, body⟩ => some (runStmts body)

/-- The run of the final block of a `try` statement, if there is one. -/
def runFinalizer : Option (List Stmt) → Option (Runs W.State)
  | none => none
  | some stmts => some (runStmts stmts)

/-- The runs of the bodies of cases. -/
def runsOfCases : List SwitchCase → List (Runs W.State)
  | [] => []
  | ⟨_, body⟩ :: cases => runStmts body :: runsOfCases cases

/-- The run of the default of a `switch`, which may be left out. -/
def runDefault : Option (List Stmt) → Runs W.State
  | none => .exit .normal
  | some stmts => runStmts stmts

end

variable {W}

/-- No expressions have no evaluations. -/
@[simp] theorem runsOf_nil : runsOf W [] = [] := by rw [runsOf]

/-- Expressions are evaluated one by one. -/
@[simp] theorem runsOf_cons (e : Expr) (es : List Expr) :
    runsOf W (e :: es) = e.run W :: runsOf W es := by rw [runsOf]

/-- Expressions are evaluated each for itself. -/
theorem runsOf_eq_map (es : List Expr) : runsOf W es = es.map (·.run W) := by
  induction es with
  | nil => rw [runsOf_nil, List.map_nil]
  | cons e es ih => rw [runsOf_cons, ih, List.map_cons]

/-- An own name is read. -/
@[simp] theorem run_ident_own (x : String) (ty : Ty) :
    (Expr.ident (.own x ty)).run W = W.does (.read x) := by
  rw [Expr.run]
  rfl

/-- The operands of an operator are evaluated from left to right. -/
@[simp] theorem run_binary (op : BinaryOp) (left right : Expr) :
    (Expr.binary op left right).run W = .seq (left.run W) (right.run W) := by rw [Expr.run]

/-- An assignment to an own name writes it. -/
@[simp] theorem store_ident_own (x : String) (ty : Ty) :
    (Expr.ident (.own x ty)).store W = W.does (.write x) := rfl

/-- An assignment to an item writes no name. -/
@[simp] theorem store_index (object i : Expr) :
    (Expr.index object i).store W = W.does (.store none) := rfl

/-- No statements come to their end. -/
@[simp] theorem runStmts_nil : runStmts W [] = .exit .normal := by rw [runStmts]

/-- Statements run one after the other. -/
@[simp] theorem runStmts_cons (stmt : Stmt) (stmts : List Stmt) :
    runStmts W (stmt :: stmts) = .seq (stmt.run W []) (runStmts W stmts) := by rw [runStmts]

/-- Two lists of statements run one after the other. -/
@[simp] theorem runStmts_append (as bs : List Stmt) :
    runStmts W (as ++ bs) = .seq (runStmts W as) (runStmts W bs) := by
  induction as with
  | nil => rw [List.nil_append, runStmts_nil, Runs.exit_normal_seq]
  | cons a as ih => rw [List.cons_append, runStmts_cons, ih, runStmts_cons, Runs.seq_assoc]

end TypedLowering.Dart
