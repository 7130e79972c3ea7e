import TypedLowering.JavaScript.Tree
import TypedLowering.Proofs.Control.Ending

/-!
# Evaluation of JavaScript

What evaluating expressions and running statements does, in any world. Operands are evaluated from
left to right. Making a function does nothing, and neither do constants. A function that is called
at once, without arguments, is no call that can be noticed: its body runs.
-/

namespace TypedLowering

namespace JavaScript

open Control

variable (W : World)

/-- The assignment to a place. -/
def Expr.store (place : Expr) : Runs W.State :=
  match place.form with
  | .ident name => W.does (.write name)
  | .member _ name => W.does (.store (some name))
  | .index .. => W.does (.store none)
  | _ => .exit .normal

/-- Where a switch goes to when that case is meant: to the default case if there is no such case. -/
def landing (cases : List SwitchCase) (i : Nat) : Nat :=
  if i < cases.length then i else cases.findIdx (·.test.isNone)

mutual

/-- The evaluation of an expression. -/
def Expr.run : Expr → Runs W.State
  | ⟨_, form⟩ => form.run

/-- The evaluation of the form of an expression. -/
def ExprForm.run : ExprForm → Runs W.State
  | .ident name => W.does (.read name)
  | .this | .literal _ | .function _ => .exit .normal
  | .array items | .sequence items => .all (runsOf items)
  | .object members => .all (runsOfMembers members)
  | .unary _ operand | .spread operand => operand.run
  | .binary .assignment target value => .seq target.locate (.seq value.run (target.store W))
  | .binary .additionAssignment target value | .binary .subtractionAssignment target value =>
    .seq target.run (.seq value.run (target.store W))
  | .binary .and left right => .branch (Runs.guard W.decide left.run) right.run (.exit .normal)
  | .binary .or left right => .branch (Runs.guard W.decide left.run) (.exit .normal) right.run
  | .binary _ left right => .seq left.run right.run
  | .conditional test thenExpr elseExpr =>
    .branch (Runs.guard W.decide test.run) thenExpr.run elseExpr.run
  | .call ⟨_, .function func⟩ [] => func.run
  | .call callee args => .seq callee.run (.seq (.all (runsOf args)) (W.does .call))
  | .construct callee args => .seq callee.run (.seq (.all (runsOf args)) (W.does .construct))
  | .member object name => .seq object.run (W.does (.load (some name)))
  | .index object i => .seq object.run (.seq i.run (W.does (.load none)))
  | .emit template args => .act (W.foreign template (runsOf args)) .normal

/-- The evaluation of the parts of a place, before something is assigned to it. -/
def Expr.locate : Expr → Runs W.State
  | ⟨_, .ident _⟩ => .exit .normal
  | ⟨_, .member object _⟩ => object.run
  | ⟨_, .index object i⟩ => .seq object.run i.run
  | ⟨_, form⟩ => form.run

/-- The evaluations of expressions. -/
def runsOf : List Expr → List (Runs W.State)
  | [] => []
  | e :: es => e.run :: runsOf es

/-- The evaluations of the members of an object. Methods and accessors are functions. -/
def runsOfMembers : List ObjectMember → List (Runs W.State)
  | [] => []
  | ⟨_, .value value⟩ :: rest => value.run :: runsOfMembers rest
  | _ :: rest => runsOfMembers rest

/-- A function that is called at once. -/
def Func.run : Func → Runs W.State
  | ⟨_, _, _, body⟩ => .called body.run

/-- The run of the body of a function. -/
def FuncBody.run : FuncBody → Runs W.State
  | .block stmts => runStmts stmts
  | .value value => .seq value.run (.exit .returned)

/-- The runs of a statement; the labels are those right in front of it. -/
def Stmt.run (labels : List String) : Stmt → Runs W.State
  | ⟨_, form⟩ => form.run labels

/-- The run of the form of a statement, with the labels in front of it. -/
def StmtForm.run (labels : List String) : StmtForm → Runs W.State
  | .expr e => e.run
  | .block stmts => runStmts stmts
  | .declare decl => decl.run
  | .ifElse test thenStmts elseStmts =>
    .branch (Runs.guard W.decide test.run) (runStmts thenStmts) (runStmts elseStmts)
  | .whileLoop test body => .iterate (Runs.guard W.decide test.run) labels (runStmts body)
  | .forLoop start test update body =>
    .seq (runStart start) (.iterate (Runs.guard W.decide (runOption test)) labels
      (.seq (.exitBy (.goOn labels) (runStmts body)) (runOption update)))
  | .ret value => .seq (runOption value) (.exit .returned)
  | .throw error => .seq error.run (.act (W.act .raise) .raised)
  | .breakTo label => .exit (.broke label)
  | .continueTo label => .exit (.continued label)
  | .labeled label body => .exitBy (.leaveLabel label) (body.run (label :: labels))
  | .tryCatch block handler finalizer =>
    .finalized (.handled W.caught (runStmts block) (runHandler handler)) (runFinalizer finalizer)
  | .switch subject cases =>
    .seq subject.run fun a x b => ∃ i m, W.pick a i m ∧
      Runs.exitBy .leave (.all ((runsOfCases cases).drop (landing cases i))) m x b
  | .debugger => W.does .pause
  | .function _ => .exit .normal
  | .classDecl ⟨_, base, _⟩ => runOption base
  | .exported decl => decl.run labels

/-- The run of a declaration. -/
def VarDecl.run : VarDecl → Runs W.State
  | ⟨_, declarators⟩ => runDeclarators declarators

/-- The runs of declarators: each evaluates its value and writes it. -/
def runDeclarators : List Declarator → Runs W.State
  | [] => .exit .normal
  | ⟨_, none⟩ :: rest => runDeclarators rest
  | ⟨name, some value⟩ :: rest =>
    .seq (.seq value.run (W.does (.write name))) (runDeclarators rest)

/-- The run of the head of a loop. -/
def runStart : Option VarDecl → Runs W.State
  | none => .exit .normal
  | some decl => decl.run

/-- The evaluation of an expression that may be missing. -/
def runOption : Option Expr → Runs W.State
  | none => .exit .normal
  | some e => e.run

/-- The runs of statements one after the other. -/
def runStmts : List Stmt → Runs W.State
  | [] => .exit .normal
  | stmt :: stmts => .seq (stmt.run []) (runStmts stmts)

/-- The run of a handler, if there is one. -/
def runHandler : Option CatchClause → Option (Runs W.State)
  | none => none
  | some ⟨_, body⟩ => some (runStmts body)

/-- The run of a finalizer, if there is one. -/
def runFinalizer : Option (List Stmt) → Option (Runs W.State)
  | none => none
  | some stmts => some (runStmts stmts)

/-- The runs of the bodies of cases. -/
def runsOfCases : List SwitchCase → List (Runs W.State)
  | [] => []
  | ⟨_, body⟩ :: cases => runStmts body :: runsOfCases cases

end

-- Within this file running code is unfolded; outside of it the lemmas below say what it does.
attribute [local simp] Expr.run ExprForm.run Expr.locate runsOf Func.run FuncBody.run Stmt.run
  StmtForm.run VarDecl.run runDeclarators runStmts runsOfCases

variable {W}

/-! ## Expressions -/

/-- An expression without a location runs as its form. -/
@[simp] theorem run_of (form : ExprForm) : (Expr.of form).run W = form.run W := by
  simp [Expr.of]

/-- The location of an expression does not run. -/
theorem run_eq (e : Expr) : e.run W = e.form.run W := by
  obtain ⟨_, form⟩ := e
  simp

/-- Locations make no difference. -/
@[simp] theorem run_withLoc (e : Expr) (loc : Option Ir.Location) :
    (e.withLoc loc).run W = e.run W := by
  rw [run_eq, run_eq e, Expr.form_withLoc]

/-- No expressions have no runs. -/
@[simp] theorem runsOf_nil : runsOf W [] = [] := by simp

/-- Expressions run one by one. -/
@[simp] theorem runsOf_cons (e : Expr) (es : List Expr) :
    runsOf W (e :: es) = e.run W :: runsOf W es := by simp

/-- The runs of expressions, as a map. -/
theorem runsOf_eq_map (es : List Expr) : runsOf W es = es.map (·.run W) := by
  induction es with
  | nil => rw [runsOf_nil, List.map_nil]
  | cons e es ih => rw [runsOf_cons, ih, List.map_cons]

/-- An identifier is read. -/
@[simp] theorem run_ident (x : String) : (Expr.ident x).run W = W.does (.read x) := by
  simp [Expr.ident]

/-- A constant does nothing. -/
@[simp] theorem run_literal (value : Literal) : (Expr.literal value).run W = .exit .normal := by
  simp [Expr.literal]

/-- A string does nothing. -/
@[simp] theorem run_string (value : String) : (Expr.string value).run W = .exit .normal :=
  run_literal _

/-- A number does nothing. -/
@[simp] theorem run_number (value : Nat) : (Expr.number value).run W = .exit .normal :=
  run_literal _

/-- A member is loaded from its object. -/
@[simp] theorem run_member (object : Expr) (name : String) :
    (Expr.member object name).run W = .seq (object.run W) (W.does (.load (some name))) := by
  simp [Expr.member]

/-- An element is loaded from its object after its index. -/
@[simp] theorem run_index (object i : Expr) :
    (Expr.index object i).run W =
      .seq (object.run W) (.seq (i.run W) (W.does (.load none))) := by
  simp [Expr.index]

/-- A unary operation only evaluates its operand. -/
@[simp] theorem run_unary (op : Operator) (operand : Expr) :
    (Expr.unary op operand).run W = operand.run W := by
  simp [Expr.unary]

/-- An assignment evaluates the parts of its place, then the value, and writes it. -/
@[simp] theorem run_assign (target value : Expr) :
    (Expr.assign target value).run W =
      .seq (target.locate W) (.seq (value.run W) (target.store W)) := by
  simp [Expr.assign, Expr.binary]

/-- A construction evaluates the callee and the arguments first. -/
@[simp] theorem run_construct (callee : Expr) (args : List Expr) :
    (Expr.of (.construct callee args)).run W =
      .seq (callee.run W) (.seq (.all (args.map (·.run W))) (W.does .construct)) := by
  simp [runsOf_eq_map]

/-- Whether an expression is a function. -/
def Expr.isFunction (e : Expr) : Bool :=
  match e.form with
  | .function _ => true
  | _ => false

/-- A call can be noticed, unless it is one of a function without arguments. -/
theorem run_call {callee : Expr} {args : List Expr}
    (h : callee.isFunction = false ∨ args ≠ []) :
    (Expr.call callee args).run W =
      .seq (callee.run W) (.seq (.all (args.map (·.run W))) (W.does .call)) := by
  rw [Expr.call, run_of, ExprForm.run, runsOf_eq_map]
  rintro _ func rfl rfl
  exact h.elim nofun fun h => h rfl

/-- The code of a function that is called at once runs. -/
theorem run_call_arrow (params : List Param) (stmts : List Stmt) :
    (Expr.call (.of (.function (.arrow params (.block stmts)))) []).run W =
      (runStmts W stmts).called := by
  simp [Expr.call, Expr.of, Func.arrow]

/-- Operators that neither assign nor decide whether their second operand is evaluated. -/
theorem run_binary {op : Operator} (left right : Expr)
    (h : op ≠ .assignment ∧ op ≠ .additionAssignment ∧ op ≠ .subtractionAssignment ∧ op ≠ .and ∧
      op ≠ .or) :
    (Expr.binary op left right).run W = .seq (left.run W) (right.run W) := by
  obtain ⟨h₁, h₂, h₃, h₄, h₅⟩ := h
  rw [Expr.binary, run_of]
  cases op with
  | assignment => exact absurd rfl h₁
  | additionAssignment => exact absurd rfl h₂
  | subtractionAssignment => exact absurd rfl h₃
  | and => exact absurd rfl h₄
  | or => exact absurd rfl h₅
  | _ => rw [ExprForm.run] <;> exact nofun

/-! ## Places -/

/-- The place of an identifier takes no evaluation. -/
@[simp] theorem locate_ident (x : String) : (Expr.ident x).locate W = .exit .normal := by
  simp [Expr.ident, Expr.of]

/-- The place of a member takes the evaluation of its object. -/
@[simp] theorem locate_member (object : Expr) (name : String) :
    (Expr.member object name).locate W = object.run W := by
  simp [Expr.member, Expr.of]

/-- The place of an element takes the evaluation of object and index. -/
@[simp] theorem locate_index (object i : Expr) :
    (Expr.index object i).locate W = .seq (object.run W) (i.run W) := by
  simp [Expr.index, Expr.of]

/-- A value is written to an identifier. -/
@[simp] theorem store_ident (x : String) : (Expr.ident x).store W = W.does (.write x) := rfl

/-- A value is stored in a member. -/
@[simp] theorem store_member (object : Expr) (name : String) :
    (Expr.member object name).store W = W.does (.store (some name)) := rfl

/-- A value is stored in an element. -/
@[simp] theorem store_index (object i : Expr) :
    (Expr.index object i).store W = W.does (.store none) := rfl

/-! ## Statements -/

/-- No statements do nothing. -/
@[simp] theorem runStmts_nil : runStmts W [] = .exit .normal := by simp

/-- A statement runs before those after it. -/
@[simp] theorem runStmts_cons (stmt : Stmt) (stmts : List Stmt) :
    runStmts W (stmt :: stmts) = .seq (stmt.run W []) (runStmts W stmts) := by simp

/-- The first part of a block runs before the second. -/
@[simp] theorem runStmts_append (as bs : List Stmt) :
    runStmts W (as ++ bs) = .seq (runStmts W as) (runStmts W bs) := by
  induction as with
  | nil => rw [List.nil_append, runStmts_nil, Runs.exit_normal_seq]
  | cons a as ih => rw [List.cons_append, runStmts_cons, ih, runStmts_cons, Runs.seq_assoc]

/-- A single statement runs as the block of it. -/
theorem runStmts_singleton (stmt : Stmt) : runStmts W [stmt] = stmt.run W [] := by
  rw [runStmts_cons, runStmts_nil, Runs.seq_exit_normal]

/-- A statement that is an expression runs as the expression. -/
@[simp] theorem run_expr (e : Expr) : (Stmt.expr e).run W [] = e.run W := by
  simp [Stmt.expr]

/-- A declaration evaluates its value and writes it. -/
theorem run_declare (mode : DeclMode) (x : String) (value : Expr) :
    (Stmt.declare mode x (some value)).run W [] = .seq (value.run W) (W.does (.write x)) := by
  simp [Stmt.declare, Stmt.of, Runs.seq_exit_normal]

/-- A declaration without a value does nothing. -/
theorem run_declare_none (mode : DeclMode) (x : String) :
    (Stmt.declare mode x none).run W [] = .exit .normal := by
  simp [Stmt.declare, Stmt.of]

/-- The runs of the bodies of cases, as a map. -/
theorem runsOfCases_eq_map (cases : List SwitchCase) :
    runsOfCases W cases = cases.map fun c => runStmts W c.body := by
  induction cases with
  | nil => simp
  | cons c cases ih =>
    obtain ⟨test, body⟩ := c
    simp [ih]

end JavaScript

end TypedLowering
