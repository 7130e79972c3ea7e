import TypedLowering.JavaScript.Tree
import TypedLowering.Proofs.Control.Placement

/-!
# The control flow of JavaScript statements

Expressions, declarations and functions are leaves: what happens inside them is no control flow of
the statement list that they stand in. A header is its statement without bodies. Locations play no
part.
-/

namespace TypedLowering.JavaScript

open Control (Flow Case)

/-- A handler without its body. -/
def handlerHead : Option CatchClause → Option CatchClause
  | none => none
  | some ⟨param, _⟩ => some ⟨param, []⟩

mutual

/-- The control flow of a statement. -/
def Stmt.flow : Stmt → Flow StmtForm Expr
  | ⟨_, form⟩ => form.flow

/-- The flow of a statement. -/
def StmtForm.flow : StmtForm → Flow StmtForm Expr
  | .expr expr => .step (.expr expr)
  | .block stmts => .block (flows stmts)
  | .declare decl => .step (.declare decl)
  | .ifElse test thenStmts elseStmts => .choose test (flows thenStmts) (flows elseStmts)
  | .whileLoop test body => .loop (.whileLoop test []) (flows body)
  | .forLoop start test update body => .loop (.forLoop start test update []) (flows body)
  | .ret value => .ret (.ret value)
  | .throw error => .raise (.throw error)
  | .breakTo label => .breakTo label
  | .continueTo label => .continueTo label
  | .labeled label body => .labeled label body.flow
  | .tryCatch block handler finalizer =>
    .protect (.tryCatch [] (handlerHead handler) none) (flows block) (handlerFlows handler)
      (finalizerFlows finalizer)
  | .switch subject cases => .switch subject (caseFlows cases)
  | .debugger => .step .debugger
  | .function func => .step (.function func)
  | .classDecl decl => .step (.classDecl decl)
  | .exported decl => .step (.exported decl)

/-- The control flow of a statement list. -/
def flows : List Stmt → List (Flow StmtForm Expr)
  | [] => []
  | stmt :: stmts => stmt.flow :: flows stmts

/-- The flows of the handler of a `try` statement. -/
def handlerFlows : Option CatchClause → Option (List (Flow StmtForm Expr))
  | none => none
  | some ⟨_, body⟩ => some (flows body)

/-- The flows of the final block of a `try` statement. -/
def finalizerFlows : Option (List Stmt) → Option (List (Flow StmtForm Expr))
  | none => none
  | some stmts => some (flows stmts)

/-- The cases of a switch. At its end, a case goes on with the next one. -/
def caseFlows : List SwitchCase → List (Case StmtForm Expr)
  | [] => []
  | ⟨test, body⟩ :: cases => ⟨test.map ([·]), flows body⟩ :: caseFlows cases

end

@[simp] theorem flows_nil : flows [] = [] := rfl

@[simp] theorem flows_cons (stmt : Stmt) (stmts : List Stmt) :
    flows (stmt :: stmts) = stmt.flow :: flows stmts := rfl

@[simp] theorem flows_append (as bs : List Stmt) : flows (as ++ bs) = flows as ++ flows bs := by
  induction as with
  | nil => rfl
  | cons a as ih => rw [List.cons_append, flows_cons, flows_cons, ih, List.cons_append]

theorem caseFlows_eq_map (cases : List SwitchCase) :
    caseFlows cases = cases.map fun c => ⟨c.test.map ([·]), flows c.body⟩ := by
  induction cases with
  | nil => rfl
  | cons c cases ih =>
    obtain ⟨test, body⟩ := c
    rw [caseFlows, ih, List.map_cons]

@[simp] theorem flow_of (form : StmtForm) : (Stmt.of form).flow = form.flow := rfl

@[simp] theorem flow_expr (e : Expr) : (Stmt.expr e).flow = .step (.expr e) := rfl

@[simp] theorem flow_declare (mode : DeclMode) (name : String) (value : Option Expr) :
    (Stmt.declare mode name value).flow = .step (.declare ⟨mode, [⟨name, value⟩]⟩) := rfl

/-!
## Declarations

What a statement declares belongs to the block that it stands in, a variable of a loop to the loop,
and what a handler catches to the handler.
-/

/-- The variables, functions and classes that a statement declares in its block. -/
def Stmt.introduced : Stmt → List String
  | ⟨_, .declare decl⟩ => decl.declarators.map (·.name)
  | ⟨_, .function func⟩ => func.name.toList
  | ⟨_, .classDecl decl⟩ => [decl.name]
  | ⟨_, .exported decl⟩ => decl.introduced
  | ⟨_, .labeled _ body⟩ => body.introduced
  | _ => []

/-- What the statements of a block declare. -/
def introduced (stmts : List Stmt) : List String :=
  stmts.flatMap Stmt.introduced

/-- What is declared by the statements, loops and handlers that code belongs to. -/
def scoping : Control.Scoping StmtForm where
  declares code := (Stmt.of code).introduced
  binds
    | .forLoop start _ _ _ => start.toList.flatMap (·.declarators.map (·.name))
    | .tryCatch _ handler _ => handler.toList.flatMap (·.param.toList)
    | _ => []

/-!
## Stores of numbers

A machine for statements that keep numbers in variables. Assignments and declarations change the
store, a switch compares numbers, and guards may come out either way.
-/

/-- The number of each variable that has one. -/
abbrev Store := String → Option Binary64

namespace Store

/-- The store with another value for one variable. -/
def put (a : Store) (name : String) (value : Option Binary64) : Store :=
  fun x => if x = name then value else a x

/-- The number that an expression is, if it is a constant or a variable. -/
def value (a : Store) : ExprForm → Option Binary64
  | .literal (.number d) => some d
  | .ident name => a name
  | _ => none

/-- The store after an assignment or a declaration. Nothing else changes it. -/
def after (a : Store) : StmtForm → Store
  | .expr ⟨_, .binary .assignment ⟨_, .ident name⟩ e⟩ => a.put name (a.value e.form)
  | .declare ⟨_, [⟨name, some e⟩]⟩ => a.put name (a.value e.form)
  | _ => a

/-- Whether a test of a case is the number of the subject. -/
def passes (a : Store) (subject : Expr) : Option (List Expr) → Bool
  | some [test] => a.value test.form = a.value subject.form
  | _ => false

/-- The machine of stores. -/
def machine : Control.Machine StmtForm Expr where
  State := Store
  step code a ok b := ok = true ∧ b = a.after code
  test _ a r b := r.isSome ∧ b = a
  start _ a ok b := ok = true ∧ b = a
  next _ a r b := r.isSome ∧ b = a
  pick subject tests a r b := b = a ∧ r = some (tests.findIdx? (a.passes subject))
  catches _ a b := b = a
  pick_tests h := Control.exists_of_findIdx? rfl (Option.some.inj h.2).symm

/-- The machine with a store for each block. -/
def blockMachine : Control.Machine (Control.Depths × StmtForm) (Control.Depths × Expr) where
  State := Control.BlockStore (Option Binary64)
  step code a ok b := ok = true ∧ b = a.update code.1 (after (a.seen code.1) code.2)
  test _ a r b := r.isSome ∧ b = a
  start _ a ok b := ok = true ∧ b = a
  next _ a r b := r.isSome ∧ b = a
  pick subject tests a r b := b = a ∧
    r = some (tests.findIdx? fun t => passes (a.seen subject.1) subject.2 (t.map (·.map (·.2))))
  catches _ a b := b = a
  pick_tests h := Control.exists_of_findIdx? rfl (Option.some.inj h.2).symm

end Store

end TypedLowering.JavaScript
