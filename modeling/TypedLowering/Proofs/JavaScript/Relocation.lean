import TypedLowering.JavaScript.Lower.Parts
import TypedLowering.Proofs.Ir.Relocation

/-!
# Changing the locations of JavaScript code

What a relocation makes of the trees of the generated code: every location is changed and nothing
else is. To put a location over another one commutes with it (`Expr.relocate_withLoc`), and so do
the ways in which lowering builds code.
-/

namespace TypedLowering.JavaScript

variable (ρ : Relocation)

mutual

/-- The expression with its locations changed. -/
def Expr.relocate : Expr → Expr
  | ⟨loc, form⟩ => ⟨ρ.map loc, form.relocate⟩

/-- The form of an expression with its locations changed. -/
def ExprForm.relocate : ExprForm → ExprForm
  | .ident name => .ident name
  | .this => .this
  | .literal value => .literal value
  | .array items => .array (relocateExprs items)
  | .object members => .object (relocateMembers members)
  | .unary op operand => .unary op operand.relocate
  | .binary op left right => .binary op left.relocate right.relocate
  | .conditional test thenExpr elseExpr =>
    .conditional test.relocate thenExpr.relocate elseExpr.relocate
  | .call callee args => .call callee.relocate (relocateExprs args)
  | .construct callee args => .construct callee.relocate (relocateExprs args)
  | .member obj property => .member obj.relocate property
  | .index obj index => .index obj.relocate index.relocate
  | .function func => .function func.relocate
  | .spread operand => .spread operand.relocate
  | .sequence items => .sequence (relocateExprs items)
  | .emit template args => .emit template (relocateExprs args)

/-- Expressions, with their locations changed. -/
def relocateExprs : List Expr → List Expr
  | [] => []
  | e :: es => e.relocate :: relocateExprs es

/-- An expression that may be missing, with its locations changed. -/
def relocateExpr? : Option Expr → Option Expr
  | none => none
  | some e => some e.relocate

/-- The members of an object, with its locations changed. -/
def relocateMembers : List ObjectMember → List ObjectMember
  | [] => []
  | ⟨key, value⟩ :: rest => ⟨key, value.relocate⟩ :: relocateMembers rest

/-- The value of a member with its locations changed. -/
def MemberValue.relocate : MemberValue → MemberValue
  | .value value => .value value.relocate
  | .method func => .method func.relocate
  | .getter func => .getter func.relocate
  | .setter func => .setter func.relocate

/-- A function with its locations changed. -/
def Func.relocate : Func → Func
  | ⟨name, isArrow, params, body⟩ => ⟨name, isArrow, params, body.relocate⟩

/-- The body of a function with its locations changed. -/
def FuncBody.relocate : FuncBody → FuncBody
  | .block stmts => .block (relocateStmts stmts)
  | .value value => .value value.relocate

/-- The statement with its locations changed. -/
def Stmt.relocate : Stmt → Stmt
  | ⟨loc, form⟩ => ⟨ρ.map loc, form.relocate⟩

/-- Statements, with their locations changed. -/
def relocateStmts : List Stmt → List Stmt
  | [] => []
  | s :: ss => s.relocate :: relocateStmts ss

/-- Statements that may be missing, with its locations changed. -/
def relocateStmts? : Option (List Stmt) → Option (List Stmt)
  | none => none
  | some stmts => some (relocateStmts stmts)

/-- The form of a statement with its locations changed. -/
def StmtForm.relocate : StmtForm → StmtForm
  | .expr e => .expr e.relocate
  | .block stmts => .block (relocateStmts stmts)
  | .declare decl => .declare decl.relocate
  | .ifElse test thenStmts elseStmts =>
    .ifElse test.relocate (relocateStmts thenStmts) (relocateStmts elseStmts)
  | .whileLoop test body => .whileLoop test.relocate (relocateStmts body)
  | .forLoop start test update body =>
    .forLoop (relocateDecl? start) (relocateExpr? test) (relocateExpr? update)
      (relocateStmts body)
  | .ret value => .ret (relocateExpr? value)
  | .throw error => .throw error.relocate
  | .breakTo label => .breakTo label
  | .continueTo label => .continueTo label
  | .labeled label body => .labeled label body.relocate
  | .tryCatch block handler finalizer =>
    .tryCatch (relocateStmts block) (relocateHandler handler) (relocateStmts? finalizer)
  | .switch subject cases => .switch subject.relocate (relocateCases cases)
  | .debugger => .debugger
  | .function func => .function func.relocate
  | .classDecl decl => .classDecl decl.relocate
  | .exported decl => .exported decl.relocate

/-- A declaration with its locations changed. -/
def VarDecl.relocate : VarDecl → VarDecl
  | ⟨mode, declarators⟩ => ⟨mode, relocateDeclarators declarators⟩

/-- A declaration that may be missing, with its locations changed. -/
def relocateDecl? : Option VarDecl → Option VarDecl
  | none => none
  | some decl => some decl.relocate

/-- The declarators of a declaration, with its locations changed. -/
def relocateDeclarators : List Declarator → List Declarator
  | [] => []
  | ⟨name, value⟩ :: rest => ⟨name, relocateExpr? value⟩ :: relocateDeclarators rest

/-- A handler that may be missing, with its locations changed. -/
def relocateHandler : Option CatchClause → Option CatchClause
  | none => none
  | some ⟨param, body⟩ => some ⟨param, relocateStmts body⟩

/-- The cases of a switch, with its locations changed. -/
def relocateCases : List SwitchCase → List SwitchCase
  | [] => []
  | ⟨test, body⟩ :: rest => ⟨relocateExpr? test, relocateStmts body⟩ :: relocateCases rest

/-- A class with its locations changed. -/
def ClassDecl.relocate : ClassDecl → ClassDecl
  | ⟨name, base, members⟩ => ⟨name, relocateExpr? base, relocateClassMembers members⟩

/-- The members of a class, with its locations changed. -/
def relocateClassMembers : List ClassMember → List ClassMember
  | [] => []
  | ⟨key, kind, isStatic, func⟩ :: rest =>
    ⟨key, kind, isStatic, func.relocate⟩ :: relocateClassMembers rest

end

/-- A program with its locations changed. -/
def Program.relocate (p : Program) : Program := { p with body := relocateStmts ρ p.body }

/-- What becomes of the value of a strategy. -/
def relocateStrategy : Strategy Expr → Strategy Expr
  | .ret => .ret
  | .effect => .effect
  | .assign place => .assign (place.relocate ρ)
  | .join name => .join name

variable {ρ}

attribute [simp] ExprForm.relocate FuncBody.relocate StmtForm.relocate relocateExprs relocateExpr?
  relocateMembers relocateStmts relocateStmts? relocateDecl? relocateDeclarators relocateHandler
  relocateCases relocateClassMembers

/-! ## Lists -/

/-- A list of expressions is relocated one by one. -/
theorem relocateExprs_eq (es : List Expr) : relocateExprs ρ es = es.map (·.relocate ρ) := by
  induction es with
  | nil => rfl
  | cons e es ih => rw [relocateExprs, ih, List.map_cons]

/-- A list of statements is relocated one by one. -/
theorem relocateStmts_eq (ss : List Stmt) : relocateStmts ρ ss = ss.map (·.relocate ρ) := by
  induction ss with
  | nil => rfl
  | cons s ss ih => rw [relocateStmts, ih, List.map_cons]

/-- Two parts of a block are relocated each by itself. -/
@[simp] theorem relocateStmts_append (ss ts : List Stmt) :
    relocateStmts ρ (ss ++ ts) = relocateStmts ρ ss ++ relocateStmts ρ ts := by
  simp only [relocateStmts_eq, List.map_append]

/-- Two parts of a class are relocated each by itself. -/
@[simp] theorem relocateClassMembers_append (ms ns : List ClassMember) :
    relocateClassMembers ρ (ms ++ ns) =
      relocateClassMembers ρ ms ++ relocateClassMembers ρ ns := by
  induction ms with
  | nil => rfl
  | cons m ms ih =>
    obtain ⟨_, _, _, _⟩ := m
    simp only [List.cons_append, relocateClassMembers, ih]

/-! ## Building code -/

namespace Expr

/-- Relocation goes into the form of an expression. -/
@[simp] theorem relocate_form (e : Expr) : (e.relocate ρ).form = e.form.relocate ρ := by
  cases e
  rfl

/-- The location of a relocated expression is the changed one. -/
@[simp] theorem relocate_loc (e : Expr) : (e.relocate ρ).loc = ρ.map e.loc := by
  cases e
  rfl

/-- An expression without a location gets none. -/
@[simp] theorem relocate_of (form : ExprForm) : (of form).relocate ρ = of (form.relocate ρ) := by
  rw [of, relocate, ρ.map_none, of]

/-- An identifier has no location of its own. -/
@[simp] theorem relocate_ident (name : String) : (ident name).relocate ρ = ident name :=
  relocate_of _

/-- A constant has no location of its own. -/
@[simp] theorem relocate_literal (value : Literal) : (literal value).relocate ρ = literal value :=
  relocate_of _

/-- The undefined value has no location of its own. -/
@[simp] theorem relocate_undefined : undefined.relocate ρ = undefined := relocate_of _

/-- A string has no location of its own. -/
@[simp] theorem relocate_string (value : String) : (string value).relocate ρ = string value :=
  relocate_of _

/-- A number has no location of its own. -/
@[simp] theorem relocate_number (value : Nat) : (number value).relocate ρ = number value :=
  relocate_of _

/-- A call is relocated with its callee and its arguments. -/
@[simp] theorem relocate_call (callee : Expr) (args : List Expr) :
    (call callee args).relocate ρ = call (callee.relocate ρ) (relocateExprs ρ args) :=
  relocate_of _

/-- A member is relocated with its object. -/
@[simp] theorem relocate_member (obj : Expr) (property : String) :
    (member obj property).relocate ρ = member (obj.relocate ρ) property :=
  relocate_of _

/-- An element is relocated with its object and its index. -/
@[simp] theorem relocate_index (obj index : Expr) :
    (obj.index index).relocate ρ = (obj.relocate ρ).index (index.relocate ρ) :=
  relocate_of _

/-- A unary operation is relocated with its operand. -/
@[simp] theorem relocate_unary (op : Operator) (operand : Expr) :
    (unary op operand).relocate ρ = unary op (operand.relocate ρ) :=
  relocate_of _

/-- A binary operation is relocated with its operands. -/
@[simp] theorem relocate_binary (op : Operator) (left right : Expr) :
    (binary op left right).relocate ρ = binary op (left.relocate ρ) (right.relocate ρ) :=
  relocate_of _

/-- An assignment is relocated with its place and its value. -/
@[simp] theorem relocate_assign (place value : Expr) :
    (assign place value).relocate ρ = assign (place.relocate ρ) (value.relocate ρ) :=
  relocate_of _

/-- A location is put over an expression before its locations are changed, or after. -/
@[simp] theorem relocate_withLoc (e : Expr) (loc : Option Ir.Location) :
    (e.withLoc loc).relocate ρ = (e.relocate ρ).withLoc (ρ.map loc) := by
  have hor : ∀ (e : Expr) loc, e.withLoc loc = ⟨loc.or e.loc, e.form⟩ := fun e loc => by
    cases e
    cases loc <;> rfl
  rw [hor, hor, relocate, ρ.map_or, relocate_loc, relocate_form]

end Expr

/-- An arrow function is relocated with its body. -/
@[simp] theorem Func.relocate_arrow (params : List Param) (body : FuncBody) :
    (arrow params body).relocate ρ = arrow params (body.relocate ρ) := rfl

/-- A named function is relocated with its body. -/
@[simp] theorem Func.relocate_named (name : String) (params : List Param) (body : List Stmt) :
    (named name params body).relocate ρ = named name params (relocateStmts ρ body) := rfl

/-- A method is relocated with its body. -/
@[simp] theorem Func.relocate_method (params : List Param) (body : List Stmt) :
    (method params body).relocate ρ = method params (relocateStmts ρ body) := rfl

namespace Stmt

/-- Relocation goes into the form of a statement. -/
@[simp] theorem relocate_form (s : Stmt) : (s.relocate ρ).form = s.form.relocate ρ := by
  cases s
  rfl

/-- The location of a relocated statement is the changed one. -/
@[simp] theorem relocate_loc (s : Stmt) : (s.relocate ρ).loc = ρ.map s.loc := by
  cases s
  rfl

/-- A statement without a location gets none. -/
@[simp] theorem relocate_of (form : StmtForm) : (of form).relocate ρ = of (form.relocate ρ) := by
  rw [of, relocate, ρ.map_none, of]

/-- An expression that is a statement is relocated as an expression. -/
@[simp] theorem relocate_expr (e : Expr) : (expr e).relocate ρ = expr (e.relocate ρ) := by
  rw [expr, relocate, expr, Expr.relocate_loc]
  rfl

/-- A declaration is relocated with its value. -/
@[simp] theorem relocate_declare (mode : DeclMode) (name : String) (value : Option Expr) :
    (declare mode name value).relocate ρ = declare mode name (relocateExpr? ρ value) :=
  relocate_of _

/-- A location that is put over a statement is changed like one that is there. -/
@[simp] theorem relocate_withLoc (s : Stmt) (loc : Option Ir.Location) :
    (s.withLoc loc).relocate ρ = (s.relocate ρ).withLoc (ρ.map loc) := by
  have hor : ∀ (s : Stmt) loc, s.withLoc loc = ⟨loc.or s.loc, s.form⟩ := fun s loc => by
    cases s
    cases loc <;> rfl
  rw [hor, hor, relocate, ρ.map_or, relocate_loc, relocate_form]

/-- Exporting a statement commutes with relocating it. -/
@[simp] theorem relocate_exportIf (isPublic : Bool) (s : Stmt) :
    (s.exportIf isPublic).relocate ρ = (s.relocate ρ).exportIf isPublic := by
  cases isPublic with
  | false => rfl
  | true =>
    show Stmt.mk _ _ = Stmt.mk _ _
    rw [relocate_loc]
    rfl

end Stmt

/-- A relocated value is put in its place by relocated statements. -/
@[simp] theorem relocate_deliver (strategy : Strategy Expr) (value : Expr) :
    relocateStmts ρ (deliver strategy value) =
      deliver (relocateStrategy ρ strategy) (value.relocate ρ) := by
  cases strategy <;> simp [deliver, relocateStrategy]

/-- The end of a node without a value has no locations but those of the place. -/
@[simp] theorem relocate_deliverUnit (strategy : Strategy Expr) :
    relocateStmts ρ (deliverUnit strategy) = deliverUnit (relocateStrategy ρ strategy) := by
  cases strategy <;> simp [deliverUnit, relocateStrategy]

/-- The place that a strategy assigns to is relocated. -/
@[simp] theorem relocateStrategy_assign (place : Expr) :
    relocateStrategy ρ (.assign place) = .assign (place.relocate ρ) := rfl

/-- The strategy for the value of a function has no locations. -/
@[simp] theorem relocateStrategy_ofType (isUnit : Bool) :
    relocateStrategy ρ (.ofType isUnit) = .ofType isUnit := by
  cases isUnit <;> rfl

/-- A relocated strategy is in tail position alike. -/
@[simp] theorem relocateStrategy_isTail (strategy : Strategy Expr) :
    (relocateStrategy ρ strategy).isTail = strategy.isTail := by
  cases strategy <;> rfl

/-! ## Keeping all locations -/

mutual

/-- An expression that keeps all locations stays as it is. -/
theorem Expr.relocate_same : (e : Expr) → e.relocate .same = e
  | ⟨loc, form⟩ => by
    rw [Expr.relocate, form.relocate_same]
    rfl

/-- The form of an expression that keeps all locations stays as it is. -/
theorem ExprForm.relocate_same : (f : ExprForm) → f.relocate .same = f
  | .ident _ | .this | .literal _ => rfl
  | .array items | .sequence items | .emit _ items => by
    rw [ExprForm.relocate, relocateExprs_same items]
  | .object members => by rw [ExprForm.relocate, relocateMembers_same members]
  | .unary _ operand | .member operand _ | .spread operand => by
    rw [ExprForm.relocate, operand.relocate_same]
  | .binary _ left right | .index left right => by
    rw [ExprForm.relocate, left.relocate_same, right.relocate_same]
  | .conditional test thenExpr elseExpr => by
    rw [ExprForm.relocate, test.relocate_same, thenExpr.relocate_same, elseExpr.relocate_same]
  | .call callee args | .construct callee args => by
    rw [ExprForm.relocate, callee.relocate_same, relocateExprs_same args]
  | .function func => by rw [ExprForm.relocate, func.relocate_same]

/-- Expressions that keep all locations stay as they are. -/
theorem relocateExprs_same : (es : List Expr) → relocateExprs .same es = es
  | [] => rfl
  | e :: es => by rw [relocateExprs, e.relocate_same, relocateExprs_same es]

/-- An expression that may be missing that keeps all locations stays as it is. -/
theorem relocateExpr?_same : (o : Option Expr) → relocateExpr? .same o = o
  | none => rfl
  | some e => congrArg some e.relocate_same

/-- The members of an object that keeps all locations stays as it is. -/
theorem relocateMembers_same : (ms : List ObjectMember) → relocateMembers .same ms = ms
  | [] => rfl
  | ⟨_, value⟩ :: ms => by
    rw [relocateMembers, value.relocate_same, relocateMembers_same ms]

/-- The value of a member that keeps all locations stays as it is. -/
theorem MemberValue.relocate_same : (v : MemberValue) → v.relocate .same = v
  | .value e => congrArg MemberValue.value e.relocate_same
  | .method func => congrArg MemberValue.method func.relocate_same
  | .getter func => congrArg MemberValue.getter func.relocate_same
  | .setter func => congrArg MemberValue.setter func.relocate_same

/-- A function that keeps all locations stays as it is. -/
theorem Func.relocate_same : (f : Func) → f.relocate .same = f
  | ⟨_, _, _, body⟩ => by rw [Func.relocate, body.relocate_same]

/-- The body of a function that keeps all locations stays as it is. -/
theorem FuncBody.relocate_same : (b : FuncBody) → b.relocate .same = b
  | .block stmts => congrArg FuncBody.block (relocateStmts_same stmts)
  | .value e => congrArg FuncBody.value e.relocate_same

/-- A statement that keeps all locations stays as it is. -/
theorem Stmt.relocate_same : (s : Stmt) → s.relocate .same = s
  | ⟨loc, form⟩ => by
    rw [Stmt.relocate, form.relocate_same]
    rfl

/-- Statements that keep all locations stay as they are. -/
theorem relocateStmts_same : (ss : List Stmt) → relocateStmts .same ss = ss
  | [] => rfl
  | s :: ss => by rw [relocateStmts, s.relocate_same, relocateStmts_same ss]

/-- Statements that may be missing that keeps all locations stays as it is. -/
theorem relocateStmts?_same : (o : Option (List Stmt)) → relocateStmts? .same o = o
  | none => rfl
  | some stmts => congrArg some (relocateStmts_same stmts)

/-- The form of a statement that keeps all locations stays as it is. -/
theorem StmtForm.relocate_same : (f : StmtForm) → f.relocate .same = f
  | .breakTo _ | .continueTo _ | .debugger => rfl
  | .expr e | .throw e => by rw [StmtForm.relocate, e.relocate_same]
  | .block stmts => by rw [StmtForm.relocate, relocateStmts_same stmts]
  | .declare decl => by rw [StmtForm.relocate, decl.relocate_same]
  | .ifElse test thenStmts elseStmts => by
    rw [StmtForm.relocate, test.relocate_same, relocateStmts_same thenStmts,
      relocateStmts_same elseStmts]
  | .whileLoop test body => by
    rw [StmtForm.relocate, test.relocate_same, relocateStmts_same body]
  | .forLoop start test update body => by
    rw [StmtForm.relocate, relocateDecl?_same start, relocateExpr?_same test,
      relocateExpr?_same update, relocateStmts_same body]
  | .ret value => by rw [StmtForm.relocate, relocateExpr?_same value]
  | .labeled _ body => by rw [StmtForm.relocate, body.relocate_same]
  | .tryCatch block handler finalizer => by
    rw [StmtForm.relocate, relocateStmts_same block, relocateHandler_same handler,
      relocateStmts?_same finalizer]
  | .switch subject cases => by
    rw [StmtForm.relocate, subject.relocate_same, relocateCases_same cases]
  | .function func => by rw [StmtForm.relocate, func.relocate_same]
  | .classDecl decl => by rw [StmtForm.relocate, decl.relocate_same]
  | .exported decl => by rw [StmtForm.relocate, decl.relocate_same]

/-- A declaration that keeps all locations stays as it is. -/
theorem VarDecl.relocate_same : (d : VarDecl) → d.relocate .same = d
  | ⟨_, declarators⟩ => by rw [VarDecl.relocate, relocateDeclarators_same declarators]

/-- A declaration that may be missing that keeps all locations stays as it is. -/
theorem relocateDecl?_same : (o : Option VarDecl) → relocateDecl? .same o = o
  | none => rfl
  | some decl => congrArg some decl.relocate_same

/-- The declarators of a declaration that keeps all locations stays as it is. -/
theorem relocateDeclarators_same : (ds : List Declarator) → relocateDeclarators .same ds = ds
  | [] => rfl
  | ⟨_, value⟩ :: ds => by
    rw [relocateDeclarators, relocateExpr?_same value, relocateDeclarators_same ds]

/-- A handler that may be missing that keeps all locations stays as it is. -/
theorem relocateHandler_same : (o : Option CatchClause) → relocateHandler .same o = o
  | none => rfl
  | some ⟨_, body⟩ => by rw [relocateHandler, relocateStmts_same body]

/-- The cases of a switch that keeps all locations stays as it is. -/
theorem relocateCases_same : (cs : List SwitchCase) → relocateCases .same cs = cs
  | [] => rfl
  | ⟨test, body⟩ :: cs => by
    rw [relocateCases, relocateExpr?_same test, relocateStmts_same body, relocateCases_same cs]

/-- A class that keeps all locations stays as it is. -/
theorem ClassDecl.relocate_same : (d : ClassDecl) → d.relocate .same = d
  | ⟨_, base, members⟩ => by
    rw [ClassDecl.relocate, relocateExpr?_same base, relocateClassMembers_same members]

/-- The members of a class that keeps all locations stays as it is. -/
theorem relocateClassMembers_same : (ms : List ClassMember) → relocateClassMembers .same ms = ms
  | [] => rfl
  | ⟨_, _, _, func⟩ :: ms => by
    rw [relocateClassMembers, func.relocate_same, relocateClassMembers_same ms]

end

/-- A program that keeps all locations stays as it is. -/
theorem Program.relocate_same (p : Program) : p.relocate .same = p := by
  rw [Program.relocate, relocateStmts_same]

end TypedLowering.JavaScript
