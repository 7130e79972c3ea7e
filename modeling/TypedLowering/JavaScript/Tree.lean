import TypedLowering.Ir.Location
import TypedLowering.JavaScript.Operator
import TypedLowering.Number.Binary64

/-!
# JavaScript programs

Syntax trees of the generated modules. An expression or statement is a form together with the place
of the source that it was lowered from, if there is one; without it the node gets no entry in the
source map.
-/

namespace TypedLowering.JavaScript

open Ir (Location)

/-- The literals of expressions. A regular expression is its pattern and its flags. -/
inductive Literal where
  | null
  | undefined
  | bool (value : Bool)
  | number (value : Binary64)
  | string (value : String)
  | regex (pattern flags : String)
  deriving Inhabited

/-- A parameter of a function. A rest parameter collects what arguments are left. -/
structure Param where
  name : String
  isRest : Bool
  deriving DecidableEq, Repr, Inhabited

/-- How a variable is declared. -/
inductive DeclMode where
  | const | let | var
  deriving DecidableEq, Repr, Inhabited

/-- What a member of a class is for. -/
inductive ClassMemberKind where
  | constructor | method | getter | setter
  deriving DecidableEq, Repr, Inhabited

mutual

/-- An expression with the place that it was lowered from. -/
structure Expr where
  loc : Option Location
  form : ExprForm

/-- The forms of expressions. -/
inductive ExprForm where
  | ident (name : String)
  | this
  | literal (value : Literal)
  | array (items : List Expr)
  | object (members : List ObjectMember)
  | unary (op : Operator) (operand : Expr)
  /-- Binary, logical and assignment operators. -/
  | binary (op : Operator) (left right : Expr)
  | conditional (test thenExpr elseExpr : Expr)
  | call (callee : Expr) (args : List Expr)
  | construct (callee : Expr) (args : List Expr)
  | member (object : Expr) (property : String)
  | index (object index : Expr)
  | function (func : Func)
  | spread (operand : Expr)
  | sequence (items : List Expr)
  /-- Foreign code with placeholders for the arguments. -/
  | emit (template : String) (args : List Expr)

/-- A member of an object literal. -/
structure ObjectMember where
  key : String
  value : MemberValue

/-- What a member of an object literal is: a value, a method, or one half of an accessor. -/
inductive MemberValue where
  | value (value : Expr)
  | method (func : Func)
  | getter (func : Func)
  | setter (func : Func)

/-- A function, which has a name only where it is declared. -/
structure Func where
  name : Option String
  isArrow : Bool
  params : List Param
  body : FuncBody

/-- The body of a function: statements, or the value of an arrow function. -/
inductive FuncBody where
  | block (stmts : List Stmt)
  /-- The value of an arrow function without braces. -/
  | value (value : Expr)

/-- A statement with the place that it was lowered from. -/
structure Stmt where
  loc : Option Location
  form : StmtForm

/-- The forms of statements. -/
inductive StmtForm where
  | expr (expr : Expr)
  | block (stmts : List Stmt)
  | declare (decl : VarDecl)
  | ifElse (test : Expr) (thenStmts elseStmts : List Stmt)
  | whileLoop (test : Expr) (body : List Stmt)
  | forLoop (start : Option VarDecl) (test update : Option Expr) (body : List Stmt)
  | ret (value : Option Expr)
  | throw (error : Expr)
  | breakTo (label : Option String)
  | continueTo (label : Option String)
  | labeled (label : String) (body : Stmt)
  | tryCatch (block : List Stmt) (handler : Option CatchClause) (finalizer : Option (List Stmt))
  | switch (subject : Expr) (cases : List SwitchCase)
  | debugger
  | function (func : Func)
  | classDecl (decl : ClassDecl)
  /-- The word `export` in front of a function, class or variable declaration. -/
  | exported (decl : Stmt)

/-- One variable of a declaration and its initial value. -/
structure Declarator where
  name : String
  value : Option Expr

/-- A declaration of variables of one mode. -/
structure VarDecl where
  mode : DeclMode
  declarators : List Declarator

/-- The handler of a `try` statement. Its parameter may be left out. -/
structure CatchClause where
  param : Option String
  body : List Stmt

/-- A case of a switch; the default case has no test. -/
structure SwitchCase where
  test : Option Expr
  body : List Stmt

/-- A member of a class. -/
structure ClassMember where
  key : String
  kind : ClassMemberKind
  isStatic : Bool
  func : Func

/-- A class: its name, its base and its members. -/
structure ClassDecl where
  name : String
  base : Option Expr
  members : List ClassMember

end

instance : Inhabited Expr := ⟨⟨none, .this⟩⟩
instance : Inhabited Stmt := ⟨⟨none, .debugger⟩⟩

/-- One import declaration. Without any binding it runs the module for its effects. -/
structure ImportDecl where
  path : String
  /-- The local name of the default export. -/
  default : Option String
  /-- The local name of the whole module. -/
  whole : Option String
  /-- Exported names with their local names. -/
  names : List (String × String)
  deriving DecidableEq, Repr, Inhabited

/-- A module: its imports and the statements below them. -/
structure Program where
  imports : List ImportDecl
  body : List Stmt
  deriving Inhabited

namespace Expr

/-- An expression that stands for nothing in the source. -/
def of (form : ExprForm) : Expr := ⟨none, form⟩

/-- The expression at another location, if there is one. -/
def withLoc (e : Expr) (loc : Option Location) : Expr :=
  if loc.isSome then { e with loc } else e

/-- A change of the place leaves the form alone. -/
theorem form_withLoc (e : Expr) (loc : Option Location) : (e.withLoc loc).form = e.form := by
  rw [withLoc]
  split <;> rfl

/-- The identifier of the name, at no place. -/
def ident (name : String) : Expr := of (.ident name)

/-- The literal, at no place. -/
def literal (value : Literal) : Expr := of (.literal value)

/-- The undefined value. -/
def undefined : Expr := literal .undefined

/-- A string literal. -/
def string (value : String) : Expr := literal (.string value)

/-- A number literal that is a natural number. -/
def number (value : Nat) : Expr := literal (.number (.ofNat value))

/-- A call of `callee`. -/
def call (callee : Expr) (args : List Expr) : Expr := of (.call callee args)

/-- The property of that name of an object. -/
def member (object : Expr) (property : String) : Expr := of (.member object property)

/-- An item of a list, or a computed property. -/
def index (object index : Expr) : Expr := of (.index object index)

/-- An operator applied to one operand. -/
def unary (op : Operator) (operand : Expr) : Expr := of (.unary op operand)

/-- An operator between two operands. -/
def binary (op : Operator) (left right : Expr) : Expr := of (.binary op left right)

/-- The assignment of a value to a place. -/
def assign (target value : Expr) : Expr := binary .assignment target value

end Expr

namespace Stmt

/-- A statement that stands for nothing in the source. -/
def of (form : StmtForm) : Stmt := ⟨none, form⟩

/-- The statement that evaluates an expression, at the location of the expression. -/
def expr (e : Expr) : Stmt := ⟨e.loc, .expr e⟩

/-- The declaration of one variable. -/
def declare (mode : DeclMode) (name : String) (value : Option Expr) : Stmt :=
  of (.declare ⟨mode, [⟨name, value⟩]⟩)

/-- The statement at another location, if there is one. -/
def withLoc (s : Stmt) (loc : Option Location) : Stmt :=
  if loc.isSome then { s with loc } else s

/-- The statement, exported if `isPublic`. -/
def exportIf (isPublic : Bool) (s : Stmt) : Stmt :=
  if isPublic then ⟨s.loc, .exported s⟩ else s

end Stmt

namespace Func

/-- An arrow function. -/
def arrow (params : List Param) (body : FuncBody) : Func := ⟨none, true, params, body⟩

/-- A function declared under a name. -/
def named (name : String) (params : List Param) (body : List Stmt) : Func :=
  ⟨some name, false, params, .block body⟩

/-- A function that its surroundings name: a method, an accessor or a constructor. -/
def method (params : List Param) (body : List Stmt) : Func := ⟨none, false, params, .block body⟩

end Func

end TypedLowering.JavaScript
