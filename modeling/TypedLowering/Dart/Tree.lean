import TypedLowering.Number.Binary64

/-!
# Dart libraries

Syntax trees of the generated libraries. Expressions and statements are kept apart, and every
declared name has its type. Names of other libraries carry the prefix of the import.
-/

namespace TypedLowering.Dart

/-- The types of declared names. -/
inductive Ty where
  | integer | double | boolean | string | void | dynamic | object
  | nullable (item : Ty)
  | list (item : Ty)
  | function (args : List Ty) (ret : Ty)
  | generic (name : String)
  | named (importPrefix : Option String) (name : String) (generics : List Ty)
  deriving Repr, Inhabited

/-- The type with null added. Types that have null stay as they are. -/
def Ty.orNull : Ty → Ty
  | .nullable item => .nullable item
  | .dynamic => .dynamic
  | .void => .void
  | ty => .nullable ty

/-- A name with its type, and with the prefix of the library it comes from. -/
structure Ident where
  name : String
  ty : Ty
  importPrefix : Option String
  deriving Repr, Inhabited

/-- The literals of expressions but lists. Whole numbers are not bounded. -/
inductive Literal where
  | null
  | bool (value : Bool)
  | integer (value : Int)
  | double (value : Binary64)
  | string (value : String)
  deriving Inhabited

/-- The operators on one operand. -/
inductive UnaryOp where
  | minus | not | bitNot
  deriving DecidableEq, Repr, Inhabited

/-- The operators on two operands that evaluate both. -/
inductive BinaryOp where
  | equal | notEqual | less | lessOrEqual | greater | greaterOrEqual
  | shiftLeft | shiftRight | shiftRightUnsigned
  | plus | minus | multiply | divide | integerDivide | modulo
  | bitAnd | bitOr | bitXor
  deriving DecidableEq, Repr, Inhabited

/-- The operators that may leave out their right operand. -/
inductive LogicalOp where
  | and | or
  deriving DecidableEq, Repr, Inhabited

/-- How a variable is declared. -/
inductive VarKind where
  | var
  | final
  /-- Assigned on every path before it is used. -/
  | late
  deriving DecidableEq, Repr, Inhabited

mutual

/-- Expressions. None of them holds a statement but inside a function. -/
inductive Expr where
  | literal (value : Literal)
  | list (values : List Expr) (ty : Ty)
  | ident (id : Ident)
  | this
  | unary (op : UnaryOp) (operand : Expr)
  | binary (op : BinaryOp) (left right : Expr)
  | logical (op : LogicalOp) (left right : Expr)
  | conditional (test thenExpr elseExpr : Expr)
  | call (callee : Expr) (args : List Expr) (named : List NamedArg)
  | property (object : Expr) (name : String)
  | index (object index : Expr)
  | typeTest (expr : Expr) (ty : Ty)
  | cast (expr : Expr) (ty : Ty)
  /-- The value of an expression that is not null. -/
  | nullCheck (expr : Expr)
  | function (args : List Ident) (body : List Stmt) (ret : Ty)
  /-- Foreign code with placeholders for the arguments. -/
  | emit (template : String) (args : List Expr)

/-- An argument that is passed by the name of its parameter. -/
structure NamedArg where
  name : String
  value : Expr

/-- Statements. -/
inductive Stmt where
  | expr (expr : Expr)
  | ret (value : Option Expr)
  | declare (id : Ident) (kind : VarKind) (value : Option Expr)
  | assign (target value : Expr)
  | ifElse (guard : Expr) (thenBody elseBody : List Stmt)
  | whileLoop (guard : Expr) (body : List Stmt)
  | forLoop (id : Ident) (start limit : Expr) (isUp : Bool) (body : List Stmt)
  | switch (value : Expr) (cases : List SwitchCase) (default : Option (List Stmt))
  | tryCatch (body : List Stmt) (handler : Option CatchClause) (finalizer : Option (List Stmt))
  | throw (error : Expr)
  | rethrow
  | breakTo (label : Option String)
  | continueTo (label : Option String)
  | labeled (label : String) (body : Stmt)
  | function (func : Func)

/-- One body of a `switch` with the guards that select it. -/
structure SwitchCase where
  guards : List Expr
  body : List Stmt

/-- The handler of a `try` statement. -/
structure CatchClause where
  param : Ident
  body : List Stmt

/-- A function with its type parameters. -/
structure Func where
  name : String
  args : List Ident
  body : List Stmt
  ret : Ty
  generics : List String

end

instance : Inhabited Expr := ⟨.this⟩
instance : Inhabited Stmt := ⟨.rethrow⟩
instance : Inhabited Func := ⟨⟨"", [], [], .void, []⟩⟩

/-- A field of a class. -/
structure InstanceVar where
  id : Ident
  isFinal : Bool
  deriving Repr, Inhabited

/-- The constructor of a class. -/
structure Constructor where
  args : List Ident
  /-- The fields that take the argument of the same name. -/
  fieldArgs : List String
  body : List Stmt
  deriving Inhabited

/-- A class without a base. -/
structure ClassDecl where
  name : String
  generics : List String
  fields : List InstanceVar
  constructor : Option Constructor
  methods : List Func
  deriving Inhabited

/-- A declaration of a library. -/
inductive Declaration where
  | value (id : Ident) (value : Expr) (isFinal : Bool)
  | function (func : Func)
  | classDecl (decl : ClassDecl)
  deriving Inhabited

/-- The import of another library. -/
structure Import where
  path : String
  /-- The prefix of the names of the library. -/
  importPrefix : Option String
  deriving DecidableEq, Repr, Inhabited

/-- A library: its imports and its declarations. -/
structure File where
  imports : List Import
  declarations : List Declaration
  deriving Inhabited

namespace Ident

/-- A name of the same library. -/
def own (name : String) (ty : Ty) : Ident := ⟨name, ty, none⟩

/-- A name of the library that is imported with that prefix. -/
def imported (importPrefix name : String) (ty : Ty) : Ident := ⟨name, ty, some importPrefix⟩

end Ident

namespace Expr

/-- The null literal. -/
def null : Expr := .literal .null

/-- An integer is a word of 64 bits with a sign, and larger numbers wrap. -/
def integer (value : Nat) : Expr := .literal (.integer (Int.bmod value 0x10000000000000000))

/-- A call without named arguments. -/
def callWith (callee : Expr) (args : List Expr) : Expr := .call callee args []

/-- Whether it makes no difference when and how often the expression is evaluated: it is an
identifier or a constant. -/
def isTrivial : Expr → Bool
  | .ident _ | .this | .literal _ => true
  | _ => false

end Expr

end TypedLowering.Dart
