import TypedLowering.Ir.Location
import TypedLowering.Ir.Ty
import TypedLowering.Number.Binary64

/-!
# Expressions

The typed, expression-oriented tree that the back ends lower. Every construct is an expression;
what others call a statement has the unit type here.

A decision tree runs its dispatcher, whose `success` nodes each name one of the tree's targets and
give values for the identifiers that the target binds.
-/

namespace TypedLowering.Ir

/-- An identifier, at its binding place or where it is used. -/
structure Ident where
  name : String
  ty : Ty
  isMutable : Bool
  /-- It stands for the receiver of a method. -/
  isThis : Bool
  /-- It was made up by a compiler pass. -/
  isGenerated : Bool
  loc : Option Location
  deriving Inhabited

/-- Constants, and the receiver of the enclosing method. -/
inductive Literal where
  | this (ty : Ty)
  | null (ty : Ty)
  | unit
  | bool (value : Bool)
  | char (value : Char)
  | string (value : String)
  | number (value : Binary64) (kind : NumberKind)
  | regex (source flags : String)
  deriving Inhabited

/-- What a list of values is put together to. -/
inductive Aggregate where
  | array (ty : Ty)
  | tuple
  | record (entity : String) (generics : List Ty)
  | anonymous (fields : List String)
  | union (tag : Nat) (entity : String) (generics : List Ty)
  deriving Inhabited

/-- The operators on one operand. -/
inductive UnaryOp where
  | minus | plus | not | bitNot
  deriving DecidableEq, Repr, Inhabited

/-- The operators on two operands that evaluate both. -/
inductive BinaryOp where
  | equal | notEqual | less | lessOrEqual | greater | greaterOrEqual
  | shiftLeft | shiftRight | shiftRightZeroFill
  | minus | plus | multiply | divide | modulus | exponent
  | bitOr | bitXor | bitAnd
  deriving DecidableEq, Repr, Inhabited

/-- The operators that may leave out their right operand. -/
inductive LogicalOp where
  | and | or
  deriving DecidableEq, Repr, Inhabited

/-- What is read from an object, other than an element at a computed index. -/
inductive Access where
  | field (name : String)
  | tupleItem (index : Nat)
  | unionTag
  | unionField (case field : Nat)
  | optionValue
  deriving Inhabited

/-- What a test asks of its operand. -/
inductive TestKind where
  | type (ty : Ty)
  | option (isSome : Bool)
  | unionCase (tag : Nat)
  deriving Inhabited

/-- Where an imported value comes from. -/
inductive ImportKind where
  /-- A file of the runtime library. -/
  | library
  /-- A file of the project. -/
  | user
  /-- A member of a declaration of the project. -/
  | member
  deriving DecidableEq, Repr, Inhabited

/-- What an expression imports, and from where. -/
structure ImportRef where
  selector : String
  path : String
  kind : ImportKind
  deriving Inhabited

/-- What a member of an object expression is. -/
inductive MemberKind where
  | value | method | getter | setter
  deriving DecidableEq, Repr, Inhabited

mutual

/-- Expressions. -/
inductive Expr where
  | literal (value : Literal) (loc : Option Location)
  | option (value : Option Expr) (ty : Ty) (loc : Option Location)
  | aggregate (kind : Aggregate) (values : List Expr) (loc : Option Location)
  | ident (id : Ident)
  | cast (expr : Expr) (ty : Ty)
  | imported (ref : ImportRef) (ty : Ty) (loc : Option Location)
  | lambda (arg : Ident) (body : Expr) (name : Option String)
  | delegate (args : List Ident) (body : Expr) (name : Option String)
  | object (members : List ObjectMember) (ty : Ty) (base : Option Expr)
  | call (callee : Expr) (receiver : Option Expr) (args : List Expr) (isNew : Bool) (ty : Ty)
      (loc : Option Location)
  | apply (applied : Expr) (args : List Expr) (ty : Ty) (loc : Option Location)
  | unary (op : UnaryOp) (operand : Expr) (ty : Ty) (loc : Option Location)
  | binary (op : BinaryOp) (left right : Expr) (ty : Ty) (loc : Option Location)
  | logical (op : LogicalOp) (left right : Expr) (ty : Ty) (loc : Option Location)
  /-- Foreign code, taken as it is, with holes for the arguments. -/
  | emit (template : String) (args : List Expr) (isStatement : Bool) (ty : Ty)
      (loc : Option Location)
  | get (object : Expr) (access : Access) (ty : Ty) (loc : Option Location)
  | getIndex (object index : Expr) (ty : Ty) (loc : Option Location)
  /-- Assigns to the target itself, or to a field of it. -/
  | set (target : Expr) (field : Option String) (value : Expr) (loc : Option Location)
  | setIndex (target index value : Expr) (loc : Option Location)
  | test (expr : Expr) (kind : TestKind) (loc : Option Location)
  | ifThenElse (guard thenExpr elseExpr : Expr) (loc : Option Location)
  | decisionTree (dispatcher : Expr) (targets : List Target)
  | success (index : Nat) (values : List Expr) (ty : Ty)
  | letIn (ident : Ident) (value body : Expr)
  | letRec (bindings : List Binding) (body : Expr)
  | sequence (exprs : List Expr)
  | whileLoop (guard body : Expr) (loc : Option Location)
  | forLoop (ident : Ident) (start limit body : Expr) (isUp : Bool) (loc : Option Location)
  | tryCatch (body : Expr) (handler : Option Handler) (finalizer : Option Expr)
      (loc : Option Location)
  /-- Throws the error, or what the enclosing handler caught. -/
  | throw (error : Option Expr) (ty : Ty) (loc : Option Location)
  | debugger (loc : Option Location)
  | curry (expr : Expr) (arity : Nat) (loc : Option Location)

/-- A member of an object expression. -/
structure ObjectMember where
  name : String
  args : List Ident
  body : Expr
  kind : MemberKind

/-- A target of a decision tree: the identifiers that a success node binds, and the body. -/
structure Target where
  bound : List Ident
  body : Expr

/-- A binding of a recursive let. -/
structure Binding where
  ident : Ident
  value : Expr

/-- A handler of a try expression. -/
structure Handler where
  param : Ident
  body : Expr

end

instance : Inhabited Expr := ⟨.debugger none⟩

end TypedLowering.Ir
