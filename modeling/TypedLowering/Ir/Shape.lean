import TypedLowering.Ir.Expr

/-!
# The type, the location and the kind of an expression

The type of an expression is read off its shape: annotated nodes give theirs, and the others take it
from the child that gives the value.
-/

namespace TypedLowering.Ir

namespace Literal

/-- The type of a literal. -/
def type : Literal → Ty
  | .this ty | .null ty => ty
  | .unit => .unit
  | .bool _ => .boolean
  | .char _ => .char
  | .string _ => .string
  | .number _ kind => .number kind
  | .regex .. => .regex

end Literal

namespace Expr

mutual

/-- The type of the value. -/
def type : Expr → Ty
  | .literal value _ => value.type
  | .option _ ty _ => .option ty
  | .aggregate kind values _ =>
    match kind with
    | .array ty => .array ty
    | .tuple => .tuple (types values)
    | .record entity generics | .union _ entity generics => .declared entity generics
    | .anonymous _ => .any
  | .ident id => id.ty
  | .cast _ ty | .imported _ ty _ | .object _ ty _ | .call _ _ _ _ ty _ | .apply _ _ ty _
  | .unary _ _ ty _ | .binary _ _ _ ty _ | .logical _ _ _ ty _ | .emit _ _ _ ty _
  | .get _ _ ty _ | .getIndex _ _ ty _ | .success _ _ ty | .throw _ ty _ => ty
  | .lambda arg body _ => .lambda arg.ty body.type
  | .delegate args body _ => .delegate (args.map (·.ty)) body.type
  | .test .. => .boolean
  | .ifThenElse _ thenExpr _ _ => thenExpr.type
  | .decisionTree _ targets => firstType targets
  | .letIn _ _ body | .letRec _ body => body.type
  | .sequence exprs => lastType exprs
  | .set .. | .setIndex .. | .whileLoop .. | .forLoop .. | .debugger _ => .unit
  | .tryCatch body _ _ _ => body.type
  | .curry expr _ _ => expr.type

/-- The types of expressions, one by one. -/
def types : List Expr → List Ty
  | [] => []
  | e :: es => e.type :: types es

/-- The type of the first target's body. -/
def firstType : List Target → Ty
  | [] => .unit
  | ⟨_, body⟩ :: _ => body.type

/-- The type of the last expression. -/
def lastType : List Expr → Ty
  | [] => .unit
  | [e] => e.type
  | _ :: es => lastType es

end

/-- The location of the expression. Binders and casts have that of their body. -/
def location : Expr → Option Location
  | .literal _ loc | .option _ _ loc | .aggregate _ _ loc | .imported _ _ loc
  | .call _ _ _ _ _ loc | .apply _ _ _ loc | .unary _ _ _ loc | .binary _ _ _ _ loc
  | .logical _ _ _ _ loc | .emit _ _ _ _ loc | .get _ _ _ loc | .getIndex _ _ _ loc
  | .set _ _ _ loc | .setIndex _ _ _ loc | .test _ _ loc | .ifThenElse _ _ _ loc
  | .whileLoop _ _ loc | .forLoop _ _ _ _ _ loc | .tryCatch _ _ _ loc | .throw _ _ loc
  | .debugger loc | .curry _ _ loc => loc
  | .ident id => id.loc
  | .cast expr _ => expr.location
  | .lambda _ body _ | .delegate _ body _ | .letIn _ _ body | .letRec _ body => body.location
  | .object .. | .decisionTree .. | .success .. | .sequence _ => none

/-- The name of the construct in messages. -/
def kindName : Expr → String
  | .literal .. | .option .. | .aggregate .. => "value"
  | .ident _ => "identifier"
  | .cast .. => "type cast"
  | .imported .. => "import"
  | .lambda .. => "lambda"
  | .delegate .. => "delegate"
  | .object .. => "object expression"
  | .call .. => "call"
  | .apply .. => "curried application"
  | .unary .. | .binary .. | .logical .. => "operation"
  | .emit .. => "emit"
  | .get .. | .getIndex .. => "get"
  | .set .. | .setIndex .. => "set"
  | .test .. => "test"
  | .ifThenElse .. => "if/then/else"
  | .decisionTree .. => "decision tree"
  | .success .. => "decision tree success"
  | .letIn .. => "let"
  | .letRec .. => "let rec"
  | .sequence _ => "sequential"
  | .whileLoop .. => "while loop"
  | .forLoop .. => "for loop"
  | .tryCatch .. => "try/catch"
  | .throw .. => "throw"
  | .debugger _ => "debugger"
  | .curry .. => "curry"

/-- The expression without the casts around it. -/
def uncast : Expr → Expr
  | .cast expr _ => expr.uncast
  | expr => expr

/-- Whether the expression is the unit constant, possibly under casts. -/
def isUnitConstant (e : Expr) : Bool :=
  match e.uncast with
  | .literal .unit _ => true
  | _ => false

/-- Whether the expression stands for the receiver of the enclosing method. -/
def isReceiver (e : Expr) : Bool :=
  match e.uncast with
  | .ident id => id.isThis
  | .literal (.this _) _ => true
  | _ => false

end Expr

end TypedLowering.Ir
