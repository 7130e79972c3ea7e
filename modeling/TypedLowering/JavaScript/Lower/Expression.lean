import TypedLowering.JavaScript.Lower.Parts

/-!
# Lowering to expressions

Most nodes are expressions in JavaScript, too: sequences become comma expressions and conditionals
become `?:`. What needs statements becomes an arrow function that is called at once.
-/

namespace TypedLowering.JavaScript

open Ir (Ty)

/-- Whether `===` compares the values of a type. -/
def isPrimitive : Ty → Bool
  | .unit | .boolean | .char | .string | .number _ => true
  | _ => false

/-- The operator of JavaScript for an operator on one operand. -/
def unaryOperator : Ir.UnaryOp → Operator
  | .minus => .negation
  | .plus => .plus
  | .not => .not
  | .bitNot => .bitNot

/-- The operator of JavaScript for an operator on two operands. Equality is strict. -/
def binaryOperator : Ir.BinaryOp → Operator
  | .equal => .strictEquality
  | .notEqual => .strictInequality
  | .less => .less
  | .lessOrEqual => .lessOrEqual
  | .greater => .greater
  | .greaterOrEqual => .greaterOrEqual
  | .shiftLeft => .shiftLeft
  | .shiftRight => .shiftRight
  | .shiftRightZeroFill => .unsignedShiftRight
  | .minus => .subtraction
  | .plus => .addition
  | .multiply => .multiplication
  | .divide => .division
  | .modulus => .remainder
  | .exponent => .exponentiation
  | .bitOr => .bitOr
  | .bitXor => .bitXor
  | .bitAnd => .bitAnd

/-- The operator of JavaScript that may leave out its right operand. -/
def logicalOperator : Ir.LogicalOp → Operator
  | .and => .and
  | .or => .or

/-- A constant, or the receiver. -/
def literalForm : Ir.Literal → ExprForm
  | .this _ => .this
  | .null _ => .literal .null
  | .unit => .literal .undefined
  | .bool value => .literal (.bool value)
  | .char value => .literal (.string value.toString)
  | .string value => .literal (.string value)
  | .number value _ => .literal (.number value)
  | .regex source flags => .literal (.regex source flags)

/-- Items of a comma expression. -/
def sequenceOf : List Expr → Expr
  | [] => .undefined
  | [item] => item
  | items => .of (.sequence items)

/-- Whether the `typeof` of a value is `name`. -/
def hasTypeOf (value : Expr) (name : String) : Expr :=
  .binary .strictEquality (.unary .typeOf value) (.string name)

namespace Parts

variable (r : Parts)

/-- The values of a property list with their keys. -/
def properties (ctx : Context) : List String → List Ir.Expr → Lower (List ObjectMember)
  | key :: keys, value :: values => do
    let value ← r.expr ctx value
    let rest ← properties ctx keys values
    return ⟨key, .value value⟩ :: rest
  | _, _ => pure []

/-- An array, a tuple, a record or a case of a union. Tuples are arrays; a union case keeps its tag
and its fields. -/
def aggregate (ctx : Context) (kind : Ir.Aggregate) (values : List Ir.Expr) : Lower Expr :=
  match kind with
  | .array _ | .tuple => do return .of (.array (← r.exprs ctx values))
  | .record entity _ => do
    let name ← className ctx entity
    return .of (.construct (.ident name) (← r.exprs ctx values))
  | .anonymous fields => do return .of (.object (← r.properties ctx fields values))
  | .union tag entity _ => do
    let fields ← r.exprs ctx values
    let name ← className ctx entity
    return .of (.construct (.ident name) [.number tag, .of (.array fields)])

/-- A member of an object expression. -/
def objectMember (ctx : Context) (m : Ir.ObjectMember) : Lower ObjectMember :=
  match m.kind with
  | .value => do return ⟨m.name, .value (← r.expr ctx m.body)⟩
  | .method => do
    let (params, body) ← r.function ctx none m.args m.body
    return ⟨m.name, .method (.method params body)⟩
  | .getter => do
    let (params, body) ← r.function ctx none m.args m.body
    return ⟨m.name, .getter (.method params body)⟩
  | .setter => do
    let (params, body) ← r.function ctx none m.args m.body
    return ⟨m.name, .setter (.method params body)⟩

/-- Lower the members of an object expression in order. -/
def objectMembers (ctx : Context) : List Ir.ObjectMember → Lower (List ObjectMember)
  | [] => pure []
  | m :: ms => do
    let first ← r.objectMember ctx m
    let rest ← objectMembers ctx ms
    return first :: rest

/-- A call that is not expanded. The receiver is the first argument. -/
def call (ctx : Context) (callee : Ir.Expr) (receiver : Option Ir.Expr) (args : List Ir.Expr)
    (isNew : Bool) : Lower Expr := do
  let callee ← r.expr ctx callee
  let args ← r.exprs ctx (receiver.toList ++ discardUnitArg args)
  return .of (if isNew then .construct callee args else .call callee args)

/-- The application of a function to curried arguments. -/
def applied (ctx : Context) : Expr → List Ir.Expr → Lower Expr
  | f, [] => pure f
  | f, arg :: args => do
    let arg ← r.expr ctx arg
    applied ctx (.call f [arg]) args

/-- A binary operation. Values that are compared structurally go to a helper, and the quotient of
integers is truncated. -/
def binary (ctx : Context) (op : Ir.BinaryOp) (left right : Ir.Expr) (ty : Ty) : Lower Expr := do
  let leftValue ← r.expr ctx left
  let rightValue ← r.expr ctx right
  let plain : Expr := .binary (binaryOperator op) leftValue rightValue
  match op with
  | .equal =>
    if isPrimitive left.type then return plain
    else return .call (.ident (← helper ctx "equals")) [leftValue, rightValue]
  | .notEqual =>
    if isPrimitive left.type then return plain
    else return .unary .not (.call (.ident (← helper ctx "equals")) [leftValue, rightValue])
  | .divide => return if ty.isInteger then .binary .bitOr plain (.number 0) else plain
  | _ => return plain

/-- The place of an access. -/
def access (obj : Expr) : Ir.Access → Expr
  | .field name => .member obj name
  | .tupleItem i => .index obj (.number i)
  | .unionTag => .member obj "tag"
  | .unionField _ field => .index (.member obj "fields") (.number field)
  | .optionValue => obj

/-- The place that an assignment writes to. -/
def place (ctx : Context) (target : Ir.Expr) (field : Option String) : Lower Expr := do
  let obj ← r.expr ctx target
  return match field with
    | none => obj
    | some name => .member obj name

/-- The element that an assignment writes to. -/
def element (ctx : Context) (target index : Ir.Expr) : Lower Expr := do
  let obj ← r.expr ctx target
  return .index obj (← r.expr ctx index)

/-- A test of a value. -/
def test (ctx : Context) (value : Expr) (kind : Ir.TestKind) (loc : Option Ir.Location) :
    Lower Expr :=
  match kind with
  | .type ty =>
    match ty with
    | .any => pure (.literal (.bool true))
    | .boolean => pure (hasTypeOf value "boolean")
    | .char | .string => pure (hasTypeOf value "string")
    | .number _ => pure (hasTypeOf value "number")
    | .lambda .. | .delegate .. => pure (hasTypeOf value "function")
    | .array _ | .list _ | .tuple _ =>
      pure (.call (.member (.ident "Array") "isArray") [value])
    | .regex => pure (.binary .instanceOf value (.ident "RegExp"))
    | .declared entity _ => do
      return .binary .instanceOf value (.ident (← className ctx entity))
    | .unit | .option _ | .param _ => .fail (.unsupportedType ty loc)
  | .option isSome =>
    pure (.binary (if isSome then .inequality else .equality) value (.literal .null))
  | .unionCase tag => pure (.binary .strictEquality (.member value "tag") (.number tag))

/-- The body of the target that a success node without statements selects. -/
def target (ctx : Context) (index : Nat) : Lower Ir.Target :=
  .ofOption (.missingTarget index) ctx.targets[index]?

/-- The expression for a node that is one, without its own location. -/
def exprCore (ctx : Context) (e : Ir.Expr) : Lower Expr :=
  match e with
  | .literal value _ => pure (.of (literalForm value))
  | .option none _ _ => pure (.literal .null)
  | .option (some value) _ _ => r.expr ctx value
  | .aggregate kind values _ => r.aggregate ctx kind values
  | .ident id => pure (if id.isThis then .of .this else .ident id.name)
  | .cast inner _ => r.expr ctx inner
  | .imported ref _ _ => do
    let (path, selector) ← .resolveImport ctx.file ref
    return .ident (← .importMember path selector)
  | .lambda arg body _ => r.closure ctx [arg] body
  | .delegate args body _ => r.closure ctx args body
  | .object members _ base => do
    let obj : Expr := .of (.object (← r.objectMembers ctx members))
    match base with
    | none => return obj
    | some base =>
      return .call (.member (.ident "Object") "assign") [← r.expr ctx base, obj]
  | .call callee receiver args isNew _ _ => r.call ctx callee receiver args isNew
  | .apply f args _ _ => do r.applied ctx (← r.expr ctx f) args
  | .unary op operand _ _ => do return .unary (unaryOperator op) (← r.expr ctx operand)
  | .binary op left right ty _ => r.binary ctx op left right ty
  | .logical op left right _ _ => do
    let left ← r.expr ctx left
    return .binary (logicalOperator op) left (← r.expr ctx right)
  | .emit template args _ _ _ => do return .of (.emit template (← r.exprs ctx args))
  | .get obj kind _ _ => do return access (← r.expr ctx obj) kind
  | .getIndex obj index _ _ => r.element ctx obj index
  | .set target field value _ => do
    let place ← r.place ctx target field
    return .assign place (← r.expr ctx value)
  | .setIndex target index value _ => do
    let place ← r.element ctx target index
    return .assign place (← r.expr ctx value)
  | .test value kind loc => do test ctx (← r.expr ctx value) kind loc
  | .ifThenElse guard thenExpr elseExpr _ => do
    let test ← r.expr ctx guard
    let thenExpr ← r.expr ctx thenExpr
    return .of (.conditional test thenExpr (← r.expr ctx elseExpr))
  | .decisionTree dispatcher targets => r.expr (ctx.withTargets targets) dispatcher
  | .success index _ _ => do r.expr ctx (← target ctx index).body
  | .sequence exprs => do return sequenceOf (← r.exprs ctx exprs)
  | .curry inner arity _ => do
    let curry ← helper ctx ("curry" ++ toString arity)
    return .call (.ident curry) [← r.expr ctx inner]
  | .throw .. | .debugger _ | .letIn .. | .letRec .. | .whileLoop .. | .forLoop .. | .tryCatch .. =>
    r.invoked ctx e

/-- Whether a node is evaluated by an arrow function that is called at once. -/
def isInvoked (ctx : Context) (e : Ir.Expr) : Lower Bool :=
  match e with
  | .emit _ _ isStatement _ _ => pure isStatement
  | .throw .. | .debugger _ | .letIn .. | .letRec .. | .whileLoop .. | .forLoop .. | .tryCatch .. =>
    pure true
  | .decisionTree .. | .success .. => .isStatement ctx false e
  | .sequence exprs => exprs.anyM (.isStatement ctx false)
  | _ => pure false

/-- The expansion of a node that is a call of an inline function. -/
def expansion? (ctx : Context) (e : Ir.Expr) : Lower (Option Ir.Expr) :=
  match e with
  | .call callee none args _ _ _ => expandInline ctx.file callee args
  | _ => pure none

/-- The rule for any node in a place that takes an expression. -/
def exprRule (ctx : Context) (e : Ir.Expr) : Lower Expr := do
  match ← expansion? ctx e with
  | some expanded => r.expr ctx expanded
  | none =>
    if ← isInvoked ctx e then r.invoked ctx e
    else return (← r.exprCore ctx e).withLoc e.location

end Parts

end TypedLowering.JavaScript
