import TypedLowering.Dart.Lower.Parts

/-!
# Lowering to expressions

What Dart has no expression for is captured in a local. Statements of an operand that is evaluated
only under a condition stay under that condition.
-/

namespace TypedLowering.Dart

/-- The operator of a unary operation; a plus sign has none. -/
def unaryOperator? : Ir.UnaryOp → Option UnaryOp
  | .minus => some .minus
  | .plus => none
  | .not => some .not
  | .bitNot => some .bitNot

/-- The operator of Dart that may leave out its right operand. -/
def logicalOperator : Ir.LogicalOp → LogicalOp
  | .and => .and
  | .or => .or

/-- A binary operation with the type of its result. The remainder is a method, since `%` is the
modulus, and powers come from a library. -/
def binaryValue (file : SourceFile) (op : Ir.BinaryOp) (left right : Expr) (ty : Ir.Ty) :
    Lower Expr :=
  match op with
  | .equal => pure (.binary .equal left right)
  | .notEqual => pure (.binary .notEqual left right)
  | .less => pure (.binary .less left right)
  | .lessOrEqual => pure (.binary .lessOrEqual left right)
  | .greater => pure (.binary .greater left right)
  | .greaterOrEqual => pure (.binary .greaterOrEqual left right)
  | .shiftLeft => pure (.binary .shiftLeft left right)
  | .shiftRight => pure (.binary .shiftRight left right)
  | .shiftRightZeroFill => pure (.binary .shiftRightUnsigned left right)
  | .plus => pure (.binary .plus left right)
  | .minus => pure (.binary .minus left right)
  | .multiply => pure (.binary .multiply left right)
  | .divide => pure (.binary (if ty.isInteger then .integerDivide else .divide) left right)
  | .bitOr => pure (.binary .bitOr left right)
  | .bitXor => pure (.binary .bitXor left right)
  | .bitAnd => pure (.binary .bitAnd left right)
  | .modulus => pure (.callWith (.property left "remainder") [right])
  | .exponent => do
    let math ← .importWhole "dart:math"
    let power : Expr := .ident (.imported math "pow" .dynamic)
    return .cast (.callWith power [left, right]) (← lowerType file ty)

/-- The named argument of a regular expression for a flag, if it has one. -/
def flagArg? : Char → Option NamedArg
  | 'i' => some ⟨"caseSensitive", .literal (.bool false)⟩
  | 'm' => some ⟨"multiLine", .literal (.bool true)⟩
  | 's' => some ⟨"dotAll", .literal (.bool true)⟩
  | 'u' => some ⟨"unicode", .literal (.bool true)⟩
  | _ => none

/-- A constant, or the receiver. -/
def literalValue : Ir.Literal → Expr
  | .this _ => .this
  | .null _ | .unit => .null
  | .bool value => .literal (.bool value)
  | .char value => .literal (.string value.toString)
  | .string value => .literal (.string value)
  | .number value kind =>
    if kind.isInteger then .literal (.integer value.toInt64) else .literal (.double value)
  | .regex source flags =>
    .call (.ident (.own "RegExp" .dynamic)) [.literal (.string source)]
      (flags.toList.filterMap flagArg?)

/-- The class of an entity, to be called as a constructor. -/
def constructorOf (file : SourceFile) (entity : String) : Lower Expr := do
  let entity ← .ofOption (.missingEntity entity) (file.settings.entity? entity)
  return .ident (.own entity.displayName .dynamic)

/-- The constructor of a tuple of that type. -/
def tupleConstructor (file : SourceFile) (ty : Ir.Ty) (loc : Option Ir.Location) : Lower Expr := do
  match ← lowerType file ty with
  | .named library name _ => return .ident ⟨name, .dynamic, library⟩
  | _ => .fail (.unsupportedType ty loc)

/-- A member of another file. Only members have a name that can be used. -/
def importedValue (file : SourceFile) (ref : Ir.ImportRef) (ty : Ir.Ty)
    (loc : Option Ir.Location) : Lower Expr := do
  if ref.selector = "*" ∨ ref.selector = "default" then
    .fail (.unsupported (.unnamedImport ref.selector ref.path) loc)
  else
    let (path, selector) ← .resolveImport file ref
    let library ← .importWhole path
    return .ident (.imported library selector (← lowerType file ty))

/-- What is read from an object. -/
def access (file : SourceFile) (obj : Expr) (kind : Ir.Access) (ty : Ir.Ty) : Lower Expr :=
  match kind with
  | .field name => pure (.property obj name)
  | .tupleItem i => pure (.property obj ("item" ++ toString (i + 1)))
  | .unionTag => pure (.property obj "tag")
  | .unionField _ field => do
    return .cast (.index (.property obj "fields") (.integer field)) (← lowerType file ty)
  | .optionValue => pure (.nullCheck obj)

/-- A test of a value. -/
def test (file : SourceFile) (value : Expr) : Ir.TestKind → Lower Expr
  | .type ty => do return .typeTest value (← lowerType file ty)
  | .option isSome => pure (.binary (if isSome then .notEqual else .equal) value .null)
  | .unionCase tag => pure (.binary .equal (.property value "tag") (.integer tag))

/-- The end of a branch whose value goes to `target`, or is only evaluated if there is none. -/
def branchEnd (target : Option Ident) (value : Expr) : List Stmt :=
  match target with
  | some id => [.assign (.ident id) value]
  | none => if value.isTrivial then [] else [.expr value]

/-- Whether a callee can be constructed: it is a name. -/
def isConstructible (callee : Ir.Expr) : Bool :=
  match callee.uncast with
  | .imported .. | .ident _ => true
  | _ => false

/-- The target that a success node selects. -/
def target (ctx : Context) (index : Nat) : Lower Ir.Target :=
  .ofOption (.missingTarget index) ctx.targets[index]?

namespace Parts

variable (r : Parts)

/-- An array, a tuple, a record or a case of a union. -/
def aggregate (ctx : Context) (hoists : Bool) (kind : Ir.Aggregate) (values : List Ir.Expr)
    (loc : Option Ir.Location) : Lower (Hoisted Expr) :=
  match kind with
  | .array ty => do
    let values ← r.operands ctx hoists values
    return ⟨values.before, .list values.value (← lowerType ctx.file ty)⟩
  | .tuple => do
    let callee ← tupleConstructor ctx.file (.tuple (values.map (·.type))) loc
    let values ← r.operands ctx hoists values
    return ⟨values.before, .callWith callee values.value⟩
  | .record entity _ => do
    let callee ← constructorOf ctx.file entity
    let values ← r.operands ctx hoists values
    return ⟨values.before, .callWith callee values.value⟩
  | .union tag entity _ => do
    let callee ← constructorOf ctx.file entity
    let values ← r.operands ctx hoists values
    return ⟨values.before, .callWith callee [.integer tag, .list values.value .dynamic]⟩
  | .anonymous _ => .fail (.unsupported .anonymousRecord loc)

/-- A call that is not expanded. The receiver is the first argument. -/
def call (ctx : Context) (hoists : Bool) (callee : Ir.Expr) (receiver : Option Ir.Expr)
    (args : List Ir.Expr) : Lower (Hoisted Expr) := do
  let all ← r.operands ctx hoists (callee :: (receiver.toList ++ discardUnitArg args))
  match all.value with
  | callee :: args => return ⟨all.before, .callWith callee args⟩
  | [] => return ⟨all.before, .null⟩

/-- The application of a function to curried arguments. -/
def applied (ctx : Context) (hoists : Bool) (f : Ir.Expr) (args : List Ir.Expr) :
    Lower (Hoisted Expr) := do
  let all ← r.operands ctx hoists (f :: args)
  match all.value with
  | f :: args => return ⟨all.before, args.foldl (fun f arg => .callWith f [arg]) f⟩
  | [] => return ⟨all.before, .null⟩

/-- A logical operation. If the right operand needs statements, they run under the condition that
the left one does not decide. -/
def logical (ctx : Context) (hoists : Bool) (op : LogicalOp) (left right : Ir.Expr) :
    Lower (Hoisted Expr) := do
  let left ← r.expr ctx hoists left
  let right ← r.expr ctx hoists right
  if right.before.isEmpty then return ⟨left.before, .logical op left.value right.value⟩
  else
    let id ← freshLocal ctx.file "tmp" .boolean
    let guard : Expr := match op with
      | .and => .ident id
      | .or => .unary .not (.ident id)
    return ⟨left.before ++ [.declare id .var (some left.value),
      .ifElse guard (right.before ++ [.assign (.ident id) right.value]) []], .ident id⟩

/-- A conditional of that type. If a branch needs statements, they run in that branch. -/
def conditional (ctx : Context) (hoists : Bool) (guard thenExpr elseExpr : Ir.Expr) (ty : Ir.Ty) :
    Lower (Hoisted Expr) := do
  let guard ← r.expr ctx hoists guard
  let thenPart ← r.expr ctx hoists thenExpr
  let elsePart ← r.expr ctx hoists elseExpr
  if thenPart.before.isEmpty && elsePart.before.isEmpty then
    return ⟨guard.before, .conditional guard.value thenPart.value elsePart.value⟩
  else
    let id ← if ty.isUnit then pure none else do pure (some (← freshLocal ctx.file "tmp" ty))
    let declared : List Stmt := id.toList.map fun id => .declare id .var none
    return ⟨guard.before ++ declared ++
      [.ifElse guard.value (thenPart.before ++ branchEnd id thenPart.value)
        (elsePart.before ++ branchEnd id elsePart.value)],
      match id with
      | some id => .ident id
      | none => .null⟩

/-- The expression for a node that is one. -/
def exprCore (ctx : Context) (hoists : Bool) (e : Ir.Expr) : Lower (Hoisted Expr) :=
  match e with
  | .literal value _ => pure ⟨[], literalValue value⟩
  | .option none _ _ => pure ⟨[], .null⟩
  | .option (some value) _ _ => r.expr ctx hoists value
  | .aggregate kind values loc => r.aggregate ctx hoists kind values loc
  | .ident id => do
    if id.isThis then return ⟨[], .this⟩
    else return ⟨[], .ident (← lowerIdent ctx.file id)⟩
  | .cast inner ty => do
    let value ← r.expr ctx hoists inner
    if ty.same .any || ty.same inner.type then return value
    else return ⟨value.before, .cast value.value (← lowerType ctx.file ty)⟩
  | .imported ref ty loc => do return ⟨[], ← importedValue ctx.file ref ty loc⟩
  | .lambda arg body _ => do return ⟨[], ← r.closure ctx [arg] body⟩
  | .delegate args body _ => do return ⟨[], ← r.closure ctx args body⟩
  | .object .. => .fail (.unsupported .objectExpression none)
  | .call callee receiver args isNew _ loc =>
    if isNew && !isConstructible callee then .fail (.unsupported .computedConstructor loc)
    else r.call ctx hoists callee receiver args
  | .apply f args _ _ => r.applied ctx hoists f args
  | .unary op operand _ _ => do
    let operand ← r.expr ctx hoists operand
    match unaryOperator? op with
    | none => return operand
    | some op => return ⟨operand.before, .unary op operand.value⟩
  | .binary op left right ty _ => do
    let ⟨before, left, right⟩ ← r.operandPair ctx hoists left right
    return ⟨before, ← binaryValue ctx.file op left right ty⟩
  | .logical op left right _ _ => r.logical ctx hoists (logicalOperator op) left right
  | .emit template args _ _ _ => do
    let args ← r.operands ctx hoists args
    return ⟨args.before, .emit template args.value⟩
  | .get obj kind ty _ => do
    let obj ← r.expr ctx hoists obj
    return ⟨obj.before, ← access ctx.file obj.value kind ty⟩
  | .getIndex obj index _ _ => do
    let ⟨before, obj, index⟩ ← r.operandPair ctx hoists obj index
    return ⟨before, .index obj index⟩
  | .test value kind _ => do
    let value ← r.expr ctx hoists value
    return ⟨value.before, ← test ctx.file value.value kind⟩
  | .ifThenElse guard thenExpr elseExpr _ =>
    r.conditional ctx hoists guard thenExpr elseExpr e.type
  | .decisionTree dispatcher targets => r.expr (ctx.withTargets targets) hoists dispatcher
  | .success index _ _ => do r.expr ctx hoists (← target ctx index).body
  | .curry inner arity _ => do
    let value ← r.expr ctx hoists inner
    let library ← runtimePrefix ctx.file "Util.dart"
    let curry : Expr := .ident (.imported library ("curry" ++ toString arity) .dynamic)
    return ⟨value.before, .callWith curry [value.value]⟩
  | .throw .. | .debugger _ | .set .. | .setIndex .. | .letIn .. | .letRec .. | .sequence _
  | .whileLoop .. | .forLoop .. | .tryCatch .. => r.capture ctx hoists e

/-- Whether a node is captured in a local. -/
def isCaptured (ctx : Context) (e : Ir.Expr) : Lower Bool :=
  match e with
  | .emit _ _ isStatement _ _ => pure isStatement
  | .throw .. | .debugger _ | .set .. | .setIndex .. | .letIn .. | .letRec .. | .sequence _
  | .whileLoop .. | .forLoop .. | .tryCatch .. => pure true
  | .ifThenElse .. | .decisionTree .. | .success .. => .isStatement ctx false e
  | _ => pure false

/-- The expansion of a node that is a call of an inline function. -/
def expansion? (ctx : Context) (e : Ir.Expr) : Lower (Option Ir.Expr) :=
  match e with
  | .call callee none args _ _ _ => expandInline ctx.file callee args
  | _ => pure none

/-- The rule for any node in a place that takes an expression. -/
def exprRule (ctx : Context) (hoists : Bool) (e : Ir.Expr) : Lower (Hoisted Expr) := do
  match ← expansion? ctx e with
  | some expanded => r.expr ctx hoists expanded
  | none => if ← isCaptured ctx e then r.capture ctx hoists e else r.exprCore ctx hoists e

end Parts

end TypedLowering.Dart
