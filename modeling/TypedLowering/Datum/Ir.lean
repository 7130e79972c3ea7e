import TypedLowering.Datum.Basic
import TypedLowering.Ir.Expr

/-!
# Expressions as data

An expression is the fields of its kind, which `k` names.
-/

namespace TypedLowering.Ir

open Datum (one)

instance : Named NumberKind where
  all :=
    [.int8, .uint8, .int16, .uint16, .int32, .uint32, .int64, .uint64, .float32, .float64,
      .decimal]
  name := NumberKind.name

instance : Named UnaryOp where
  all := [.minus, .plus, .not, .bitNot]
  name
    | .minus => "Minus"
    | .plus => "Plus"
    | .not => "Not"
    | .bitNot => "BitwiseNot"

instance : Named BinaryOp where
  all :=
    [.equal, .notEqual, .less, .lessOrEqual, .greater, .greaterOrEqual, .shiftLeft, .shiftRight,
      .shiftRightZeroFill, .minus, .plus, .multiply, .divide, .modulus, .exponent, .bitOr, .bitXor,
      .bitAnd]
  name
    | .equal => "Equal"
    | .notEqual => "NotEqual"
    | .less => "Less"
    | .lessOrEqual => "LessOrEqual"
    | .greater => "Greater"
    | .greaterOrEqual => "GreaterOrEqual"
    | .shiftLeft => "ShiftLeft"
    | .shiftRight => "ShiftRightSignPropagating"
    | .shiftRightZeroFill => "ShiftRightZeroFill"
    | .minus => "Minus"
    | .plus => "Plus"
    | .multiply => "Multiply"
    | .divide => "Divide"
    | .modulus => "Modulus"
    | .exponent => "Exponent"
    | .bitOr => "BitwiseOr"
    | .bitXor => "BitwiseXor"
    | .bitAnd => "BitwiseAnd"

instance : Named LogicalOp where
  all := [.and, .or]
  name
    | .and => "And"
    | .or => "Or"

instance : Named ImportKind where
  all := [.library, .user, .member]
  name
    | .library => "Library"
    | .user => "User"
    | .member => "Member"

instance : Named MemberKind where
  all := [.value, .method, .getter, .setter]
  name
    | .value => "Value"
    | .method => "Method"
    | .getter => "Getter"
    | .setter => "Setter"

mutual

/-- A type as data. -/
def Ty.datum : Ty → Datum
  | .any => .text "Any"
  | .unit => .text "Unit"
  | .boolean => .text "Boolean"
  | .char => .text "Char"
  | .string => .text "String"
  | .regex => .text "Regex"
  | .number kind => one "Number" (.named kind)
  | .option item => one "Option" item.datum
  | .array item => one "Array" item.datum
  | .list item => one "List" item.datum
  | .tuple items => one "Tuple" (.list (tyData items))
  | .lambda arg ret => one "Lambda" (.list [arg.datum, ret.datum])
  | .delegate args ret => one "Delegate" (.list [.list (tyData args), ret.datum])
  | .param name => one "GenericParam" (.text name)
  | .declared entity generics =>
    one "DeclaredType" (.list [one "full_name" (.text entity), .list (tyData generics)])

/-- A list of types as data, item by item. -/
def tyData : List Ty → List Datum
  | [] => []
  | ty :: rest => ty.datum :: tyData rest

end

instance : ToDatum Ty := ⟨Ty.datum⟩

/-- The fields of an identifier. -/
def Ident.entries (id : Ident) : List (String × Datum) :=
  [("name", .text id.name), ("ty", id.ty.datum), ("mut", .truth id.isMutable),
    ("this", .truth id.isThis), ("gen", .truth id.isGenerated), ("loc", toDatum id.loc)]

/-- An identifier as data. -/
def Ident.datum (id : Ident) : Datum := .fields id.entries

instance : ToDatum Ident := ⟨Ident.datum⟩

/-- A node of that kind. -/
def node (kind : String) (entries : List (String × Datum)) : Datum :=
  .fields (("k", .text kind) :: entries)

/-- A node of that kind at a location. -/
def nodeAt (loc : Option Location) (kind : String) (entries : List (String × Datum)) : Datum :=
  node kind (entries ++ [("loc", toDatum loc)])

/-- A literal as a node of its kind. -/
def Literal.datum (loc : Option Location) : Literal → Datum
  | .this ty => nodeAt loc "This" [("ty", ty.datum)]
  | .null ty => nodeAt loc "Null" [("ty", ty.datum)]
  | .unit => nodeAt loc "Unit" []
  | .bool value => nodeAt loc "Bool" [("v", .truth value)]
  | .char value => nodeAt loc "Char" [("v", .text value.toString)]
  | .string value => nodeAt loc "Str" [("v", .text value)]
  | .number value kind => nodeAt loc "Num" [("v", .number value), ("kind", .named kind)]
  | .regex source flags => nodeAt loc "Regex" [("source", .text source), ("flags", .text flags)]

/-- An aggregate of the given values as a node of its kind. -/
def Aggregate.datum (loc : Option Location) (values : List Datum) : Aggregate → Datum
  | .array ty => nodeAt loc "NewArray" [("values", .list values), ("ty", ty.datum)]
  | .tuple => nodeAt loc "NewTuple" [("values", .list values)]
  | .record entity generics =>
    nodeAt loc "NewRecord"
      [("values", .list values), ("entity", .text entity), ("generics", .list (tyData generics))]
  | .anonymous fields =>
    nodeAt loc "NewAnonymousRecord" [("values", .list values), ("names", toDatum fields)]
  | .union tag entity generics =>
    nodeAt loc "NewUnion" [("values", .list values), ("tag", toDatum tag), ("entity", .text entity),
      ("generics", .list (tyData generics))]

/-- What an access reads, under the name of its alternative. -/
def Access.datum : Access → Datum
  | .field name => one "field" (.text name)
  | .tupleItem index => one "tuple" (toDatum index)
  | .unionTag => .text "tag"
  | .unionField tag index => one "union" (.list [toDatum tag, toDatum index])
  | .optionValue => .text "option"

/-- What a test asks, under the name of its alternative. -/
def TestKind.datum : TestKind → Datum
  | .type ty => one "type" ty.datum
  | .option isSome => one "some" (.truth isSome)
  | .unionCase tag => one "case" (toDatum tag)

mutual

/-- An expression as a node of its kind. -/
def Expr.datum : Expr → Datum
  | .literal value loc => value.datum loc
  | .option value ty loc =>
    nodeAt loc "NewOption" [("value", optExprDatum value), ("ty", ty.datum)]
  | .aggregate kind values loc => kind.datum loc (exprData values)
  | .ident id => node "Id" id.entries
  | .cast e ty => node "TypeCast" [("expr", e.datum), ("ty", ty.datum)]
  | .imported ref ty loc =>
    nodeAt loc "Import" [("selector", .text ref.selector), ("path", .text ref.path),
      ("kind", .named ref.kind), ("ty", ty.datum)]
  | .lambda arg body name =>
    node "Lambda" [("arg", arg.datum), ("body", body.datum), ("name", toDatum name)]
  | .delegate args body name =>
    node "Delegate"
      [("args", toDatum args), ("body", body.datum), ("name", toDatum name)]
  | .object members ty base =>
    node "ObjectExpr"
      [("members", .list (memberData members)), ("ty", ty.datum), ("base", optExprDatum base)]
  | .call callee receiver args isNew ty loc =>
    nodeAt loc "Call" [("callee", callee.datum), ("this", optExprDatum receiver),
      ("args", .list (exprData args)), ("new", .truth isNew), ("ty", ty.datum)]
  | .apply applied args ty loc =>
    nodeAt loc "CurriedApply"
      [("applied", applied.datum), ("args", .list (exprData args)), ("ty", ty.datum)]
  | .unary op operand ty loc =>
    nodeAt loc "Unary" [("op", .named op), ("operand", operand.datum), ("ty", ty.datum)]
  | .binary op left right ty loc =>
    nodeAt loc "Binary"
      [("op", .named op), ("left", left.datum), ("right", right.datum), ("ty", ty.datum)]
  | .logical op left right ty loc =>
    nodeAt loc "Logical"
      [("op", .named op), ("left", left.datum), ("right", right.datum), ("ty", ty.datum)]
  | .emit template args isStatement ty loc =>
    nodeAt loc "Emit" [("template", .text template), ("args", .list (exprData args)),
      ("stmt", .truth isStatement), ("ty", ty.datum)]
  | .get obj access ty loc =>
    nodeAt loc "Get" [("expr", obj.datum), ("kind", access.datum), ("ty", ty.datum)]
  | .getIndex obj index ty loc =>
    nodeAt loc "Get" [("expr", obj.datum), ("kind", one "index" index.datum), ("ty", ty.datum)]
  | .set target none value loc =>
    nodeAt loc "Set" [("expr", target.datum), ("kind", .text "value"), ("value", value.datum)]
  | .set target (some field) value loc =>
    nodeAt loc "Set"
      [("expr", target.datum), ("kind", one "field" (.text field)), ("value", value.datum)]
  | .setIndex target index value loc =>
    nodeAt loc "Set"
      [("expr", target.datum), ("kind", one "index" index.datum), ("value", value.datum)]
  | .test e kind loc => nodeAt loc "Test" [("expr", e.datum), ("kind", kind.datum)]
  | .ifThenElse guard thenExpr elseExpr loc =>
    nodeAt loc "IfThenElse"
      [("guard", guard.datum), ("then", thenExpr.datum), ("else", elseExpr.datum)]
  | .decisionTree dispatcher targets =>
    node "DecisionTree" [("expr", dispatcher.datum), ("targets", .list (targetData targets))]
  | .success index values ty =>
    node "Success"
      [("index", toDatum index), ("values", .list (exprData values)), ("ty", ty.datum)]
  | .letIn id value body =>
    node "Let" [("ident", id.datum), ("value", value.datum), ("body", body.datum)]
  | .letRec bindings body =>
    node "LetRec" [("bindings", .list (bindingData bindings)), ("body", body.datum)]
  | .sequence exprs => node "Sequential" [("exprs", .list (exprData exprs))]
  | .whileLoop guard body loc =>
    nodeAt loc "WhileLoop" [("guard", guard.datum), ("body", body.datum)]
  | .forLoop id start limit body isUp loc =>
    nodeAt loc "ForLoop" [("ident", id.datum), ("start", start.datum), ("limit", limit.datum),
      ("body", body.datum), ("up", .truth isUp)]
  | .tryCatch body handler finalizer loc =>
    nodeAt loc "TryCatch" [("body", body.datum), ("catch", handlerDatum handler),
      ("finally", optExprDatum finalizer)]
  | .throw error ty loc => nodeAt loc "Throw" [("error", optExprDatum error), ("ty", ty.datum)]
  | .debugger loc => nodeAt loc "Debugger" []
  | .curry e arity loc => nodeAt loc "Curry" [("expr", e.datum), ("arity", toDatum arity)]

/-- A list of expressions as data, item by item. -/
def exprData : List Expr → List Datum
  | [] => []
  | e :: es => e.datum :: exprData es

/-- An expression that may be left out. -/
def optExprDatum : Option Expr → Datum
  | none => .none
  | some e => e.datum

/-- The members of an object expression. -/
def memberData : List ObjectMember → List Datum
  | [] => []
  | ⟨name, args, body, kind⟩ :: rest =>
    .fields [("name", .text name), ("args", toDatum args), ("body", body.datum),
      ("kind", .named kind)] :: memberData rest

/-- The targets of a decision tree. -/
def targetData : List Target → List Datum
  | [] => []
  | ⟨bound, body⟩ :: rest =>
    .fields [("bound", toDatum bound), ("body", body.datum)] :: targetData rest

/-- The bindings of a recursive `let`. -/
def bindingData : List Binding → List Datum
  | [] => []
  | ⟨id, value⟩ :: rest =>
    .fields [("ident", id.datum), ("value", value.datum)] :: bindingData rest

/-- The handler of a `try` expression, if there is one. -/
def handlerDatum : Option Handler → Datum
  | none => .none
  | some ⟨param, body⟩ => .fields [("param", param.datum), ("body", body.datum)]

end

instance : ToDatum Expr := ⟨Expr.datum⟩

end TypedLowering.Ir
