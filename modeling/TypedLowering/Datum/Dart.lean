import TypedLowering.Datum.Basic
import TypedLowering.Dart.Tree

/-!
# Dart trees as data

Each form is an alternative of its own name. An integer is handed over in digits, since it may be
too large for tools that count in doubles.
-/

namespace TypedLowering.Dart

open Datum (one variant)

instance : Named UnaryOp where
  all := [.minus, .not, .bitNot]
  name
    | .minus => "Minus"
    | .not => "Not"
    | .bitNot => "BitwiseNot"

instance : Named BinaryOp where
  all :=
    [.equal, .notEqual, .less, .lessOrEqual, .greater, .greaterOrEqual, .shiftLeft, .shiftRight,
      .shiftRightUnsigned, .plus, .minus, .multiply, .divide, .integerDivide, .modulo, .bitAnd,
      .bitOr, .bitXor]
  name
    | .equal => "Equals"
    | .notEqual => "NotEquals"
    | .less => "Less"
    | .lessOrEqual => "LessOrEquals"
    | .greater => "Greater"
    | .greaterOrEqual => "GreaterOrEquals"
    | .shiftLeft => "ShiftLeft"
    | .shiftRight => "ShiftRight"
    | .shiftRightUnsigned => "ShiftRightUnsigned"
    | .plus => "Plus"
    | .minus => "Minus"
    | .multiply => "Multiply"
    | .divide => "Divide"
    | .integerDivide => "IntegerDivide"
    | .modulo => "Modulo"
    | .bitAnd => "BitwiseAnd"
    | .bitOr => "BitwiseOr"
    | .bitXor => "BitwiseXor"

instance : Named LogicalOp where
  all := [.and, .or]
  name
    | .and => "And"
    | .or => "Or"

instance : Named VarKind where
  all := [.var, .final, .late]
  name
    | .var => "Var"
    | .final => "Final"
    | .late => "Late"

mutual

/-- A type as data. -/
def Ty.datum : Ty → Datum
  | .integer => .text "Integer"
  | .double => .text "Double"
  | .boolean => .text "Boolean"
  | .string => .text "String"
  | .void => .text "Void"
  | .dynamic => .text "Dynamic"
  | .object => .text "Object"
  | .nullable item => one "Nullable" item.datum
  | .list item => one "List" item.datum
  | .function args ret => one "Function" (.list [.list (tyData args), ret.datum])
  | .generic name => one "Generic" (.text name)
  | .named importPrefix name generics =>
    variant "TypeReference" [("prefix", toDatum importPrefix), ("name", .text name),
      ("generics", .list (tyData generics))]

/-- A list of types as data, item by item. -/
def tyData : List Ty → List Datum
  | [] => []
  | ty :: rest => ty.datum :: tyData rest

end

instance : ToDatum Ty := ⟨Ty.datum⟩

/-- A name as data, with its type and its prefix. -/
def Ident.datum (id : Ident) : Datum :=
  .fields [("name", .text id.name), ("ty", id.ty.datum), ("prefix", toDatum id.importPrefix)]

instance : ToDatum Ident := ⟨Ident.datum⟩

/-- A literal as data, whole numbers in digits. -/
def Literal.datum : Literal → Datum
  | .null => .text "Null"
  | .bool value => one "Boolean" (.truth value)
  | .integer value => one "Integer" (.text (toString value))
  | .double value => one "Double" (.finite value)
  | .string value => one "String" (.text value)

mutual

/-- An expression as data, under the name of its alternative. -/
def Expr.datum : Expr → Datum
  | .literal value => one "Literal" value.datum
  | .list values ty =>
    one "Literal" (variant "List" [("values", .list (exprData values)), ("ty", ty.datum)])
  | .ident id => one "Ident" id.datum
  | .this => .text "This"
  | .unary op operand => variant "Unary" [("op", .named op), ("operand", operand.datum)]
  | .binary op left right =>
    variant "Binary" [("op", .named op), ("left", left.datum), ("right", right.datum)]
  | .logical op left right =>
    variant "Logical" [("op", .named op), ("left", left.datum), ("right", right.datum)]
  | .conditional test thenExpr elseExpr =>
    variant "Conditional"
      [("test", test.datum), ("consequent", thenExpr.datum), ("alternate", elseExpr.datum)]
  | .call callee args named =>
    variant "Call" [("callee", callee.datum), ("args", .list (exprData args)),
      ("named_args", .list (namedArgData named))]
  | .property obj name => variant "Property" [("object", obj.datum), ("name", .text name)]
  | .index obj index => variant "Index" [("object", obj.datum), ("index", index.datum)]
  | .typeTest e ty => variant "Is" [("expr", e.datum), ("ty", ty.datum)]
  | .cast e ty => variant "As" [("expr", e.datum), ("ty", ty.datum)]
  | .nullCheck e => one "NullCheck" e.datum
  | .function args body ret =>
    variant "AnonymousFunction" [("args", toDatum args),
      ("body", .list (stmtData body)), ("return_type", ret.datum)]
  | .emit template args =>
    variant "Emit" [("template", .text template), ("args", .list (exprData args))]

/-- A list of expressions as data, item by item. -/
def exprData : List Expr → List Datum
  | [] => []
  | e :: es => e.datum :: exprData es

/-- An expression that may be left out. -/
def optExprDatum : Option Expr → Datum
  | none => .none
  | some e => e.datum

/-- Named arguments as pairs of a name and a value. -/
def namedArgData : List NamedArg → List Datum
  | [] => []
  | ⟨name, value⟩ :: rest => .list [.text name, value.datum] :: namedArgData rest

/-- A statement as data, under the name of its alternative. -/
def Stmt.datum : Stmt → Datum
  | .expr e => one "Expression" e.datum
  | .ret value => one "Return" (optExprDatum value)
  | .declare id kind value =>
    variant "VarDecl" [("ident", id.datum), ("kind", .named kind), ("value", optExprDatum value)]
  | .assign target value => variant "Assign" [("target", target.datum), ("value", value.datum)]
  | .ifElse guard thenBody elseBody =>
    variant "If" [("guard", guard.datum), ("then_body", .list (stmtData thenBody)),
      ("else_body", .list (stmtData elseBody))]
  | .whileLoop guard body =>
    variant "While" [("guard", guard.datum), ("body", .list (stmtData body))]
  | .forLoop id start limit isUp body =>
    variant "For" [("ident", id.datum), ("start", start.datum), ("limit", limit.datum),
      ("is_up", .truth isUp), ("body", .list (stmtData body))]
  | .switch value cases fallback =>
    variant "Switch" [("value", value.datum), ("cases", .list (caseData cases)),
      ("default", optStmtsDatum fallback)]
  | .tryCatch body handler finalizer =>
    variant "Try" [("body", .list (stmtData body)), ("catch", handlerDatum handler),
      ("finalizer", optStmtsDatum finalizer)]
  | .throw error => one "Throw" error.datum
  | .rethrow => .text "Rethrow"
  | .breakTo label => one "Break" (toDatum label)
  | .continueTo label => one "Continue" (toDatum label)
  | .labeled label body => variant "Labeled" [("label", .text label), ("body", body.datum)]
  | .function func => one "LocalFunction" func.datum

/-- A list of statements as data, item by item. -/
def stmtData : List Stmt → List Datum
  | [] => []
  | s :: ss => s.datum :: stmtData ss

/-- A block that may be left out. -/
def optStmtsDatum : Option (List Stmt) → Datum
  | none => .none
  | some stmts => .list (stmtData stmts)

/-- The cases of a `switch` with their guards. -/
def caseData : List SwitchCase → List Datum
  | [] => []
  | ⟨guards, body⟩ :: rest =>
    .fields [("guards", .list (exprData guards)), ("body", .list (stmtData body))] :: caseData rest

/-- The handler of a `try` statement, if there is one. -/
def handlerDatum : Option CatchClause → Datum
  | none => .none
  | some ⟨param, body⟩ => .fields [("param", param.datum), ("body", .list (stmtData body))]

/-- A function as data. -/
def Func.datum : Func → Datum
  | ⟨name, args, body, ret, generics⟩ =>
    .fields [("name", .text name), ("args", toDatum args),
      ("body", .list (stmtData body)), ("return_type", ret.datum), ("generics", toDatum generics)]

end

instance : ToDatum Expr := ⟨Expr.datum⟩
instance : ToDatum Stmt := ⟨Stmt.datum⟩
instance : ToDatum Func := ⟨Func.datum⟩

/-- A field of a class as data. -/
def InstanceVar.datum (f : InstanceVar) : Datum :=
  .fields [("ident", f.id.datum), ("is_final", .truth f.isFinal)]

instance : ToDatum InstanceVar := ⟨InstanceVar.datum⟩

/-- A constructor as data. -/
def Constructor.datum (c : Constructor) : Datum :=
  .fields [("args", toDatum c.args), ("field_args", toDatum c.fieldArgs),
    ("body", .list (stmtData c.body))]

instance : ToDatum Constructor := ⟨Constructor.datum⟩

/-- A class as data. -/
def ClassDecl.datum (c : ClassDecl) : Datum :=
  .fields [("name", .text c.name), ("generics", toDatum c.generics),
    ("fields", toDatum c.fields),
    ("constructor", toDatum c.constructor),
    ("methods", toDatum c.methods)]

/-- A declaration as data, under the name of its alternative. -/
def Declaration.datum : Declaration → Datum
  | .value id e isFinal =>
    variant "Variable" [("ident", id.datum), ("value", e.datum), ("is_final", .truth isFinal)]
  | .function func => one "Function" func.datum
  | .classDecl decl => one "Class" decl.datum

instance : ToDatum Declaration := ⟨Declaration.datum⟩

/-- An import as data. -/
def Import.datum (i : Import) : Datum :=
  .fields [("path", .text i.path), ("alias", toDatum i.importPrefix)]

instance : ToDatum Import := ⟨Import.datum⟩

/-- A library as data. -/
def File.datum (f : File) : Datum :=
  .fields [("imports", toDatum f.imports),
    ("declarations", toDatum f.declarations)]

instance : ToDatum File := ⟨File.datum⟩

end TypedLowering.Dart
