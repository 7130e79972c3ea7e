import TypedLowering.Datum.Basic
import TypedLowering.JavaScript.Tree

/-!
# JavaScript trees as data

Each form is an alternative of its own name. A node without a location is its form alone.
-/

namespace TypedLowering.JavaScript

open Datum (one variant)

instance : Named Operator where
  all :=
    [.comma, .assignment, .additionAssignment, .subtractionAssignment, .conditional, .or, .and,
      .bitOr, .bitXor, .bitAnd, .equality, .inequality, .strictEquality, .strictInequality, .less,
      .lessOrEqual, .greater, .greaterOrEqual, .membership, .instanceOf, .shiftLeft, .shiftRight,
      .unsignedShiftRight, .addition, .subtraction, .multiplication, .division, .remainder,
      .exponentiation, .bitNot, .delete, .not, .typeOf, .negation, .plus, .void]
  name
    | .comma => "Comma"
    | .assignment => "Assignment"
    | .additionAssignment => "AssignmentAddition"
    | .subtractionAssignment => "AssignmentSubtraction"
    | .conditional => "Conditional"
    | .or => "LogicalOr"
    | .and => "LogicalAnd"
    | .bitOr => "BitwiseOr"
    | .bitXor => "BitwiseXor"
    | .bitAnd => "BitwiseAnd"
    | .equality => "Equality"
    | .inequality => "Inequality"
    | .strictEquality => "StrictEquality"
    | .strictInequality => "StrictInequality"
    | .less => "LessThan"
    | .lessOrEqual => "LessThanOrEqual"
    | .greater => "GreaterThan"
    | .greaterOrEqual => "GreaterThanOrEqual"
    | .membership => "In"
    | .instanceOf => "Instanceof"
    | .shiftLeft => "BitwiseLeftShift"
    | .shiftRight => "BitwiseRightShift"
    | .unsignedShiftRight => "BitwiseUnsignedRightShift"
    | .addition => "Addition"
    | .subtraction => "Subtraction"
    | .multiplication => "Multiplication"
    | .division => "Division"
    | .remainder => "Remainder"
    | .exponentiation => "Exponentiation"
    | .bitNot => "BitwiseNot"
    | .delete => "Delete"
    | .not => "LogicalNot"
    | .typeOf => "Typeof"
    | .negation => "UnaryNegation"
    | .plus => "UnaryPlus"
    | .void => "Void"

instance : Named DeclMode where
  all := [.const, .let, .var]
  name
    | .const => "Const"
    | .let => "Let"
    | .var => "Var"

instance : Named ClassMemberKind where
  all := [.constructor, .method, .getter, .setter]
  name
    | .constructor => "Constructor"
    | .method => "Method"
    | .getter => "Getter"
    | .setter => "Setter"

/-- A literal as data. -/
def Literal.datum : Literal → Datum
  | .null => .text "Null"
  | .undefined => .text "Undefined"
  | .bool value => one "Bool" (.truth value)
  | .number value => one "Num" (.finite value)
  | .string value => one "Str" (.text value)
  | .regex pattern flags => variant "Regex" [("pattern", .text pattern), ("flags", .text flags)]

/-- A parameter as data. -/
def Param.datum (p : Param) : Datum :=
  .fields [("name", .text p.name), ("rest", .truth p.isRest)]

instance : ToDatum Param := ⟨Param.datum⟩

/-- A node at a location. -/
def located (loc : Option Ir.Location) (form : Datum) : Datum :=
  match loc with
  | none => form
  | some l => .fields [("loc", l.datum), ("stx", form)]

mutual

/-- An expression as data, with its place if it has one. -/
def Expr.datum : Expr → Datum
  | ⟨loc, form⟩ => located loc form.datum

/-- A list of expressions as data, item by item. -/
def exprData : List Expr → List Datum
  | [] => []
  | e :: es => e.datum :: exprData es

/-- An expression that may be left out. -/
def optExprDatum : Option Expr → Datum
  | none => .none
  | some e => e.datum

/-- The form of an expression, under the name of its alternative. -/
def ExprForm.datum : ExprForm → Datum
  | .ident name => one "Id" (.text name)
  | .this => .text "This"
  | .literal value => one "Lit" value.datum
  | .array items => one "Array" (.list (exprData items))
  | .object members => one "Object" (.list (memberData members))
  | .unary op operand => variant "Unary" [("operator", .named op), ("argument", operand.datum)]
  | .binary op left right =>
    variant "Binary" [("operator", .named op), ("left", left.datum), ("right", right.datum)]
  | .conditional test thenExpr elseExpr =>
    variant "Cond"
      [("test", test.datum), ("consequent", thenExpr.datum), ("alternate", elseExpr.datum)]
  | .call callee args =>
    variant "Call" [("callee", callee.datum), ("arguments", .list (exprData args))]
  | .construct callee args =>
    variant "New" [("callee", callee.datum), ("arguments", .list (exprData args))]
  | .member obj property => variant "Member" [("object", obj.datum), ("property", .text property)]
  | .index obj index => variant "ComputedMember" [("object", obj.datum), ("member", index.datum)]
  | .function func => one "Func" func.datum
  | .spread operand => one "Spread" operand.datum
  | .sequence items => one "Sequence" (.list (exprData items))
  | .emit template args =>
    variant "Emit" [("template", .text template), ("arguments", .list (exprData args))]

/-- The members of an object literal. -/
def memberData : List ObjectMember → List Datum
  | [] => []
  | ⟨key, value⟩ :: rest =>
    .fields [("key", .text key), ("value", value.datum)] :: memberData rest

/-- The value of a member of an object literal. -/
def MemberValue.datum : MemberValue → Datum
  | .value e => one "Value" e.datum
  | .method func => one "Method" func.datum
  | .getter func => one "Getter" func.datum
  | .setter func => one "Setter" func.datum

/-- A function as data. -/
def Func.datum : Func → Datum
  | ⟨name, isArrow, params, body⟩ =>
    .fields [("name", toDatum name), ("arrow", .truth isArrow),
      ("params", toDatum params), ("body", body.datum)]

/-- The body of a function, under the name of its alternative. -/
def FuncBody.datum : FuncBody → Datum
  | .block stmts => one "Block" (.list (stmtData stmts))
  | .value e => one "Expression" e.datum

/-- A statement as data, with its place if it has one. -/
def Stmt.datum : Stmt → Datum
  | ⟨loc, form⟩ => located loc form.datum

/-- A list of statements as data, item by item. -/
def stmtData : List Stmt → List Datum
  | [] => []
  | s :: ss => s.datum :: stmtData ss

/-- The form of a statement, under the name of its alternative. -/
def StmtForm.datum : StmtForm → Datum
  | .expr e => one "Expr" e.datum
  | .block stmts => one "Block" (.list (stmtData stmts))
  | .declare decl => one "VarDecl" decl.datum
  | .ifElse test thenStmts elseStmts =>
    variant "If" [("test", test.datum), ("consequent", .list (stmtData thenStmts)),
      ("alternate", .list (stmtData elseStmts))]
  | .whileLoop test body => variant "While" [("test", test.datum), ("body", .list (stmtData body))]
  | .forLoop start test update body =>
    variant "For" [("init", optDeclDatum start), ("test", optExprDatum test),
      ("update", optExprDatum update), ("body", .list (stmtData body))]
  | .ret value => one "Return" (optExprDatum value)
  | .throw error => one "Throw" error.datum
  | .breakTo label => one "Break" (toDatum label)
  | .continueTo label => one "Continue" (toDatum label)
  | .labeled label body => variant "Label" [("label", .text label), ("body", body.datum)]
  | .tryCatch block handler finalizer =>
    variant "Try" [("block", .list (stmtData block)), ("catch", handlerDatum handler),
      ("finally", optStmtsDatum finalizer)]
  | .switch subject cases =>
    variant "Switch" [("discriminant", subject.datum), ("cases", .list (caseData cases))]
  | .debugger => .text "Debugger"
  | .function func => one "Function" func.datum
  | .classDecl decl => one "Class" decl.datum
  | .exported decl => one "Export" decl.datum

/-- A block that may be left out. -/
def optStmtsDatum : Option (List Stmt) → Datum
  | none => .none
  | some stmts => .list (stmtData stmts)

/-- A declaration of variables as data. -/
def VarDecl.datum : VarDecl → Datum
  | ⟨mode, declarators⟩ =>
    .fields [("mode", .named mode), ("declarators", .list (declaratorData declarators))]

/-- A declaration that may be left out, as that of a `for` statement. -/
def optDeclDatum : Option VarDecl → Datum
  | none => .none
  | some decl => decl.datum

/-- The variables of a declaration with their initial values. -/
def declaratorData : List Declarator → List Datum
  | [] => []
  | ⟨name, value⟩ :: rest =>
    .fields [("name", .text name), ("initializer", optExprDatum value)] :: declaratorData rest

/-- The handler of a `try` statement, if there is one. -/
def handlerDatum : Option CatchClause → Datum
  | none => .none
  | some ⟨param, body⟩ => .fields [("param", toDatum param), ("body", .list (stmtData body))]

/-- The cases of a `switch`. That without a test is the default. -/
def caseData : List SwitchCase → List Datum
  | [] => []
  | ⟨test, body⟩ :: rest =>
    .fields [("test", optExprDatum test), ("body", .list (stmtData body))] :: caseData rest

/-- A class as data. -/
def ClassDecl.datum : ClassDecl → Datum
  | ⟨name, base, members⟩ =>
    .fields [("name", .text name), ("extends", optExprDatum base),
      ("members", .list (classMemberData members))]

/-- The members of a class. -/
def classMemberData : List ClassMember → List Datum
  | [] => []
  | ⟨key, kind, isStatic, func⟩ :: rest =>
    .fields [("key", .text key), ("kind", .named kind), ("is_static", .truth isStatic),
      ("func", func.datum)] :: classMemberData rest

end

instance : ToDatum Expr := ⟨Expr.datum⟩
instance : ToDatum Stmt := ⟨Stmt.datum⟩

/-- An import as data. -/
def ImportDecl.datum (i : ImportDecl) : Datum :=
  .fields [("path", .text i.path), ("default", toDatum i.default), ("namespace", toDatum i.whole),
    ("names", .list (i.names.map fun (imported, own) =>
      .fields [("imported", .text imported), ("local", .text own)]))]

instance : ToDatum ImportDecl := ⟨ImportDecl.datum⟩

/-- A module as data. -/
def Program.datum (p : Program) : Datum :=
  .fields [("imports", toDatum p.imports), ("body", .list (stmtData p.body))]

instance : ToDatum Program := ⟨Program.datum⟩

end TypedLowering.JavaScript
