import TypedLowering.JavaScript.Elision
import TypedLowering.JavaScript.Spelling
import TypedLowering.JavaScript.Template
import TypedLowering.Number.Shortest
import TypedLowering.Printing.Layout

/-!
# The pieces of JavaScript code

Expressions, statements and whole programs as sequences of pieces. Parentheses are put where
`JavaScript.Wrapping` asks for them; dead statements are left out; a function that only forwards is
printed as its callee.
-/

namespace TypedLowering.JavaScript

open Ir (Location)
open Layout (mark token wrap commas line braces terminator stmtLines)

/-- The source text of a literal. -/
def Literal.text : Literal → String
  | .null => "null"
  | .undefined => "undefined"
  | .bool value => if value then "true" else "false"
  | .number value => value.text
  | .string value => stringLiteral value
  | .regex pattern flags => "/" ++ pattern ++ "/" ++ flags

/-- The text of a parameter. -/
def Param.text (p : Param) : String :=
  if p.isRest then "..." ++ p.name else p.name

/-- The parameters of a function, in parentheses. -/
def paramsText (params : List Param) : String :=
  "(" ++ ", ".intercalate (params.map Param.text) ++ ")"

/-- The keyword of a declaration. -/
def DeclMode.text : DeclMode → String
  | .const => "const "
  | .let => "let "
  | .var => "var "

/-- A jump and its label. -/
def jumpText (word : String) (label : Option String) : String :=
  match label with
  | some label => word ++ " " ++ label
  | none => word

/-- The pieces of foreign code, from its segments and the pieces of the arguments. -/
def segmentPieces (args : List (List Piece)) : List Template.Segment → List Piece
  | [] => []
  | .text text :: rest => Layout.foreign text ++ segmentPieces args rest
  | .arg i isWrapped :: rest => wrap isWrapped (args.getD i []) ++ segmentPieces args rest

/-- Live statements in braces, each on a line of its own. -/
def block (sep : Separator) (stmts : List (Bool × List Piece)) : List Piece :=
  braces (stmtLines sep false (stmts.map (·.2)))

/-- The `else` of a conditional statement, from its live statements with their pieces. A chain of
conditionals stays flat. -/
def elsePieces (sep : Separator) : List (Bool × List Piece) → List Piece
  | [] => []
  | [(true, chained)] => .text " else " :: chained
  | stmts => .text " else " :: block sep stmts

/-- Whether the statement is a conditional. -/
def Stmt.isConditional (s : Stmt) : Bool :=
  match s.form with
  | .ifElse .. => true
  | _ => false

/-- The mark of a statement. An expression statement is mapped by its expression. -/
def StmtForm.ownMark (loc : Option Location) : StmtForm → List Piece
  | .expr _ => []
  | _ => mark loc

mutual

/-- An expression without parentheses around it. -/
def Expr.pieces (sep : Separator) : Expr → List Piece
  | ⟨loc, form⟩ => form.pieces sep loc

/-- The pieces of a form, with the place of its expression for the tokens that get a mark. -/
def ExprForm.pieces (sep : Separator) (loc : Option Location) : ExprForm → List Piece
  | .ident name => token name loc
  | .this => token "this" loc
  | .literal value => token value.text loc
  | .array items => token "[" loc ++ commas (itemPieces sep items) ++ [.text "]"]
  | .object members => token "\x7b" loc ++ commas (memberPieces sep members) ++ [.text "\x7d"]
  | .unary op operand =>
    token op.token loc ++ (if op.isWord then [.text " "] else []) ++
      wrap (!operand.isAtomic) (operand.pieces sep)
  | .binary op left right =>
    mark loc ++ wrap (left.isWrappedOperand op .left) (left.pieces sep) ++
      .text (" " ++ op.token ++ " ") ::
        wrap (right.isWrappedOperand op .right) (right.pieces sep)
  | .conditional test thenExpr elseExpr =>
    mark loc ++ wrap (!test.isAtomic) (test.pieces sep) ++
      .text " ? " :: wrap (!thenExpr.isAtomic) (thenExpr.pieces sep) ++
      .text " : " :: wrap (!elseExpr.isAtomic) (elseExpr.pieces sep)
  | .call callee args =>
    mark loc ++ wrap (!callee.isAtomic) (callee.pieces sep) ++
      .text "(" :: commas (itemPieces sep args) ++ [.text ")"]
  | .construct callee args =>
    token "new " loc ++ wrap callee.isWrappedConstructor (callee.pieces sep) ++
      .text "(" :: commas (itemPieces sep args) ++ [.text ")"]
  | .member obj property =>
    mark loc ++ wrap obj.isWrappedObject (obj.pieces sep) ++ [.text ("." ++ property)]
  | .index obj index =>
    mark loc ++ wrap obj.isWrappedObject (obj.pieces sep) ++
      .text "[" :: index.pieces sep ++ [.text "]"]
  | .function func =>
    match func.forwardedCallee with
    | some callee => token callee loc
    | none => mark loc ++ func.valuePieces sep
  | .spread operand => token "..." loc ++ wrap operand.isWrappedItem (operand.pieces sep)
  | .sequence items => mark loc ++ commas (itemPieces sep items)
  | .emit template args =>
    mark loc ++ segmentPieces (argPieces sep args) (expandTemplate template args)

/-- Arguments, elements and initializers, wrapped where necessary. -/
def itemPieces (sep : Separator) : List Expr → List (List Piece)
  | [] => []
  | e :: es => wrap e.isWrappedItem (e.pieces sep) :: itemPieces sep es

/-- Arguments of foreign code, as they are. -/
def argPieces (sep : Separator) : List Expr → List (List Piece)
  | [] => []
  | e :: es => e.pieces sep :: argPieces sep es

/-- The pieces of each member of an object literal. -/
def memberPieces (sep : Separator) : List ObjectMember → List (List Piece)
  | [] => []
  | ⟨key, value⟩ :: rest => value.pieces sep key :: memberPieces sep rest

/-- A property of an object literal. -/
def MemberValue.pieces (sep : Separator) (key : String) : MemberValue → List Piece
  | .value e => .text (propertyKey key ++ ": ") :: wrap e.isWrappedItem (e.pieces sep)
  | .method func => .text (propertyKey key) :: func.methodPieces sep
  | .getter func => .text ("get " ++ propertyKey key) :: func.methodPieces sep
  | .setter func => .text ("set " ++ propertyKey key) :: func.methodPieces sep

/-- A function as a value. -/
def Func.valuePieces (sep : Separator) : Func → List Piece
  | ⟨name, isArrow, params, body⟩ =>
    if isArrow then .text (paramsText params ++ " => ") :: body.arrowPieces sep
    else
      .text ("function" ++ (match name with | some name => " " ++ name | none => "") ++
        paramsText params ++ " ") :: body.pieces sep

/-- A function declaration. -/
def Func.declPieces (sep : Separator) : Func → List Piece
  | ⟨name, _, params, body⟩ =>
    .text ("function" ++ (match name with | some name => " " ++ name | none => "") ++
      paramsText params ++ " ") :: body.pieces sep

/-- The parameters and the body of a method, after its key. -/
def Func.methodPieces (sep : Separator) : Func → List Piece
  | ⟨_, _, params, body⟩ => .text (paramsText params ++ " ") :: body.pieces sep

/-- The body of an arrow function. -/
def FuncBody.arrowPieces (sep : Separator) : FuncBody → List Piece
  | .value e => wrap (e.startsLikeDeclaration || e.isWrappedItem) (e.pieces sep)
  | .block stmts => block sep (livePieces sep stmts)

/-- A function body in braces. -/
def FuncBody.pieces (sep : Separator) : FuncBody → List Piece
  | .value ⟨loc, form⟩ =>
    braces (line (mark loc ++ .text "return " :: form.pieces sep loc ++ terminator sep))
  | .block stmts => block sep (livePieces sep stmts)

/-- The live statements of a list, each with the note whether it is a conditional. -/
def livePieces (sep : Separator) : List Stmt → List (Bool × List Piece)
  | [] => []
  | s :: ss =>
    if s.isDead then livePieces sep ss
    else (s.isConditional, s.pieces sep) :: livePieces sep ss

/-- A statement, without its line. -/
def Stmt.pieces (sep : Separator) : Stmt → List Piece
  | ⟨loc, form⟩ => form.ownMark loc ++ form.pieces sep

/-- The pieces of a statement without the margin and the end of its line. -/
def StmtForm.pieces (sep : Separator) : StmtForm → List Piece
  | .expr e => wrap e.startsLikeDeclaration (e.pieces sep) ++ terminator sep
  | .block stmts => block sep (livePieces sep stmts)
  | .declare decl => decl.pieces sep ++ terminator sep
  | .ifElse test thenStmts elseStmts =>
    .text "if (" :: test.pieces sep ++ .text ") " :: block sep (livePieces sep thenStmts) ++
      elsePieces sep (livePieces sep elseStmts)
  | .whileLoop test body =>
    .text "while (" :: test.pieces sep ++ .text ") " :: block sep (livePieces sep body)
  | .forLoop start test update body =>
    .text "for (" :: startPieces sep start ++ .text ";" :: clausePieces sep test ++
      .text ";" :: clausePieces sep update ++ .text ") " :: block sep (livePieces sep body)
  | .ret value => .text "return" :: clausePieces sep value ++ terminator sep
  | .throw error => .text "throw " :: error.pieces sep ++ terminator sep
  | .breakTo label => .text (jumpText "break" label) :: terminator sep
  | .continueTo label => .text (jumpText "continue" label) :: terminator sep
  | .labeled label body => .text (label ++ ": ") :: body.pieces sep
  | .tryCatch body handler finalizer =>
    .text "try " :: block sep (livePieces sep body) ++ handlerPieces sep handler ++
      finalizerPieces sep finalizer
  | .switch subject cases =>
    .text "switch (" :: subject.pieces sep ++ .text ") " :: braces (casePieces sep cases)
  | .debugger => .text "debugger" :: terminator sep
  | .function func => func.declPieces sep
  | .classDecl decl => decl.pieces sep
  | .exported decl => .text "export " :: decl.pieces sep

/-- The pieces of a declaration without a terminator. -/
def VarDecl.pieces (sep : Separator) : VarDecl → List Piece
  | ⟨mode, declarators⟩ => .text mode.text :: commas (declaratorPieces sep declarators)

/-- The pieces of each variable of a declaration. -/
def declaratorPieces (sep : Separator) : List Declarator → List (List Piece)
  | [] => []
  | ⟨name, value⟩ :: rest =>
    (.text name :: initializerPieces sep value) :: declaratorPieces sep rest

/-- The pieces of an initial value, if there is one. -/
def initializerPieces (sep : Separator) : Option Expr → List Piece
  | none => []
  | some e => .text " = " :: wrap e.isWrappedItem (e.pieces sep)

/-- The pieces of the declaration that a `for` statement begins with. -/
def startPieces (sep : Separator) : Option VarDecl → List Piece
  | none => []
  | some decl => decl.pieces sep

/-- An optional expression after a word or a semicolon. -/
def clausePieces (sep : Separator) : Option Expr → List Piece
  | none => []
  | some e => .text " " :: e.pieces sep

/-- The pieces of the handler of a `try` statement. -/
def handlerPieces (sep : Separator) : Option CatchClause → List Piece
  | none => []
  | some ⟨param, body⟩ =>
    .text (match param with | some param => " catch (" ++ param ++ ") " | none => " catch ") ::
      block sep (livePieces sep body)

/-- The pieces of the final block of a `try` statement. -/
def finalizerPieces (sep : Separator) : Option (List Stmt) → List Piece
  | none => []
  | some stmts => .text " finally " :: block sep (livePieces sep stmts)

/-- The cases of a switch, each on a line of its own. -/
def casePieces (sep : Separator) : List SwitchCase → List Piece
  | [] => []
  | ⟨test, body⟩ :: rest =>
    line (testPieces sep test ++ block sep (livePieces sep body)) ++ casePieces sep rest

/-- The pieces before the body of a case. -/
def testPieces (sep : Separator) : Option Expr → List Piece
  | none => [.text "default: "]
  | some e => .text "case " :: e.pieces sep ++ [.text ": "]

/-- The pieces of a class. -/
def ClassDecl.pieces (sep : Separator) : ClassDecl → List Piece
  | ⟨name, base, members⟩ =>
    .text ("class " ++ name) :: basePieces sep base ++
      .text " " :: braces (classMemberPieces sep members)

/-- The pieces of the base of a class, in parentheses unless it is atomic. -/
def basePieces (sep : Separator) : Option Expr → List Piece
  | none => []
  | some e => .text " extends " :: wrap (!e.isAtomic) (e.pieces sep)

/-- The members of a class, each on a line of its own. -/
def classMemberPieces (sep : Separator) : List ClassMember → List Piece
  | [] => []
  | ⟨key, kind, isStatic, func⟩ :: rest =>
    let lead := match kind with
      | .constructor => "constructor"
      | .method => propertyKey key
      | .getter => "get " ++ propertyKey key
      | .setter => "set " ++ propertyKey key
    line (.text ((if isStatic then "static " else "") ++ lead) :: func.methodPieces sep) ++
      classMemberPieces sep rest

end

/-- Statements in braces. -/
def blockPieces (sep : Separator) (stmts : List Stmt) : List Piece :=
  block sep (livePieces sep stmts)

/-- The live statements of a list, each on a line of its own. -/
def stmtsPieces (sep : Separator) (stmts : List Stmt) : List Piece :=
  stmtLines sep false ((livePieces sep stmts).map (·.2))

/-- The bindings of an import declaration. -/
def ImportDecl.bindings (i : ImportDecl) : List String :=
  let names := i.names.map fun (imported, name) =>
    if imported = name then name else imported ++ " as " ++ name
  i.default.toList ++ (i.whole.map ("* as " ++ ·)).toList ++
    if names.isEmpty then [] else ["\x7b " ++ ", ".intercalate names ++ " \x7d"]

/-- The text of an import without the terminator. -/
def ImportDecl.text (i : ImportDecl) : String :=
  let lead := if i.bindings.isEmpty then "" else ", ".intercalate i.bindings ++ " from "
  "import " ++ lead ++ stringLiteral i.path

/-- The line of an import. -/
def ImportDecl.pieces (sep : Separator) (i : ImportDecl) : List Piece :=
  line (.text i.text :: terminator sep)

/-- The lines of all imports. -/
def importsPieces (sep : Separator) (imports : List ImportDecl) : List Piece :=
  imports.flatMap (·.pieces sep)

/-- The pieces of a module: its imports, then its statements. -/
def Program.pieces (sep : Separator) (program : Program) : List Piece :=
  importsPieces sep program.imports ++ stmtsPieces sep program.body

end TypedLowering.JavaScript
