import TypedLowering.Dart.Lower.Statement

/-!
# Lowering files to Dart

`lowerExpr` and `lowerStmts` tie the rules together. Modules are flattened. Statements only run in
functions, so the actions of a file become the body of its `main`.
-/

namespace TypedLowering.Dart

/-! ## Reserved words -/

/-- The words that are not used as identifiers. -/
def reservedWords : List String := [
  "abstract", "as", "assert", "async", "await", "base", "break", "case", "catch", "class",
  "const", "continue", "covariant", "default", "deferred", "do", "dynamic", "else", "enum",
  "export", "extends", "extension", "external", "factory", "false", "final", "finally", "for",
  "Function", "get", "hide", "if", "implements", "import", "in", "interface", "is", "late",
  "library", "mixin", "new", "null", "of", "on", "operator", "part", "required", "rethrow",
  "return", "sealed", "set", "show", "static", "super", "switch", "sync", "this", "throw",
  "true", "try", "type", "typedef", "var", "void", "when", "while", "with", "yield"]

/-- The word cannot be the name of a declaration. -/
def isReserved (name : String) : Bool :=
  reservedWords.contains name

/-! ## Declarations -/

/-- The rules with parts lowered by the rules, to that depth. -/
def rules : Nat → Parts
  | 0 => ⟨fun _ _ _ => .fail .endless, fun _ _ _ => .fail .endless⟩
  | depth + 1 =>
    ⟨fun ctx hoists e => (rules depth).exprRule ctx hoists e,
      fun ctx strategy e => (rules depth).stmtsRule ctx strategy e⟩

/-- Lowers a node to an expression, if that needs no statements. -/
def lowerExpr (ctx : Context) (e : Ir.Expr) : Lower Expr := do
  return (← (rules (ctx.depth e)).expr ctx false e).value

/-- Lowers a node to an expression with the statements that have to run before it. -/
def captureExpr (ctx : Context) (e : Ir.Expr) : Lower (Hoisted Expr) :=
  (rules (ctx.depth e)).captured ctx e

/-- Lowers a node to statements. -/
def lowerStmts (ctx : Context) (strategy : Strategy Expr) (e : Ir.Expr) : Lower (List Stmt) :=
  (rules (ctx.depth e)).stmts ctx strategy e

/-- Lowers the parameters and the body of a function; the last part is the result type. -/
def lowerFunction (ctx : Context) (name : Option String) (params : List Ir.Ident)
    (body : Ir.Expr) : Lower (List Ident × List Stmt × Ty) :=
  (rules (ctx.depth body)).function ctx name params body

/-- A function of a library or a method of a class. -/
def lowerMethod (ctx : Context) (m : Ir.Member) : Lower Func := do
  let (args, body, ret) ← lowerFunction ctx (some m.name) m.args m.body
  return ⟨m.name, args, body, ret, functionGenerics m.args m.body.type⟩

/-- Lower the methods of a class in order. -/
def lowerMethods (ctx : Context) : List Ir.Member → Lower (List Func)
  | [] => pure []
  | m :: ms => do
    let first ← lowerMethod ctx m
    let rest ← lowerMethods ctx ms
    return first :: rest

/-- The value of a function that runs the statements and is called at once. -/
def invoked (value : Hoisted Expr) (ty : Ty) : Expr :=
  if value.before.isEmpty then value.value
  else .callWith (.function [] (value.before ++ [.ret (some value.value)]) ty) []

/-- A function, or a variable for a value. -/
def lowerMember (ctx : Context) (m : Ir.Member) : Lower Declaration := do
  if m.isValue then
    let ty ← lowerType ctx.file m.body.type
    let value ← captureExpr ctx m.body
    return .value (.own m.name ty) (invoked value ty) (!m.isMutable)
  else return .function (← lowerMethod ctx m)

/-- The fields of a record. -/
def lowerFields (file : SourceFile) : List Field → Lower (List InstanceVar)
  | [] => pure []
  | f :: fs => do
    let ty ← lowerType file f.ty
    let rest ← lowerFields file fs
    return ⟨.own f.name ty, !f.isMutable⟩ :: rest

/-- The constructor that takes the values of all fields. -/
def fieldConstructor (fields : List InstanceVar) : Constructor :=
  ⟨fields.map (·.id), fields.map (·.id.name), []⟩

/-- The fields and the constructor of a class, by its entity. -/
def lowerShape (ctx : Context) (entity : Entity) (constructor : Option Ir.Member) :
    Lower (List InstanceVar × Option Constructor) :=
  match entity.kind with
  | .record fields => do
    let fields ← lowerFields ctx.file fields
    return (fields, some (fieldConstructor fields))
  | .union _ =>
    let fields := [⟨.own "tag" .integer, true⟩, ⟨.own "fields" (.list .dynamic), true⟩]
    pure (fields, some (fieldConstructor fields))
  | .plain =>
    match constructor with
    | none => pure ([], none)
    | some m => do
      let (args, body, _) ← lowerFunction ctx none m.args m.body
      return ([], some ⟨args, [], body⟩)

/-- Lower a class. The entity that it declares gives its fields. -/
def lowerClass (ctx : Context) (decl : Ir.ClassDecl) : Lower Declaration := do
  let entity ← .ofOption (.missingEntity decl.entity) (ctx.file.settings.entity? decl.entity)
  let (fields, constructor) ← lowerShape ctx entity decl.constructor
  let methods ← lowerMethods ctx decl.members
  return .classDecl ⟨decl.name, [], fields, constructor, methods⟩

/-- What declarations are lowered to: the declarations of the library, and the statements that are
to run when the program starts. -/
structure Output where
  declarations : List Declaration
  actions : List Stmt
  deriving Inhabited

namespace Output

/-- The output of a file before its first declaration. -/
def empty : Output := ⟨[], []⟩

/-- One output after the other. -/
def append (a b : Output) : Output :=
  ⟨a.declarations ++ b.declarations, a.actions ++ b.actions⟩

end Output

/-- The output of a declaration that is no module. -/
def lowerLeaf (file : SourceFile) : Ir.Leaf → Lower Output
  | .action a =>
    .inDeclaration a.used do return ⟨[], ← lowerStmts (.ofFile file) .effect a.body⟩
  | .member m => .inDeclaration m.used do return ⟨[← lowerMember (.ofFile file) m], []⟩
  | .classDecl c => .inDeclaration c.used do return ⟨[← lowerClass (.ofFile file) c], []⟩

/-- The output of declarations in order. If one fails, that of those before it is still there. -/
def lowerLeaves (file : SourceFile) :
    List Ir.Leaf → LowerState → Except LowerError Unit × Output × LowerState
  | [], s => (.ok (), .empty, s)
  | leaf :: rest, s =>
    match lowerLeaf file leaf s with
    | (.error e, s) => (.error e, .empty, s)
    | (.ok output, s) =>
      let (result, more, s) := lowerLeaves file rest s
      (result, output.append more, s)

/-- Lowers a declaration; the output of what comes before a failure is still there. -/
def lowerDeclaration (file : SourceFile) (decl : Ir.Declaration) (s : LowerState) :
    Except LowerError Unit × Output × LowerState :=
  lowerLeaves file decl.leaves s

/-- The function that runs the actions of a file, if there are any. -/
def mainFunction (actions : List Stmt) : Lower (List Declaration) := do
  if actions.isEmpty then return []
  else
    let name ← .allocateRoot "main"
    return [.function ⟨name, [], actions, .void, []⟩]

/-- The imports of a file. -/
def importDecls (imports : ImportTable) : List Import :=
  imports.map fun m => ⟨m.path, m.whole⟩

/-- Lowers a file. -/
def lowerFile (file : SourceFile) (content : Ir.File) (journal : Journal) :
    Except LowerError File × Journal :=
  let s := LowerState.start journal content.used reservedWords
  match lowerLeaves file (Ir.Declaration.leavesList content.declarations) s with
  | (.error e, _, s) => (.error e, s.journal)
  | (.ok (), output, s) =>
    match mainFunction output.actions s with
    | (.error e, s) => (.error e, s.journal)
    | (.ok more, s) => (.ok ⟨importDecls s.imports, output.declarations ++ more⟩, s.journal)

end TypedLowering.Dart
