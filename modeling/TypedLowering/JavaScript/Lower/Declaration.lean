import TypedLowering.Ir.Declaration
import TypedLowering.JavaScript.Lower.Statement

/-!
# Lowering files to JavaScript

`lowerExpr` and `lowerStmts` tie the rules together: the parts of a node are lowered by the same
rules, up to a depth. Modules are flattened, and actions become statements of the module.
-/

namespace TypedLowering.JavaScript

/-! ## Reserved words -/

/-- The words that no binding of a module may have as its name. -/
def reservedWords : List String := [
  "arguments", "await", "break", "case", "catch", "class", "const", "continue", "debugger",
  "default", "delete", "do", "else", "enum", "eval", "export", "extends", "false", "finally",
  "for", "function", "if", "implements", "import", "in", "instanceof", "interface", "let", "new",
  "null", "package", "private", "protected", "public", "return", "static", "super", "switch",
  "this", "throw", "true", "try", "typeof", "undefined", "var", "void", "while", "with", "yield"]

/-- The word cannot be the name of a declaration. -/
def isReserved (name : String) : Bool :=
  reservedWords.contains name

/-! ## Declarations -/

/-- The rules with parts lowered by the rules, to that depth. -/
def rules : Nat → Parts
  | 0 => ⟨fun _ _ => .fail .endless, fun _ _ _ => .fail .endless⟩
  | depth + 1 =>
    ⟨fun ctx e => (rules depth).exprRule ctx e,
      fun ctx strategy e => (rules depth).stmtsRule ctx strategy e⟩

/-- Lowers a node to one expression. -/
def lowerExpr (ctx : Context) (e : Ir.Expr) : Lower Expr :=
  (rules (ctx.depth e)).expr ctx e

/-- Lowers a node to statements. -/
def lowerStmts (ctx : Context) (strategy : Strategy Expr) (e : Ir.Expr) : Lower (List Stmt) :=
  (rules (ctx.depth e)).stmts ctx strategy e

/-- Lowers the parameters and the body of a function. -/
def lowerFunction (ctx : Context) (name : Option String) (params : List Ir.Ident)
    (body : Ir.Expr) : Lower (List Param × List Stmt) :=
  (rules (ctx.depth body)).function ctx name params body

/-- The statement `this.name = name`. -/
def fieldAssignment (name : String) : Stmt :=
  .expr (.assign (.member (.of .this) name) (.ident name))

/-- The constructor that stores its arguments in the fields. -/
def fieldConstructor (fields : List String) : ClassMember :=
  ⟨"constructor", .constructor, false,
    .method (fields.map (⟨·, false⟩)) (fields.map fieldAssignment)⟩

/-- The constructor of a class, by its entity. A plain class has the one that it declares. -/
def lowerConstructor (ctx : Context) (entity : Entity) (constructor : Option Ir.Member) :
    Lower (List ClassMember) :=
  match entity.kind with
  | .record fields => pure [fieldConstructor (fields.map (·.name))]
  | .union _ => pure [fieldConstructor ["tag", "fields"]]
  | .plain =>
    match constructor with
    | none => pure []
    | some m => do
      let (params, body) ← lowerFunction ctx none m.args m.body
      return [⟨"constructor", .constructor, false, .method params body⟩]

/-- Lower the methods of a class in order. -/
def lowerMethods (ctx : Context) : List Ir.Member → Lower (List ClassMember)
  | [] => pure []
  | m :: ms => do
    let (params, body) ← lowerFunction ctx (some m.name) m.args m.body
    let rest ← lowerMethods ctx ms
    return ⟨m.name, .method, false, .method params body⟩ :: rest

/-- Lower a class. The entity that it declares gives its constructor. -/
def lowerClass (ctx : Context) (decl : Ir.ClassDecl) : Lower Stmt := do
  let entity ← .ofOption (.missingEntity decl.entity) (ctx.file.settings.entity? decl.entity)
  let constructor ← lowerConstructor ctx entity decl.constructor
  let methods ← lowerMethods ctx decl.members
  return Stmt.exportIf entity.isPublic (.of (.classDecl ⟨decl.name, none, constructor ++ methods⟩))

/-- A function, or a variable for a value. -/
def lowerMember (ctx : Context) (m : Ir.Member) : Lower Stmt := do
  if m.isValue then
    let value ← lowerExpr ctx m.body
    let mode : DeclMode := if m.isMutable then .let else .const
    return Stmt.exportIf m.isPublic ((Stmt.declare mode m.name (some value)).withLoc m.loc)
  else
    let (params, body) ← lowerFunction ctx (some m.name) m.args m.body
    return Stmt.exportIf m.isPublic ⟨m.loc, .function (.named m.name params body)⟩

/-- The statements of a declaration that is no module. -/
def lowerLeaf (file : SourceFile) : Ir.Leaf → Lower (List Stmt)
  | .action a => .inDeclaration a.used (lowerStmts (.ofFile file) .effect a.body)
  | .member m => .inDeclaration m.used do return [← lowerMember (.ofFile file) m]
  | .classDecl c => .inDeclaration c.used do return [← lowerClass (.ofFile file) c]

/-- The statements of declarations in order. If one fails, those before it are still there. -/
def lowerLeaves (file : SourceFile) :
    List Ir.Leaf → LowerState → Except LowerError Unit × List Stmt × LowerState
  | [], s => (.ok (), [], s)
  | leaf :: rest, s =>
    match lowerLeaf file leaf s with
    | (.error e, s) => (.error e, [], s)
    | (.ok stmts, s) =>
      let (result, more, s) := lowerLeaves file rest s
      (result, stmts ++ more, s)

/-- Lowers a declaration; the statements of what comes before a failure are still there. -/
def lowerDeclaration (file : SourceFile) (decl : Ir.Declaration) (s : LowerState) :
    Except LowerError Unit × List Stmt × LowerState :=
  lowerLeaves file decl.leaves s

/-- The import declaration for what is imported from one path. -/
def importDecl (m : ModuleImports) : ImportDecl where
  path := m.path
  default := ((m.members.filter (·.1 == "default")).getLast?).map (·.2)
  whole := m.whole
  names := m.members.filter (·.1 != "default")

/-- The import declarations of a file. -/
def importDecls (imports : ImportTable) : List ImportDecl := imports.map importDecl

/-- Lowers a file. -/
def lowerFile (file : SourceFile) (content : Ir.File) (journal : Journal) :
    Except LowerError Program × Journal :=
  let s := LowerState.start journal content.used reservedWords
  match lowerLeaves file (Ir.Declaration.leavesList content.declarations) s with
  | (.ok (), body, s) => (.ok ⟨importDecls s.imports, body⟩, s.journal)
  | (.error e, _, s) => (.error e, s.journal)

end TypedLowering.JavaScript
