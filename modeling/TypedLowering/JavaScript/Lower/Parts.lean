import TypedLowering.JavaScript.Tree
import TypedLowering.Lowering.Inlining

/-!
# Lowering the parts of a node

A node is lowered by rules that lower its parts, as expressions or as statements. The rules take the
lowering of parts as an argument, `Parts`, and so do the helpers here, which hold for every way to
lower them.
-/

namespace TypedLowering.JavaScript

/-- How parts are lowered: to one expression, or to statements that use the value as the strategy
says. -/
structure Parts where
  expr : Context → Ir.Expr → Lower Expr
  stmts : Context → Strategy Expr → Ir.Expr → Lower (List Stmt)

/-- The local name of a helper in the runtime library. -/
def helper (ctx : Context) (selector : String) : Lower String :=
  .importMember (ctx.file.settings.options.libraryPath "Util.js") selector

/-- The name of the class that an entity is lowered to. -/
def className (ctx : Context) (entity : String) : Lower String :=
  .ofOption (.missingEntity entity) ((ctx.file.settings.entity? entity).map (·.displayName))

/-- Statements that put the value where the strategy wants it. -/
def deliver (strategy : Strategy Expr) (value : Expr) : List Stmt :=
  match strategy with
  | .effect => [.expr value]
  | .ret => [.of (.ret (some value))]
  | .assign place => [.of (.expr (.assign place value))]
  | .join name => [.of (.expr (.assign (.ident name) value))]

/-- What ends a node that has no value. -/
def deliverUnit (strategy : Strategy Expr) : List Stmt :=
  match strategy with
  | .ret => [.of (.ret none)]
  | .effect | .assign _ | .join _ => []

namespace Parts

variable (r : Parts)

/-- The expressions in order. -/
def exprs (ctx : Context) : List Ir.Expr → Lower (List Expr)
  | [] => pure []
  | e :: es => do
    let first ← r.expr ctx e
    let rest ← exprs ctx es
    return first :: rest

/-- Evaluates a node as an expression and delivers its value. -/
def delivered (ctx : Context) (strategy : Strategy Expr) (e : Ir.Expr) : Lower (List Stmt) := do
  return deliver strategy (← r.expr ctx.withoutTailCall e)

/-- Declares `id` with the value. A unit value is only evaluated, and a value that needs statements
is assigned to the variable afterwards. -/
def declare (ctx : Context) (id : Ir.Ident) (value : Ir.Expr) : Lower (List Stmt) := do
  let ctx := ctx.withoutTailCall
  if id.ty.isUnit then r.stmts ctx .effect value
  else if ← .isStatement ctx false value then
    return .declare .let id.name none :: (← r.stmts ctx (.assign (.ident id.name)) value)
  else
    let value ← r.expr ctx value
    return [.declare (if id.isMutable then .let else .const) id.name (some value)]

/-- The value of a node that needs statements: an arrow function that is called at once. -/
def invoked (ctx : Context) (e : Ir.Expr) : Lower Expr := do
  let body ← r.stmts ctx.withoutTailCall (.ofType e.type.isUnit) e
  return .call (.of (.function (.arrow [] (.block body)))) []

/-- A function body that only returns a value, without braces. -/
def arrowBody : List Stmt → FuncBody
  | [⟨_, .ret (some value)⟩] => .value value
  | body => .block body

/-- A closure. -/
def closure (ctx : Context) (params : List Ir.Ident) (body : Ir.Expr) : Lower Expr := do
  let stmts ← r.stmts ctx.withoutTailCall (.ofType body.type.isUnit) body
  let params := (declaredParams params).map fun p => ⟨p.name, false⟩
  return .of (.function (.arrow params (arrowBody stmts)))

/-- The body of a function that became a loop: each iteration begins with copies of the slots. A
body that does not return its value leaves the loop at its end. -/
def loopBody (t : TailCall) (strategy : Strategy Expr) (body : List Stmt) : List Stmt :=
  let copies := t.bindings.map fun (p, slot) => Stmt.declare .const p.name (some (.ident slot))
  let exit := if strategy.isEffect then [Stmt.of (.breakTo none)] else []
  [.of (.labeled t.label
    (.of (.whileLoop (.literal (.bool true)) (copies ++ body ++ exit))))]

/-- The parameters and the body of a function. Self calls in tail position of a named function
become iterations of a loop, if there are any; then the slots are the parameters. -/
def function (ctx : Context) (name : Option String) (params : List Ir.Ident) (body : Ir.Expr) :
    Lower (List Param × List Stmt) := do
  let params := declaredParams params
  let strategy : Strategy Expr := .ofType body.type.isUnit
  let plain := params.map fun p => (⟨p.name, false⟩ : Param)
  match name, params with
  | some name, _ :: _ =>
    let t ← .allocateTailCall name params
    let (stmts, looped) ← .inFunction (r.stmts (ctx.withTailCall t) strategy body)
    if looped then
      return (t.bindings.map fun (_, slot) => ⟨slot, false⟩, loopBody t strategy stmts)
    else return (plain, stmts)
  | _, _ => return (plain, ← r.stmts ctx.withoutTailCall strategy body)

/-- A function that is declared inside another one. -/
def localFunction (ctx : Context) (id : Ir.Ident) (params : List Ir.Ident) (body : Ir.Expr) :
    Lower Stmt := do
  let (params, body) ← r.function ctx (some id.name) params body
  return .of (.function (.named id.name params body))

end Parts

end TypedLowering.JavaScript
