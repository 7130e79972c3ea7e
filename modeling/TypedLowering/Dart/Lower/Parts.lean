import TypedLowering.Dart.Lower.Types
import TypedLowering.Lowering.Inlining

/-!
# Lowering the parts of a node

Where Dart has no expression for a node, its value is computed by statements that run before the
expression. Lowering a part as an expression gives both: the statements, and the expression that may
be evaluated after them. If no statements may run before, such a node is an error.
-/

namespace TypedLowering.Dart

/-- An expression with the statements that have to run before it. -/
structure Hoisted (α : Type) where
  before : List Stmt
  value : α

/-- How parts are lowered. The flag tells whether statements may run before an expression. -/
structure Parts where
  expr : Context → Bool → Ir.Expr → Lower (Hoisted Expr)
  stmts : Context → Strategy Expr → Ir.Expr → Lower (List Stmt)

/-- The identifier of a join variable. -/
def joinIdent (name : String) : Ident := .own name .integer

/-- Statements that put the value where the strategy wants it. -/
def deliver (strategy : Strategy Expr) (value : Expr) : List Stmt :=
  match strategy with
  | .effect => if value.isTrivial then [] else [.expr value]
  | .ret => [.ret (some value)]
  | .assign place => [.assign place value]
  | .join name => [.assign (.ident (joinIdent name)) value]

/-- What ends a node that has no value. -/
def deliverUnit (strategy : Strategy Expr) : List Stmt :=
  match strategy with
  | .ret => [.ret none]
  | .effect | .assign _ | .join _ => []

/-- Binds the operands that are not trivial to locals. -/
def saveOperands (file : SourceFile) :
    List (Expr × Ir.Ty) → Lower (Hoisted (List (Expr × Ir.Ty)))
  | [] => pure ⟨[], []⟩
  | (value, ty) :: rest => do
    if value.isTrivial then
      let rest ← saveOperands file rest
      return ⟨rest.before, (value, ty) :: rest.value⟩
    else
      let id ← freshLocal file "arg" ty
      let rest ← saveOperands file rest
      return ⟨.declare id .final (some value) :: rest.before, (.ident id, ty) :: rest.value⟩

namespace Parts

variable (r : Parts)

/-- A node as an expression, with whatever statements it needs. -/
def captured (ctx : Context) (e : Ir.Expr) : Lower (Hoisted Expr) := r.expr ctx true e

/-- Evaluates a node as an expression and delivers its value. -/
def delivered (ctx : Context) (strategy : Strategy Expr) (e : Ir.Expr) : Lower (List Stmt) := do
  let e ← r.captured ctx.withoutTailCall e
  return e.before ++ deliver strategy e.value

/-- The value of a node that needs statements, in a new local. A unit value is null. -/
def capture (ctx : Context) (hoists : Bool) (e : Ir.Expr) : Lower (Hoisted Expr) := do
  if !hoists then .fail (.statementInExpression e.kindName e.location)
  else
    let ctx := ctx.withoutTailCall
    if e.type.isUnit then return ⟨← r.stmts ctx .effect e, .null⟩
    else
      let id ← freshLocal ctx.file "tmp" e.type
      let stmts ← r.stmts ctx (.assign (.ident id)) e
      return ⟨.declare id .var none :: stmts, .ident id⟩

/-- Operands from left to right, after those that are `done`. When one of them needs statements, the
operands before it are evaluated first. -/
def operandsAfter (ctx : Context) (hoists : Bool) :
    List (Expr × Ir.Ty) → List Ir.Expr → Lower (Hoisted (List Expr))
  | done, [] => pure ⟨[], done.map (·.1)⟩
  | done, e :: es => do
    let operand ← r.expr ctx hoists e
    let saved ← if operand.before.isEmpty then pure ⟨[], done⟩ else saveOperands ctx.file done
    let rest ← operandsAfter ctx hoists (saved.value ++ [(operand.value, e.type)]) es
    return ⟨saved.before ++ operand.before ++ rest.before, rest.value⟩

/-- Operands from left to right. -/
def operands (ctx : Context) (hoists : Bool) (es : List Ir.Expr) : Lower (Hoisted (List Expr)) :=
  r.operandsAfter ctx hoists [] es

/-- Two operands from left to right. -/
def operandPair (ctx : Context) (hoists : Bool) (left right : Ir.Expr) :
    Lower (Hoisted (Expr × Expr)) := do
  let both ← r.operands ctx hoists [left, right]
  match both.value with
  | [left, right] => return ⟨both.before, left, right⟩
  | _ => return ⟨both.before, .null, .null⟩

/-- Declares `id` with the value. A unit value is only evaluated, and a value that needs statements
is assigned to the variable afterwards. -/
def declare (ctx : Context) (id : Ir.Ident) (value : Ir.Expr) : Lower (List Stmt) := do
  let ctx := ctx.withoutTailCall
  if id.ty.isUnit then r.stmts ctx .effect value
  else
    let place ← lowerIdent ctx.file id
    if ← .isStatement ctx false value then
      let stmts ← r.stmts ctx (.assign (.ident place)) value
      return .declare place (if id.isMutable then .var else .late) none :: stmts
    else
      let value ← r.captured ctx value
      return value.before ++
        [.declare place (if id.isMutable then .var else .final) (some value.value)]

/-- A closure. -/
def closure (ctx : Context) (params : List Ir.Ident) (body : Ir.Expr) : Lower Expr := do
  let args ← lowerIdents ctx.file (declaredParams params)
  let stmts ← r.stmts ctx.withoutTailCall (.ofType body.type.isUnit) body
  return .function args stmts (← lowerType ctx.file body.type)

/-- The slots of a loop as parameters, and the copies with which an iteration begins. -/
def loopParams (file : SourceFile) : List (Ir.Ident × String) → Lower (List Ident × List Stmt)
  | [] => pure ([], [])
  | (p, slot) :: slots => do
    let ty ← lowerType file p.ty
    let (params, copies) ← loopParams file slots
    return (.own slot ty :: params,
      .declare (.own p.name ty) .final (some (.ident (.own slot ty))) :: copies)

/-- The body of a function that became a loop. A body that does not return its value leaves the loop
at its end. -/
def loopBody (t : TailCall) (strategy : Strategy Expr) (copies body : List Stmt) : List Stmt :=
  let exit := if strategy.isEffect then [Stmt.breakTo none] else []
  [.labeled t.label (.whileLoop (.literal (.bool true)) (copies ++ body ++ exit))]

/-- The parameters, the body and the result type of a function. Self calls in tail position of a
named function become iterations of a loop, if there are any; then the slots are the parameters. -/
def function (ctx : Context) (name : Option String) (params : List Ir.Ident) (body : Ir.Expr) :
    Lower (List Ident × List Stmt × Ty) := do
  let params := declaredParams params
  let ret ← lowerType ctx.file body.type
  let strategy : Strategy Expr := .ofType body.type.isUnit
  match name, params with
  | some name, _ :: _ =>
    let t ← .allocateTailCall name params
    let (stmts, looped) ← .inFunction (r.stmts (ctx.withTailCall t) strategy body)
    if looped then
      let (slots, copies) ← loopParams ctx.file t.bindings
      return (slots, loopBody t strategy copies stmts, ret)
    else return (← lowerIdents ctx.file params, stmts, ret)
  | _, _ =>
    let stmts ← r.stmts ctx.withoutTailCall strategy body
    return (← lowerIdents ctx.file params, stmts, ret)

/-- A function that is declared inside another one. -/
def localFunction (ctx : Context) (id : Ir.Ident) (params : List Ir.Ident) (body : Ir.Expr) :
    Lower Stmt := do
  let (args, body, ret) ← r.function ctx (some id.name) params body
  return .function ⟨id.name, args, body, ret, []⟩

end Parts

end TypedLowering.Dart
