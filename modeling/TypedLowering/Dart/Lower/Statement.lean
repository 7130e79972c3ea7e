import TypedLowering.Dart.Lower.Expression
import TypedLowering.Lowering.Sharing

/-!
# Lowering to statements

The statements for a node, which use its value as the strategy says. Decision trees whose targets
are shared go through a `switch` over the index of the selected target.
-/

namespace TypedLowering.Dart

/-- Whether an expression only passes a parameter on. -/
def passesOn (param : String) : Expr → Bool
  | .ident id => id.name == param && id.importPrefix.isNone
  | _ => false

namespace Parts

variable (r : Parts)

/-- Nodes as expressions, one after the other. -/
def values (ctx : Context) : List Ir.Expr → Lower (Hoisted (List Expr))
  | [] => pure ⟨[], []⟩
  | e :: es => do
    let first ← r.captured ctx e
    let rest ← values ctx es
    return ⟨first.before ++ rest.before, first.value :: rest.value⟩

/-- The values that a self tail call writes to the slots. A slot whose parameter is passed on keeps
its value. -/
def slotWrites (file : SourceFile) : List (Ir.Ident × String) → List Expr → Lower (List Stmt)
  | (p, slot) :: slots, value :: values => do
    if passesOn p.name value then slotWrites file slots values
    else
      let ty ← lowerType file p.ty
      let rest ← slotWrites file slots values
      return .assign (.ident (.own slot ty)) value :: rest
  | _, _ => pure []

/-- A self tail call as the next iteration of the loop. -/
def tailCall (ctx : Context) (t : TailCall) (args : List Ir.Expr) : Lower (List Stmt) := do
  Lower.markLooped
  let args ← r.values ctx.withoutTailCall (discardUnitArg args)
  let writes ← slotWrites ctx.file t.bindings args.value
  return args.before ++ writes ++ [.continueTo (some t.label)]

/-- The bindings of a recursive let. Functions are declared as such. -/
def recursive (ctx : Context) : List Ir.Binding → Lower (List Stmt)
  | [] => pure []
  | b :: bs => do
    let first ← match b.value.uncast with
      | .lambda arg body _ => do pure [← r.localFunction ctx b.ident [arg] body]
      | .delegate args body _ => do pure [← r.localFunction ctx b.ident args body]
      | _ => r.declare ctx b.ident b.value
    let rest ← recursive ctx bs
    return first ++ rest

/-- Nodes that are evaluated for their effects, one after the other, and the last one as the
strategy says. -/
def sequence (ctx : Context) (strategy : Strategy Expr) : List Ir.Expr → Lower (List Stmt)
  | [] => pure (deliverUnit strategy)
  | [last] => r.stmts ctx strategy last
  | e :: es => do
    let first ← r.stmts ctx.withoutTailCall .effect e
    let rest ← sequence ctx strategy es
    return first ++ rest

/-- An assignment of a value to a place. -/
def assignment (ctx : Context) (place : Expr) (value : Ir.Expr) : Lower (List Stmt) := do
  if ← .isStatement ctx false value then r.stmts ctx (.assign place) value
  else
    let value ← r.captured ctx value
    return value.before ++ [.assign place value.value]

/-- The loop for a condition and a body. If the condition needs statements, they run in the loop,
and the loop is left when the condition fails. -/
def whileStmt (guard : Hoisted Expr) (body : List Stmt) : Stmt :=
  if guard.before.isEmpty then .whileLoop guard.value body
  else
    .whileLoop (.literal (.bool true))
      (guard.before ++ .ifElse (.unary .not guard.value) [.breakTo none] [] :: body)

/-- A counting loop. -/
def forLoop (ctx : Context) (id : Ir.Ident) (start limit body : Ir.Expr) (isUp : Bool) :
    Lower (List Stmt) := do
  let start ← r.captured ctx start
  let limit ← r.captured ctx limit
  let body ← r.stmts ctx .effect body
  let id ← lowerIdent ctx.file id
  return start.before ++ limit.before ++ [.forLoop id start.value limit.value isUp body]

/-- Lower the handler of a `try` expression, with its parameter as the innermost exception. -/
def handler (ctx : Context) (strategy : Strategy Expr) :
    Option Ir.Handler → Lower (Option CatchClause)
  | none => pure none
  | some h => do
    let param ← lowerIdent ctx.file h.param
    return some ⟨param, ← r.stmts ctx strategy h.body⟩

/-- Lower the final part of a `try` expression, whose value is not wanted. -/
def finalizer (ctx : Context) : Option Ir.Expr → Lower (Option (List Stmt))
  | none => pure none
  | some e => do return some (← r.stmts ctx .effect e)

/-- Declarations of the identifiers that targets bind, unless a scope around declares them. -/
def targetVariables (ctx : Context) (targets : List Ir.Target) : Lower (List Stmt) := do
  let ids ← lowerIdents ctx.file ((targets.filter (!ctx.hoists ·.bound)).flatMap (·.bound))
  return ids.map fun id => .declare id .late none

/-- The bodies of the targets. -/
def targetBodies (ctx : Context) (strategy : Strategy Expr) :
    List Ir.Target → Lower (List (List Stmt))
  | [] => pure []
  | t :: ts => do
    let first ← r.stmts ctx strategy t.body
    let rest ← targetBodies ctx strategy ts
    return first :: rest

/-- The `switch` over the index of the selected target; the last target is the default. -/
def dispatch (join : String) (bodies : List (List Stmt)) : Stmt :=
  .switch (.ident (joinIdent join))
    (bodies.dropLast.zipIdx.map fun (body, i) => ⟨[.integer i], body⟩) bodies.getLast?

/-- A decision tree. -/
def decisionTree (ctx : Context) (strategy : Strategy Expr) (dispatcher : Ir.Expr)
    (targets : List Ir.Target) : Lower (List Stmt) := do
  if (dispatcher.sharedTargets targets.length).isEmpty then
    r.stmts (ctx.withTargets targets) strategy dispatcher
  else
    let join ← .allocateLocal "matchResult"
    let declared ← targetVariables ctx targets
    let select ← r.stmts (ctx.withTargets targets).withoutTailCall (.join join) dispatcher
    let bodies ← r.targetBodies ctx strategy targets
    return .declare (joinIdent join) .late none :: declared ++ select ++ [dispatch join bodies]

/-- Declarations of the identifiers that a target binds, with the values of a success node. -/
def bindings (ctx : Context) : List Ir.Ident → List Ir.Expr → Lower (List Stmt)
  | id :: ids, value :: values => do
    let first ← r.declare ctx id value
    let rest ← bindings ctx ids values
    return first ++ rest
  | _, _ => pure []

/-- Assignments to the identifiers that a target binds. -/
def assignments (ctx : Context) : List Ir.Ident → List Ir.Expr → Lower (List Stmt)
  | id :: ids, value :: values => do
    let place ← lowerIdent ctx.file id
    let first ← r.stmts ctx.withoutTailCall (.assign (.ident place)) value
    let rest ← assignments ctx ids values
    return first ++ rest
  | _, _ => pure []

/-- A success node: the target in place, or its index for the join variable. -/
def success (ctx : Context) (strategy : Strategy Expr) (index : Nat) (values : List Ir.Expr) :
    Lower (List Stmt) := do
  let t ← target ctx index
  match strategy with
  | .join name =>
    let stmts ← r.assignments ctx t.bound values
    return stmts ++ [.assign (.ident (joinIdent name)) (.integer index)]
  | .ret | .effect | .assign _ =>
    let stmts ← r.bindings ctx t.bound values
    return stmts ++ (← r.stmts ctx strategy t.body)

/-- A conditional that is a statement. -/
def conditionalStmts (ctx : Context) (strategy : Strategy Expr)
    (guard thenExpr elseExpr : Ir.Expr) : Lower (List Stmt) := do
  let guard ← r.captured ctx.withoutTailCall guard
  let thenBody ← r.stmts ctx strategy thenExpr
  let elseBody ← r.stmts ctx strategy elseExpr
  return guard.before ++ [.ifElse guard.value thenBody elseBody]

/-- Whether a conditional is a statement wherever it can be one. With a loop around, its branches
may go on with the loop. -/
def prefersStatement (ctx : Context) : Strategy Expr → Bool
  | .ret | .assign _ => ctx.tailCall.isSome
  | .effect | .join _ => true

/-- Whether the value under a cast is delivered without the cast. -/
def dropsCast (ctx : Context) (strategy : Strategy Expr) (inner : Ir.Expr) : Lower Bool :=
  if strategy.joinVariable?.isSome then pure true else .isStatement ctx false inner

/-- The rule for any node in a place that takes statements. -/
def stmtsRule (ctx : Context) (strategy : Strategy Expr) (e : Ir.Expr) : Lower (List Stmt) :=
  match e with
  | .cast inner _ => do
    if ← dropsCast ctx strategy inner then r.stmts ctx strategy inner
    else r.delivered ctx strategy e
  | .call callee receiver args isNew _ _ =>
    match ctx.selfTailCall? strategy callee receiver args isNew with
    | some t => r.tailCall ctx t args
    | none => r.delivered ctx strategy e
  | .ifThenElse guard thenExpr elseExpr _ => do
    if ← .isStatement ctx (prefersStatement ctx strategy) e then
      r.conditionalStmts ctx strategy guard thenExpr elseExpr
    else r.delivered ctx strategy e
  | .decisionTree dispatcher targets => r.decisionTree ctx strategy dispatcher targets
  | .success index values _ => r.success ctx strategy index values
  | .letIn id value body => do
    let stmts ← r.declare ctx id value
    return stmts ++ (← r.stmts ctx strategy body)
  | .letRec bindings body => do
    let stmts ← r.recursive ctx bindings
    return stmts ++ (← r.stmts ctx strategy body)
  | .sequence exprs => r.sequence ctx strategy exprs
  | .set target field value _ => do
    let ctx := ctx.withoutTailCall
    let target ← r.captured ctx target
    let place := match field with
      | none => target.value
      | some name => .property target.value name
    let stmts ← r.assignment ctx place value
    return target.before ++ stmts ++ deliverUnit strategy
  | .setIndex target index value _ => do
    let ctx := ctx.withoutTailCall
    let target ← r.captured ctx target
    let index ← r.captured ctx index
    let stmts ← r.assignment ctx (.index target.value index.value) value
    return target.before ++ index.before ++ stmts ++ deliverUnit strategy
  | .whileLoop guard body _ => do
    let ctx := ctx.withoutTailCall
    let guard ← r.captured ctx guard
    let body ← r.stmts ctx .effect body
    return whileStmt guard body :: deliverUnit strategy
  | .forLoop id start limit body isUp _ => do
    let stmts ← r.forLoop ctx.withoutTailCall id start limit body isUp
    return stmts ++ deliverUnit strategy
  | .tryCatch body handler finalizer _ => do
    let ctx := ctx.withoutTailCall
    let body ← r.stmts ctx strategy body
    let handler ← r.handler ctx strategy handler
    let finalizer ← r.finalizer ctx finalizer
    return [.tryCatch body handler finalizer]
  | .throw (some error) _ _ => do
    let error ← r.captured ctx.withoutTailCall error
    return error.before ++ [.throw error.value]
  | .throw none _ _ => pure [.rethrow]
  | .debugger _ => do
    let library ← .importWhole "dart:developer"
    return .expr (.callWith (.ident (.imported library "debugger" .dynamic)) []) ::
      deliverUnit strategy
  | .emit template args true _ _ => do
    let args ← r.operands ctx.withoutTailCall true args
    return args.before ++ .expr (.emit template args.value) :: deliverUnit strategy
  | .literal .. | .option .. | .aggregate .. | .ident _ | .imported .. | .lambda .. | .delegate ..
  | .object .. | .apply .. | .unary .. | .binary .. | .logical .. | .emit .. | .get ..
  | .getIndex .. | .test .. | .curry .. => r.delivered ctx strategy e

end Parts

end TypedLowering.Dart
