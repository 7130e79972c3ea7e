import TypedLowering.JavaScript.Lower.Expression
import TypedLowering.Lowering.Sharing

/-!
# Lowering to statements

The statements for a node, which use its value as the strategy says. A decision tree whose targets
are selected once each is lowered with the targets in place. If a target is shared, the dispatcher
stores the index of the selected target in a variable, and a `switch` goes to it.
-/

namespace TypedLowering.JavaScript

namespace Parts

variable (r : Parts)

/-- The values that a self tail call writes to the slots. A slot whose parameter is passed on keeps
its value. -/
def slotWrites (ctx : Context) : List (Ir.Ident × String) → List Ir.Expr → Lower (List Stmt)
  | (p, slot) :: slots, arg :: args => do
    let value ← r.expr ctx.withoutTailCall arg
    let rest ← slotWrites ctx slots args
    match value.form with
    | .ident name =>
      return if name = p.name then rest else .expr (.assign (.ident slot) value) :: rest
    | _ => return .expr (.assign (.ident slot) value) :: rest
  | _, _ => pure []

/-- A self tail call as the next iteration of the loop. -/
def tailCall (ctx : Context) (t : TailCall) (args : List Ir.Expr) : Lower (List Stmt) := do
  Lower.markLooped
  let writes ← r.slotWrites ctx t.bindings (discardUnitArg args)
  return writes ++ [.of (.continueTo (some t.label))]

/-- The bindings of a recursive let. Functions are declared as such. -/
def recursive (ctx : Context) : List Ir.Binding → Lower (List Stmt)
  | [] => pure []
  | b :: bs => do
    let first ← match b.value.uncast with
      | .lambda arg body _ => do pure [← r.localFunction ctx b.ident [arg] body]
      | .delegate args body _ => do pure [← r.localFunction ctx b.ident args body]
      | _ => r.declare ctx b.ident b.value
    let rest ← recursive ctx bs
    return first ++ rest

/-- Nodes that are evaluated for their effects, one after the other, and the last one as the
strategy says. -/
def sequence (ctx : Context) (strategy : Strategy Expr) : List Ir.Expr → Lower (List Stmt)
  | [] => pure (deliverUnit strategy)
  | [last] => r.stmts ctx strategy last
  | e :: es => do
    let first ← r.stmts ctx.withoutTailCall .effect e
    let rest ← sequence ctx strategy es
    return first ++ rest

/-- An assignment of a value to a place. -/
def assignment (ctx : Context) (place : Expr) (value : Ir.Expr) (loc : Option Ir.Location) :
    Lower (List Stmt) := do
  if ← .isStatement ctx false value then r.stmts ctx (.assign place) value
  else return [.expr ((Expr.assign place (← r.expr ctx value)).withLoc loc)]

/-- Whether an expression can stand in the condition of a loop: its value does not change. -/
def isConstantBound (e : Expr) : Bool :=
  match e.form with
  | .ident _ | .literal _ => true
  | _ => false

/-- A counting loop. The bound is evaluated once, before the first iteration. -/
def forLoop (ctx : Context) (id : Ir.Ident) (start limit body : Ir.Expr) (isUp : Bool)
    (loc : Option Ir.Location) : Lower (List Stmt) := do
  let start ← r.expr ctx start
  let limit ← r.expr ctx limit
  let (bound, before) ←
    if isConstantBound limit then pure (limit, [])
    else do
      let name ← .allocateLocal "limit"
      pure (.ident name, [.declare .const name (some limit)])
  let body ← r.stmts ctx .effect body
  let (comparison, step) : Operator × Operator :=
    if isUp then (.lessOrEqual, .additionAssignment)
    else (.greaterOrEqual, .subtractionAssignment)
  let counter : Expr := .ident id.name
  return before ++ [⟨loc, .forLoop (some ⟨.let, [⟨id.name, some start⟩]⟩)
    (some (.binary comparison counter bound)) (some (.binary step counter (.number 1))) body⟩]

/-- Lower the handler of a `try` expression, with its parameter as the innermost exception. -/
def handler (ctx : Context) (strategy : Strategy Expr) :
    Option Ir.Handler → Lower (Option CatchClause)
  | none => pure none
  | some h => do
    let body ← .inHandler h.param.name (r.stmts ctx strategy h.body)
    return some ⟨some h.param.name, body⟩

/-- Lower the final part of a `try` expression, whose value is not wanted. -/
def finalizer (ctx : Context) : Option Ir.Expr → Lower (Option (List Stmt))
  | none => pure none
  | some e => do return some (← r.stmts ctx .effect e)

/-- Declarations of the identifiers that targets bind, unless a scope around declares them. -/
def targetVariables (ctx : Context) (targets : List Ir.Target) : List Stmt :=
  (targets.filter (!ctx.hoists ·.bound)).flatMap fun t =>
    t.bound.map fun id => Stmt.declare .let id.name none

/-- The cases of the `switch` that goes to the selected target; the last one is the default. -/
def cases (ctx : Context) (strategy : Strategy Expr) : Nat → List Ir.Target →
    Lower (List SwitchCase)
  | _, [] => pure []
  | index, t :: ts => do
    let body ← r.stmts ctx strategy t.body
    let exit := match strategy with
      | .ret => []
      | _ => [Stmt.of (.breakTo none)]
    let rest ← cases ctx strategy (index + 1) ts
    let test := if ts.isEmpty then none else some (.number index)
    return ⟨test, body ++ exit⟩ :: rest

/-- A decision tree. -/
def decisionTree (ctx : Context) (strategy : Strategy Expr) (dispatcher : Ir.Expr)
    (targets : List Ir.Target) : Lower (List Stmt) := do
  if (dispatcher.sharedTargets targets.length).isEmpty then
    r.stmts (ctx.withTargets targets) strategy dispatcher
  else
    let join ← .allocateLocal "matchResult"
    let dispatch ← r.stmts (ctx.withTargets targets).withoutTailCall (.join join) dispatcher
    let cases ← r.cases ctx strategy 0 targets
    return .declare .let join none :: targetVariables ctx targets ++ dispatch ++
      [.of (.switch (.ident join) cases)]

/-- Declarations of the identifiers that a target binds, with the values of a success node. -/
def bindings (ctx : Context) : List Ir.Ident → List Ir.Expr → Lower (List Stmt)
  | id :: ids, value :: values => do
    let first ← r.declare ctx id value
    let rest ← bindings ctx ids values
    return first ++ rest
  | _, _ => pure []

/-- Assignments to the identifiers that a target binds. -/
def assignments (ctx : Context) : List Ir.Ident → List Ir.Expr → Lower (List Stmt)
  | id :: ids, value :: values => do
    let first ← r.stmts ctx.withoutTailCall (.assign (.ident id.name)) value
    let rest ← assignments ctx ids values
    return first ++ rest
  | _, _ => pure []

/-- A success node: the target in place, or its index for the join variable. -/
def success (ctx : Context) (strategy : Strategy Expr) (index : Nat) (values : List Ir.Expr) :
    Lower (List Stmt) := do
  let t ← target ctx index
  match strategy with
  | .join name =>
    let stmts ← r.assignments ctx t.bound values
    return stmts ++ [.expr (.assign (.ident name) (.number index))]
  | .ret | .effect | .assign _ =>
    let stmts ← r.bindings ctx t.bound values
    return stmts ++ (← r.stmts ctx strategy t.body)

/-- A conditional that is a statement. -/
def conditional (ctx : Context) (strategy : Strategy Expr) (guard thenExpr elseExpr : Ir.Expr)
    (loc : Option Ir.Location) : Lower (List Stmt) := do
  let test ← r.expr ctx.withoutTailCall guard
  let thenStmts ← r.stmts ctx strategy thenExpr
  let elseStmts ← r.stmts ctx strategy elseExpr
  return [⟨loc, .ifElse test thenStmts elseStmts⟩]

/-- Whether a conditional is a statement wherever it can be one. With a loop around, its branches
may go on with the loop. -/
def prefersStatement (ctx : Context) : Strategy Expr → Bool
  | .ret | .assign _ => ctx.tailCall.isSome
  | .effect | .join _ => true

/-- The rule for any node in a place that takes statements. -/
def stmtsRule (ctx : Context) (strategy : Strategy Expr) (e : Ir.Expr) : Lower (List Stmt) :=
  match e with
  | .cast inner _ => r.stmts ctx strategy inner
  | .call callee receiver args isNew _ _ =>
    match ctx.selfTailCall? strategy callee receiver args isNew with
    | some t => r.tailCall ctx t args
    | none => r.delivered ctx strategy e
  | .ifThenElse guard thenExpr elseExpr loc => do
    if ← .isStatement ctx (prefersStatement ctx strategy) e then
      r.conditional ctx strategy guard thenExpr elseExpr loc
    else r.delivered ctx strategy e
  | .decisionTree dispatcher targets => r.decisionTree ctx strategy dispatcher targets
  | .success index values _ => r.success ctx strategy index values
  | .letIn id value body => do
    let stmts ← r.declare ctx id value
    return stmts ++ (← r.stmts ctx strategy body)
  | .letRec bindings body => do
    let stmts ← r.recursive ctx bindings
    return stmts ++ (← r.stmts ctx strategy body)
  | .sequence exprs => r.sequence ctx strategy exprs
  | .set target field value loc => do
    let ctx := ctx.withoutTailCall
    let place ← r.place ctx target field
    let stmts ← r.assignment ctx place value loc
    return stmts ++ deliverUnit strategy
  | .setIndex target index value loc => do
    let ctx := ctx.withoutTailCall
    let place ← r.element ctx target index
    let stmts ← r.assignment ctx place value loc
    return stmts ++ deliverUnit strategy
  | .whileLoop guard body loc => do
    let ctx := ctx.withoutTailCall
    let test ← r.expr ctx guard
    let body ← r.stmts ctx .effect body
    return ⟨loc, .whileLoop test body⟩ :: deliverUnit strategy
  | .forLoop id start limit body isUp loc => do
    let stmts ← r.forLoop ctx.withoutTailCall id start limit body isUp loc
    return stmts ++ deliverUnit strategy
  | .tryCatch body handler finalizer loc => do
    let ctx := ctx.withoutTailCall
    let block ← r.stmts ctx strategy body
    let handler ← r.handler ctx strategy handler
    let finalizer ← r.finalizer ctx finalizer
    return [⟨loc, .tryCatch block handler finalizer⟩]
  | .throw (some error) _ loc => do
    return [⟨loc, .throw (← r.expr ctx.withoutTailCall error)⟩]
  | .throw none _ loc => do
    let caught ← .ofOption (.unsupported .rethrowOutsideHandler loc) (← .caught?)
    return [⟨loc, .throw (.ident caught)⟩]
  | .debugger loc => pure (⟨loc, .debugger⟩ :: deliverUnit strategy)
  | .emit template args true _ loc => do
    let args ← r.exprs ctx.withoutTailCall args
    return .expr ⟨loc, .emit template args⟩ :: deliverUnit strategy
  | .literal .. | .option .. | .aggregate .. | .ident _ | .imported .. | .lambda .. | .delegate ..
  | .object .. | .apply .. | .unary .. | .binary .. | .logical .. | .emit .. | .get ..
  | .getIndex .. | .test .. | .curry .. => r.delivered ctx strategy e

end Parts

end TypedLowering.JavaScript
