import TypedLowering.Lowering.Context
import TypedLowering.Lowering.Error

/-!
# Which expressions need statements

`isStatement` tells whether an expression has to be lowered to statements. A conditional or a
decision tree needs statements when one of its branches does, or when the caller prefers them; a
success node needs them when it binds values or when the body of its target does.
-/

namespace TypedLowering

open Ir (Expr Target)

/-- `isStatement` for paths of bounded length through the expression and the targets. -/
def isStatementWithin : Nat → List Target → Bool → Expr → Except LowerError Bool
  | 0, _, _, _ => .error .endless
  | n + 1, targets, prefer, e =>
    match e with
    | .literal .. | .option .. | .aggregate .. | .ident _ | .imported .. | .lambda ..
    | .delegate .. | .object .. | .call .. | .apply .. | .unary .. | .binary .. | .logical ..
    | .get .. | .getIndex .. | .test .. | .curry .. => .ok false
    | .set .. | .setIndex .. | .sequence _ | .letIn .. | .letRec .. | .whileLoop .. | .forLoop ..
    | .tryCatch .. | .throw .. | .debugger _ => .ok true
    | .emit _ _ isStatement _ _ => .ok isStatement
    | .cast expr _ => isStatementWithin n targets prefer expr
    | .ifThenElse _ thenExpr elseExpr _ =>
      if prefer then .ok true
      else do
        if ← isStatementWithin n targets false thenExpr then return true
        isStatementWithin n targets false elseExpr
    | .decisionTree dispatcher inner =>
      if prefer then .ok true
      else do
        if ← isStatementWithin n inner false dispatcher then return true
        inner.anyM fun t => isStatementWithin n targets false t.body
    | .success index values _ =>
      match targets[index]? with
      | none => .error (.missingTarget index)
      | some t => if values.isEmpty then isStatementWithin n targets false t.body else .ok true

/-- Whether `e` has to be lowered to statements. With `prefer`, conditionals and decision trees
always are. -/
def isStatement (ctx : Context) (prefer : Bool) (e : Expr) : Except LowerError Bool :=
  isStatementWithin (ctx.depth e) ctx.targets prefer e

end TypedLowering
