import TypedLowering.Ir.Expr

/-!
# Shared targets

A target of a decision tree that several success nodes select must not be copied to each of them.
The success nodes of a tree are those of its dispatcher outside nested trees.
-/

namespace TypedLowering.Ir.Expr

mutual

/-- The targets that the success nodes in an expression select, in order. Nested decision trees own
their success nodes and are not searched. -/
def selected : Expr → List Nat
  | .decisionTree .. => []
  | .success index values _ => index :: selectedList values
  | .literal .. | .ident _ | .imported .. | .debugger _ => []
  | .option value _ _ => selectedOption value
  | .aggregate _ values _ => selectedList values
  | .cast expr _ | .test expr _ _ | .curry expr _ _ => expr.selected
  | .lambda _ body _ | .delegate _ body _ => body.selected
  | .object members _ base => selectedMembers members ++ selectedOption base
  | .call callee receiver args _ _ _ =>
    callee.selected ++ selectedOption receiver ++ selectedList args
  | .apply applied args _ _ => applied.selected ++ selectedList args
  | .unary _ operand _ _ => operand.selected
  | .binary _ left right _ _ | .logical _ left right _ _ => left.selected ++ right.selected
  | .emit _ args _ _ _ => selectedList args
  | .get obj _ _ _ => obj.selected
  | .getIndex obj index _ _ => obj.selected ++ index.selected
  | .set target _ value _ => target.selected ++ value.selected
  | .setIndex target index value _ => target.selected ++ index.selected ++ value.selected
  | .ifThenElse guard thenExpr elseExpr _ =>
    guard.selected ++ thenExpr.selected ++ elseExpr.selected
  | .letIn _ value body => value.selected ++ body.selected
  | .letRec bindings body => selectedBindings bindings ++ body.selected
  | .sequence exprs => selectedList exprs
  | .whileLoop guard body _ => guard.selected ++ body.selected
  | .forLoop _ start limit body _ _ => start.selected ++ limit.selected ++ body.selected
  | .tryCatch body handler finalizer _ =>
    body.selected ++ selectedHandler handler ++ selectedOption finalizer
  | .throw error _ _ => selectedOption error

/-- The targets selected in an expression that may be left out. -/
def selectedOption : Option Expr → List Nat
  | none => []
  | some e => e.selected

/-- The targets selected in a list, item by item. -/
def selectedList : List Expr → List Nat
  | [] => []
  | e :: es => e.selected ++ selectedList es

/-- The targets selected in the bodies of members. -/
def selectedMembers : List ObjectMember → List Nat
  | [] => []
  | ⟨_, _, body, _⟩ :: rest => body.selected ++ selectedMembers rest

/-- The targets selected in the values of bindings. -/
def selectedBindings : List Binding → List Nat
  | [] => []
  | ⟨_, value⟩ :: rest => value.selected ++ selectedBindings rest

/-- The targets selected in the body of a handler. -/
def selectedHandler : Option Handler → List Nat
  | none => []
  | some ⟨_, body⟩ => body.selected

end

/-- How many success nodes of a dispatcher select each of `count` targets. -/
def targetCounts (dispatcher : Expr) (count : Nat) : List Nat :=
  (List.range count).map fun i => dispatcher.selected.count i

/-- The targets that more than one success node selects. -/
def sharedTargets (dispatcher : Expr) (count : Nat) : List Nat :=
  (List.range count).filter fun i => 1 < dispatcher.selected.count i

end TypedLowering.Ir.Expr
