import TypedLowering.Ir.Shape

/-!
# Renaming free identifiers

A renaming is a list of pairs that all apply at once; of two pairs with the same old name the first
counts. Where an expression binds a name, the pairs for that name stop applying in its scope.
-/

namespace TypedLowering.Ir

/-- Old names with their new names. -/
abbrev Renaming := List (String × String)

namespace Renaming

/-- The pairs that still apply under binders. -/
def under (r : Renaming) (bound : List Ident) : Renaming :=
  r.filter fun (old, _) => !bound.any (·.name == old)

/-- What a name becomes. -/
def apply (r : Renaming) (name : String) : String :=
  match r.find? (·.1 == name) with
  | some (_, new) => new
  | none => name

end Renaming

namespace Expr

mutual

/-- The expression with its free identifiers renamed. -/
def rename (r : Renaming) : Expr → Expr
  | .literal value loc => .literal value loc
  | .option value ty loc => .option (renameOption r value) ty loc
  | .aggregate kind values loc => .aggregate kind (renameList r values) loc
  | .ident id => .ident { id with name := r.apply id.name }
  | .cast expr ty => .cast (expr.rename r) ty
  | .imported ref ty loc => .imported ref ty loc
  | .lambda arg body name => .lambda arg (body.rename (r.under [arg])) name
  | .delegate args body name => .delegate args (body.rename (r.under args)) name
  | .object members ty base => .object (renameMembers r members) ty (renameOption r base)
  | .call callee receiver args isNew ty loc =>
    .call (callee.rename r) (renameOption r receiver) (renameList r args) isNew ty loc
  | .apply applied args ty loc => .apply (applied.rename r) (renameList r args) ty loc
  | .unary op operand ty loc => .unary op (operand.rename r) ty loc
  | .binary op left right ty loc => .binary op (left.rename r) (right.rename r) ty loc
  | .logical op left right ty loc => .logical op (left.rename r) (right.rename r) ty loc
  | .emit template args isStatement ty loc =>
    .emit template (renameList r args) isStatement ty loc
  | .get obj access ty loc => .get (obj.rename r) access ty loc
  | .getIndex obj index ty loc => .getIndex (obj.rename r) (index.rename r) ty loc
  | .set target field value loc => .set (target.rename r) field (value.rename r) loc
  | .setIndex target index value loc =>
    .setIndex (target.rename r) (index.rename r) (value.rename r) loc
  | .test expr kind loc => .test (expr.rename r) kind loc
  | .ifThenElse guard thenExpr elseExpr loc =>
    .ifThenElse (guard.rename r) (thenExpr.rename r) (elseExpr.rename r) loc
  | .decisionTree dispatcher targets =>
    .decisionTree (dispatcher.rename r) (renameTargets r targets)
  | .success index values ty => .success index (renameList r values) ty
  | .letIn id value body => .letIn id (value.rename r) (body.rename (r.under [id]))
  | .letRec bindings body =>
    let inner := r.under (bindings.map (·.ident))
    .letRec (renameBindings inner bindings) (body.rename inner)
  | .sequence exprs => .sequence (renameList r exprs)
  | .whileLoop guard body loc => .whileLoop (guard.rename r) (body.rename r) loc
  | .forLoop id start limit body isUp loc =>
    .forLoop id (start.rename r) (limit.rename r) (body.rename (r.under [id])) isUp loc
  | .tryCatch body handler finalizer loc =>
    .tryCatch (body.rename r) (renameHandler r handler) (renameOption r finalizer) loc
  | .throw error ty loc => .throw (renameOption r error) ty loc
  | .debugger loc => .debugger loc
  | .curry expr arity loc => .curry (expr.rename r) arity loc

/-- The renaming of an expression that may be left out. -/
def renameOption (r : Renaming) : Option Expr → Option Expr
  | none => none
  | some e => some (e.rename r)

/-- The renaming of a list, item by item. -/
def renameList (r : Renaming) : List Expr → List Expr
  | [] => []
  | e :: es => e.rename r :: renameList r es

/-- The parameters of a member do not stop the renaming in its body. -/
def renameMembers (r : Renaming) : List ObjectMember → List ObjectMember
  | [] => []
  | ⟨name, args, body, kind⟩ :: rest =>
    ⟨name, args, body.rename r, kind⟩ :: renameMembers r rest

/-- The renaming of the bodies of targets, each under the names it binds. -/
def renameTargets (r : Renaming) : List Target → List Target
  | [] => []
  | ⟨bound, body⟩ :: rest => ⟨bound, body.rename (r.under bound)⟩ :: renameTargets r rest

/-- The renaming of the values of bindings. -/
def renameBindings (r : Renaming) : List Binding → List Binding
  | [] => []
  | ⟨id, value⟩ :: rest => ⟨id, value.rename r⟩ :: renameBindings r rest

/-- The renaming of the body of a handler, under its parameter. -/
def renameHandler (r : Renaming) : Option Handler → Option Handler
  | none => none
  | some ⟨param, body⟩ => some ⟨param, body.rename (r.under [param])⟩

end

end Expr

end TypedLowering.Ir
