import TypedLowering.Ir.Shape

/-!
# Walking through expressions

`children` lists the direct sub-expressions in evaluation order and `subterms` all of them, with the
expression itself first. Size and occurrence of a name are read off `subterms`.
-/

namespace TypedLowering.Ir

namespace Expr

/-- The direct sub-expressions, in evaluation order. -/
def children : Expr → List Expr
  | .literal .. | .ident _ | .imported .. | .debugger _ => []
  | .option value _ _ => value.toList
  | .aggregate _ values _ => values
  | .cast expr _ | .test expr _ _ | .curry expr _ _ => [expr]
  | .lambda _ body _ | .delegate _ body _ => [body]
  | .object members _ base => members.map (·.body) ++ base.toList
  | .call callee receiver args _ _ _ => callee :: (receiver.toList ++ args)
  | .apply applied args _ _ => applied :: args
  | .unary _ operand _ _ => [operand]
  | .binary _ left right _ _ | .logical _ left right _ _ => [left, right]
  | .emit _ args _ _ _ => args
  | .get obj _ _ _ => [obj]
  | .getIndex obj index _ _ => [obj, index]
  | .set target _ value _ => [target, value]
  | .setIndex target index value _ => [target, index, value]
  | .ifThenElse guard thenExpr elseExpr _ => [guard, thenExpr, elseExpr]
  | .decisionTree dispatcher targets => dispatcher :: targets.map (·.body)
  | .success _ values _ => values
  | .letIn _ value body => [value, body]
  | .letRec bindings body => bindings.map (·.value) ++ [body]
  | .sequence exprs => exprs
  | .whileLoop guard body _ => [guard, body]
  | .forLoop _ start limit body _ _ => [start, limit, body]
  | .tryCatch body handler finalizer _ =>
    body :: ((handler.map (·.body)).toList ++ finalizer.toList)
  | .throw error _ _ => error.toList

mutual

/-- The expression and everything inside it, parents before children. -/
def subterms (e : Expr) : List Expr :=
  e :: match e with
    | .literal .. | .ident _ | .imported .. | .debugger _ => []
    | .option value _ _ => subtermsOption value
    | .aggregate _ values _ => subtermsList values
    | .cast expr _ | .test expr _ _ | .curry expr _ _ => expr.subterms
    | .lambda _ body _ | .delegate _ body _ => body.subterms
    | .object members _ base => subtermsMembers members ++ subtermsOption base
    | .call callee receiver args _ _ _ =>
      callee.subterms ++ subtermsOption receiver ++ subtermsList args
    | .apply applied args _ _ => applied.subterms ++ subtermsList args
    | .unary _ operand _ _ => operand.subterms
    | .binary _ left right _ _ | .logical _ left right _ _ => left.subterms ++ right.subterms
    | .emit _ args _ _ _ => subtermsList args
    | .get obj _ _ _ => obj.subterms
    | .getIndex obj index _ _ => obj.subterms ++ index.subterms
    | .set target _ value _ => target.subterms ++ value.subterms
    | .setIndex target index value _ => target.subterms ++ index.subterms ++ value.subterms
    | .ifThenElse guard thenExpr elseExpr _ =>
      guard.subterms ++ thenExpr.subterms ++ elseExpr.subterms
    | .decisionTree dispatcher targets => dispatcher.subterms ++ subtermsTargets targets
    | .success _ values _ => subtermsList values
    | .letIn _ value body => value.subterms ++ body.subterms
    | .letRec bindings body => subtermsBindings bindings ++ body.subterms
    | .sequence exprs => subtermsList exprs
    | .whileLoop guard body _ => guard.subterms ++ body.subterms
    | .forLoop _ start limit body _ _ => start.subterms ++ limit.subterms ++ body.subterms
    | .tryCatch body handler finalizer _ =>
      body.subterms ++ subtermsHandler handler ++ subtermsOption finalizer
    | .throw error _ _ => subtermsOption error

/-- The sub-expressions of an expression that may be left out. -/
def subtermsOption : Option Expr → List Expr
  | none => []
  | some e => e.subterms

/-- The sub-expressions of a list, item by item. -/
def subtermsList : List Expr → List Expr
  | [] => []
  | e :: es => e.subterms ++ subtermsList es

/-- The sub-expressions of the bodies of members. -/
def subtermsMembers : List ObjectMember → List Expr
  | [] => []
  | ⟨_, _, body, _⟩ :: rest => body.subterms ++ subtermsMembers rest

/-- The sub-expressions of the bodies of targets. -/
def subtermsTargets : List Target → List Expr
  | [] => []
  | ⟨_, body⟩ :: rest => body.subterms ++ subtermsTargets rest

/-- The sub-expressions of the values of bindings. -/
def subtermsBindings : List Binding → List Expr
  | [] => []
  | ⟨_, value⟩ :: rest => value.subterms ++ subtermsBindings rest

/-- The sub-expressions of the body of a handler. -/
def subtermsHandler : Option Handler → List Expr
  | none => []
  | some ⟨_, body⟩ => body.subterms

end

/-- The number of nodes. -/
def size (e : Expr) : Nat := e.subterms.length

/-- Whether the expression is an identifier of that name. -/
def isIdent (name : String) : Expr → Bool
  | .ident id => id.name == name
  | _ => false

/-- Whether the name occurs as an identifier anywhere in the expression. -/
def mentions (name : String) (e : Expr) : Bool :=
  e.subterms.any (isIdent name)

end Expr

end TypedLowering.Ir
