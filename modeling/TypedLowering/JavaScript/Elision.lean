import TypedLowering.JavaScript.Tree

/-!
# What is left out

Statements that are not printed, and functions that are printed as another function.
-/

/-!
## Dead statements

A statement that only evaluates a constant, an identifier, an empty object, or `void` of one of
these has no effect and is not printed. Everything else is kept, calls in particular.
-/

namespace TypedLowering.JavaScript

/-- Whether evaluating the expression for its effects alone can be left out. -/
def Expr.isDead : Expr → Bool
  | ⟨_, .literal _⟩ | ⟨_, .ident _⟩ | ⟨_, .object []⟩ => true
  | ⟨_, .unary .void operand⟩ => operand.isDead
  | _ => false

/-- The statement has no effect and is not printed. -/
def Stmt.isDead (s : Stmt) : Bool :=
  match s.form with
  | .expr e => e.isDead
  | _ => false

/-- The statements that are printed. -/
def live (stmts : List Stmt) : List Stmt :=
  stmts.filter (!·.isDead)

/-!
## Functions that only forward

A function whose whole body passes its own parameters, in order, to another function is that other
function. The callee has to be an identifier that is neither the function's own name nor one of its
parameters: then it is bound outside, and to name it has no effect.
-/

/-- Whether an argument passes a parameter on. A rest parameter has to be spread. -/
def Param.isForwardedBy (param : Param) (arg : Expr) : Bool :=
  match param.isRest, arg.form with
  | false, .ident name => name == param.name
  | true, .spread inner =>
    match inner.form with
    | .ident name => name == param.name
    | _ => false
  | _, _ => false

/-- The value that is all a function body computes. -/
def FuncBody.soleValue? : FuncBody → Option Expr
  | .value e => some e
  | .block [⟨_, .ret (some e)⟩] => some e
  | .block _ => none

/-- The callee that the function passes exactly its own parameters to. -/
def Func.forwardedCallee (f : Func) : Option String := do
  let .call callee args := (← f.body.soleValue?).form | none
  let .ident name := callee.form | none
  guard (f.name ≠ some name ∧ (f.params.all (·.name != name)) ∧ args.length = f.params.length)
  guard ((f.params.zip args).all fun (param, arg) => param.isForwardedBy arg)
  return name

end TypedLowering.JavaScript
