import TypedLowering.Ir.Shape
import TypedLowering.Ir.Traversal
import TypedLowering.Names.Scopes
import TypedLowering.Session.Basic

/-!
# Strategies and contexts

How the value of the node being lowered is used, and what surrounds the node. This includes the loop
that the self calls of a function may become jumps of, which begins with what becomes of parameters.
-/

/-!
## Parameters and arguments without a value

A function whose only parameter has the unit type takes no parameter in the target, and neither does
a method that has only a unit parameter beside its receiver. At a call, a unit constant is dropped
in the same places; an argument of unit type that is not a constant is kept for its effects.
-/

namespace TypedLowering

open Ir (Expr Ident Target)

/-- The parameters without a lone unit parameter. -/
def discardUnitParam : List Ident → List Ident
  | [only] => if only.ty.isUnit then [] else [only]
  | [receiver, unit] =>
    if receiver.isThis && unit.ty.isUnit then [receiver] else [receiver, unit]
  | params => params

/-- The parameters that a function declares in the target: the receiver becomes `this`. -/
def declaredParams (params : List Ident) : List Ident :=
  (discardUnitParam params).filter (!·.isThis)

/-- The arguments without a lone unit constant. -/
def discardUnitArg : List Expr → List Expr
  | [only] => if only.isUnitConstant then [] else [only]
  | [receiver, unit] =>
    if receiver.isReceiver && unit.isUnitConstant then [receiver] else [receiver, unit]
  | args => args

/-- The number of values that a call passes, its receiver included. -/
def argCount (receiver : Option Expr) (args : List Expr) : Nat :=
  args.length + receiver.toList.length

/-!
## What becomes of a value

A strategy says how the value of the node being lowered is used. It is generic in the expressions of
the target language.
-/

/-- What becomes of the value of the node being lowered. -/
inductive Strategy (ε : Type) where
  /-- Return the value from the enclosing function. -/
  | ret
  /-- Evaluate for the effects alone. -/
  | effect
  /-- Store the value in a place. -/
  | assign (place : ε)
  /-- Select a target of a decision tree: its index goes into the join variable. -/
  | join (name : String)
  deriving Inhabited

namespace Strategy

variable {ε : Type}

/-- Whether the node stands in tail position of the enclosing function. -/
def isTail : Strategy ε → Bool
  | .ret | .effect => true
  | .assign _ | .join _ => false

/-- The value is not wanted. -/
def isEffect : Strategy ε → Bool
  | .effect => true
  | _ => false

/-- The join variable that takes the number of a target. -/
def joinVariable? : Strategy ε → Option String
  | .join name => some name
  | _ => none

/-- The strategy of a function body or of an immediately invoked function, by the type of the value:
a unit value is not returned. -/
def ofType (isUnit : Bool) : Strategy ε :=
  if isUnit then .effect else .ret

end Strategy

/-!
## Self tail calls

A named function whose self calls in tail position can become iterations of a loop. Each parameter
that takes part in the loop has a slot, a mutable binding named after it. An iteration begins by
copying the slots into the parameters, so a self call only has to write the new values into the
slots and jump back: the values are computed from the copies, all at once.
-/

/-- The loop that a function may become: its label, which is the name of the function, and its
parameters with their slots. -/
structure TailCall where
  label : String
  params : List Ident
  slots : List String
  deriving Inhabited

namespace TailCall

/-- Allocates a slot for each parameter. -/
def allocateSlots (names : Scopes) : List Ident → List String × Scopes
  | [] => ([], names)
  | p :: ps =>
    let (slot, names) := names.allocateLocal (p.name ++ "_mut")
    let (slots, names) := allocateSlots names ps
    (slot :: slots, names)

/-- The loop of a function with that name and those parameters. -/
def allocate (names : Scopes) (label : String) (params : List Ident) : TailCall × Scopes :=
  let params := declaredParams params
  let (slots, names) := allocateSlots names params
  (⟨label, params, slots⟩, names)

/-- The parameters with their slots. -/
def bindings (t : TailCall) : List (Ident × String) :=
  t.params.zip t.slots

/-- Whether a callee is spelled like the function itself. -/
def isSelf (t : TailCall) (callee : Expr) : Bool :=
  match callee.uncast with
  | .ident id => id.name == t.label
  | _ => false

/-- Whether a call is a self tail call: in tail position, without a receiver, no construction, of
the function's own name, and with one argument for each slot. -/
def recognizes {ε : Type} (t : TailCall) (strategy : Strategy ε) (callee : Expr)
    (receiver : Option Expr) (args : List Expr) (isNew : Bool) : Bool :=
  strategy.isTail && receiver.isNone && !isNew && t.isSelf callee
    && (discardUnitArg args).length == t.slots.length

end TailCall

/-!
## Contexts

What surrounds the node being lowered: the file, the targets of the innermost decision tree, the
identifiers that an enclosing scope declares already, and the function whose self calls may become
jumps. A context never changes; going into a subtree derives a new one.
-/

/-- What surrounds the node being lowered. -/
structure Context where
  file : SourceFile
  targets : List Target
  /-- Whether an enclosing scope declares the identifiers that a target binds. -/
  hoists : List Ident → Bool
  tailCall : Option TailCall

namespace Context

/-- The context of a declaration of `file`. -/
def ofFile (file : SourceFile) : Context :=
  { file, targets := [], hoists := fun _ => false, tailCall := none }

/-- The context inside a decision tree with these targets. -/
def withTargets (ctx : Context) (targets : List Target) : Context :=
  { ctx with targets }

/-- The context in which self calls may become jumps of that loop. -/
def withTailCall (ctx : Context) (tailCall : TailCall) : Context :=
  { ctx with tailCall := some tailCall }

/-- The context in which no self call becomes a jump. -/
def withoutTailCall (ctx : Context) : Context :=
  { ctx with tailCall := none }

/-- The loop that a call in this context jumps to. -/
def selfTailCall? {ε : Type} (ctx : Context) (strategy : Strategy ε) (callee : Expr)
    (receiver : Option Expr) (args : List Expr) (isNew : Bool) : Option TailCall :=
  ctx.tailCall.filter fun t => t.recognizes strategy callee receiver args isNew

/-- The nodes that lowering `e` can come to: its own, those of the targets in reach and those of the
inline functions. -/
def nodes (ctx : Context) (e : Expr) : Nat :=
  let bodies := ctx.targets.map (·.body) ++ ctx.file.settings.project.inlines.map (·.2.body)
  ((e :: bodies).flatMap Expr.subterms).length

/-- A bound for the depth of lowering `e`. A path that does not come back to a node with the same
targets in reach passes each node at most once for every decision tree. -/
def depth (ctx : Context) (e : Expr) : Nat :=
  let bound := ctx.nodes e + 1
  8 * (bound * bound)

end Context

end TypedLowering
