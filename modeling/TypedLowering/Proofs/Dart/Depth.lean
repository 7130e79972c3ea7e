import TypedLowering.Dart.Lower.Declaration
import TypedLowering.Proofs.Lowering.Below

/-!
# More depth changes no result

Where the parts of nodes are lowered to more depth, the nodes are lowered the same way, only more of
them (`Parts.Deepens`, `rules_deepens`). With the same depth on both sides this says that lowering
only grows the state.
-/

namespace TypedLowering.Dart

open Lower (Below)

/-- Whatever the parts are lowered to, the other ones lower them to, and the state only grows. -/
structure Parts.Deepens (r r' : Parts) : Prop where
  expr : ∀ ctx hoists e, Below (r.expr ctx hoists e) (r'.expr ctx hoists e)
  stmts : ∀ ctx strategy e, Below (r.stmts ctx strategy e) (r'.stmts ctx strategy e)

/-! ## Types and names -/

/-- Asking for the prefix of a runtime library only grows the state. -/
theorem below_runtimePrefix (file : SourceFile) (library : String) :
    Below (runtimePrefix file library) (runtimePrefix file library) :=
  .importWhole _

mutual

/-- Lowering a type only grows the state. -/
theorem below_lowerType (file : SourceFile) (ty : Ir.Ty) :
    Below (lowerType file ty) (lowerType file ty) := by
  cases ty with
  | any | unit | boolean | char | string | regex | number | param =>
    unfold lowerType
    exact .pure _
  | option item | array item | list item =>
    unfold lowerType
    exact .bind (below_lowerType file item) fun _ => .pure _
  | tuple items =>
    unfold lowerType
    exact .ite (.fail _ _) (.bind (below_lowerTypes file items) fun _ =>
      .bind (below_runtimePrefix _ _) fun _ => .pure _)
  | lambda arg ret =>
    unfold lowerType
    refine .ite (.bind (.pure _) fun _ => .bind (below_lowerType file ret) fun _ => .pure _) ?_
    exact .bind (below_lowerType file arg) fun _ => .bind (.pure _) fun _ =>
      .bind (below_lowerType file ret) fun _ => .pure _
  | delegate args ret =>
    unfold lowerType
    refine .ite (.bind (.pure _) fun _ => .bind (below_lowerType file ret) fun _ => .pure _) ?_
    exact .bind (below_lowerTypes file args) fun _ =>
      .bind (below_lowerType file ret) fun _ => .pure _
  | declared entity generics =>
    unfold lowerType
    exact .bind (.ofOption _ _) fun _ => .bind (below_lowerTypes file generics) fun _ => .pure _

/-- Lowering types only grows the state. -/
theorem below_lowerTypes (file : SourceFile) (tys : List Ir.Ty) :
    Below (lowerTypes file tys) (lowerTypes file tys) := by
  cases tys with
  | nil =>
    unfold lowerTypes
    exact .pure _
  | cons ty tys =>
    unfold lowerTypes
    exact .bind (below_lowerType file ty) fun _ => .bind (below_lowerTypes file tys) fun _ =>
      .pure _

end

/-- Lowering an identifier only grows the state. -/
theorem below_lowerIdent (file : SourceFile) (id : Ir.Ident) :
    Below (lowerIdent file id) (lowerIdent file id) :=
  .bind (below_lowerType _ _) fun _ => .pure _

/-- Lowering identifiers only grows the state. -/
theorem below_lowerIdents (file : SourceFile) (ids : List Ir.Ident) :
    Below (lowerIdents file ids) (lowerIdents file ids) := by
  induction ids with
  | nil => exact .pure _
  | cons id ids ih => exact .bind (below_lowerIdent _ _) fun _ => .bind ih fun _ => .pure _

/-- Allocating a local only grows the state. -/
theorem below_freshLocal (file : SourceFile) (candidate : String) (ty : Ir.Ty) :
    Below (freshLocal file candidate ty) (freshLocal file candidate ty) :=
  .bind (.allocateLocal _) fun _ => .bind (below_lowerType _ _) fun _ => .pure _

/-- Saving operands in locals only grows the state. -/
theorem below_saveOperands (file : SourceFile) (operands : List (Expr × Ir.Ty)) :
    Below (saveOperands file operands) (saveOperands file operands) := by
  induction operands with
  | nil => exact .pure _
  | cons operand operands ih =>
    refine .ite (.bind ih fun _ => .pure _) ?_
    exact .bind (below_freshLocal _ _ _) fun _ => .bind ih fun _ => .pure _

/-- Making the parameters of a loop only grows the state. -/
theorem below_loopParams (file : SourceFile) (slots : List (Ir.Ident × String)) :
    Below (Parts.loopParams file slots) (Parts.loopParams file slots) := by
  induction slots with
  | nil => exact .pure _
  | cons slot slots ih => exact .bind (below_lowerType _ _) fun _ => .bind ih fun _ => .pure _

/-- Writing the slots of a loop only grows the state. -/
theorem below_slotWrites (file : SourceFile) (slots : List (Ir.Ident × String))
    (values : List Expr) :
    Below (Parts.slotWrites file slots values) (Parts.slotWrites file slots values) := by
  induction slots generalizing values with
  | nil => exact .pure _
  | cons slot slots ih =>
    cases values with
    | nil => exact .pure _
    | cons value values =>
      exact .ite (ih _) (.bind (below_lowerType _ _) fun _ => .bind (ih _) fun _ => .pure _)

/-! ## Values -/

/-- Making a binary operation only grows the state. -/
theorem below_binaryValue (file : SourceFile) (op : Ir.BinaryOp) (left right : Expr)
    (ty : Ir.Ty) : Below (binaryValue file op left right ty)
      (binaryValue file op left right ty) := by
  cases op with
  | exponent =>
    exact .bind (.importWhole _) fun _ => .bind (below_lowerType _ _) fun _ => .pure _
  | _ => exact .pure _

/-- Looking a constructor up only grows the state. -/
theorem below_constructorOf (file : SourceFile) (entity : String) :
    Below (constructorOf file entity) (constructorOf file entity) :=
  .bind (.ofOption _ _) fun _ => .pure _

/-- Naming the constructor of a tuple only grows the state. -/
theorem below_tupleConstructor (file : SourceFile) (ty : Ir.Ty) (loc : Option Ir.Location) :
    Below (tupleConstructor file ty loc) (tupleConstructor file ty loc) := by
  refine .bind (below_lowerType _ _) fun _ => ?_
  split
  · exact .pure _
  · exact .fail _ _

/-- Importing a member only grows the state. -/
theorem below_importedValue (file : SourceFile) (ref : Ir.ImportRef) (ty : Ir.Ty)
    (loc : Option Ir.Location) :
    Below (importedValue file ref ty loc) (importedValue file ref ty loc) := by
  refine .ite (.fail _ _) (.bind (.resolveImport _ _) fun _ => ?_)
  exact .bind (.importWhole _) fun _ => .bind (below_lowerType _ _) fun _ => .pure _

/-- Reading from an object only grows the state. -/
theorem below_access (file : SourceFile) (obj : Expr) (kind : Ir.Access) (ty : Ir.Ty) :
    Below (access file obj kind ty) (access file obj kind ty) := by
  cases kind with
  | unionField => exact .bind (below_lowerType _ _) fun _ => .pure _
  | _ => exact .pure _

/-- Making a test only grows the state. -/
theorem below_test (file : SourceFile) (value : Expr) (kind : Ir.TestKind) :
    Below (test file value kind) (test file value kind) := by
  cases kind with
  | type => exact .bind (below_lowerType _ _) fun _ => .pure _
  | option | unionCase => exact .pure _

namespace Parts.Deepens

variable {r r' : Parts} (h : r.Deepens r')
include h

/-! ## Parts -/

/-- More depth does not change how a value is delivered. -/
theorem delivered (ctx : Context) (strategy : Strategy Expr) (e : Ir.Expr) :
    Below (r.delivered ctx strategy e) (r'.delivered ctx strategy e) :=
  .bind (h.expr _ _ _) fun _ => .pure _

/-- More depth does not change how a value is captured. -/
theorem capture (ctx : Context) (hoists : Bool) (e : Ir.Expr) :
    Below (r.capture ctx hoists e) (r'.capture ctx hoists e) := by
  refine .ite (.fail _ _) (.ite (.bind (h.stmts _ _ _) fun _ => .pure _) ?_)
  exact .bind (below_freshLocal _ _ _) fun _ => .bind (h.stmts _ _ _) fun _ => .pure _

/-- More depth does not change what the operands after those that are done are lowered to. -/
theorem operandsAfter (ctx : Context) (hoists : Bool) (done : List (Expr × Ir.Ty))
    (es : List Ir.Expr) : Below (r.operandsAfter ctx hoists done es)
      (r'.operandsAfter ctx hoists done es) := by
  induction es generalizing done with
  | nil => exact .pure _
  | cons e es ih =>
    refine .bind (h.expr _ _ _) fun _ => .ite ?_ ?_
    · exact .bind (.pure _) fun _ => .bind (ih _) fun _ => .pure _
    · exact .bind (below_saveOperands _ _) fun _ => .bind (ih _) fun _ => .pure _

/-- More depth does not change what operands from left to right are lowered to. -/
theorem operands (ctx : Context) (hoists : Bool) (es : List Ir.Expr) :
    Below (r.operands ctx hoists es) (r'.operands ctx hoists es) :=
  h.operandsAfter _ _ _ _

/-- More depth does not change what two operands are lowered to. -/
theorem operandPair (ctx : Context) (hoists : Bool) (left right : Ir.Expr) :
    Below (r.operandPair ctx hoists left right) (r'.operandPair ctx hoists left right) := by
  refine .bind (h.operands _ _ _) fun _ => ?_
  split <;> exact .pure _

/-- More depth does not change what a declaration is lowered to. -/
theorem declare (ctx : Context) (id : Ir.Ident) (value : Ir.Expr) :
    Below (r.declare ctx id value) (r'.declare ctx id value) := by
  refine .ite (h.stmts _ _ _) (.bind (below_lowerIdent _ _) fun _ =>
    .bind (.isStatement _ _ _) fun _ => .ite ?_ ?_)
  · exact .bind (h.stmts _ _ _) fun _ => .pure _
  · exact .bind (h.expr _ _ _) fun _ => .pure _

/-- More depth does not change what a closure is lowered to. -/
theorem closure (ctx : Context) (params : List Ir.Ident) (body : Ir.Expr) :
    Below (r.closure ctx params body) (r'.closure ctx params body) :=
  .bind (below_lowerIdents _ _) fun _ => .bind (h.stmts _ _ _) fun _ =>
    .bind (below_lowerType _ _) fun _ => .pure _

/-- More depth does not change what a function is lowered to. -/
theorem function (ctx : Context) (name : Option String) (params : List Ir.Ident)
    (body : Ir.Expr) : Below (r.function ctx name params body)
      (r'.function ctx name params body) := by
  unfold Parts.function
  dsimp only
  refine .bind (below_lowerType _ _) fun _ => ?_
  split
  · refine .bind (.allocateTailCall _ _) fun _ => .bind (.inFunction (h.stmts _ _ _)) fun _ => ?_
    refine .ite (.bind (below_loopParams _ _) fun _ => .pure _) ?_
    exact .bind (below_lowerIdents _ _) fun _ => .pure _
  · exact .bind (h.stmts _ _ _) fun _ => .bind (below_lowerIdents _ _) fun _ => .pure _

/-- More depth does not change what a local function is lowered to. -/
theorem localFunction (ctx : Context) (id : Ir.Ident) (params : List Ir.Ident) (body : Ir.Expr) :
    Below (r.localFunction ctx id params body) (r'.localFunction ctx id params body) :=
  .bind (h.function _ _ _ _) fun _ => .pure _

/-! ## Expressions -/

/-- More depth does not change what an array, a tuple, a record or a case of a union is lowered
to. -/
theorem aggregate (ctx : Context) (hoists : Bool) (kind : Ir.Aggregate) (values : List Ir.Expr)
    (loc : Option Ir.Location) : Below (r.aggregate ctx hoists kind values loc)
      (r'.aggregate ctx hoists kind values loc) := by
  cases kind with
  | array => exact .bind (h.operands _ _ _) fun _ => .bind (below_lowerType _ _) fun _ => .pure _
  | tuple =>
    exact .bind (below_tupleConstructor _ _ _) fun _ => .bind (h.operands _ _ _) fun _ => .pure _
  | record | union =>
    exact .bind (below_constructorOf _ _) fun _ => .bind (h.operands _ _ _) fun _ => .pure _
  | anonymous => exact .fail _ _

/-- More depth does not change what a call is lowered to. -/
theorem call (ctx : Context) (hoists : Bool) (callee : Ir.Expr) (receiver : Option Ir.Expr)
    (args : List Ir.Expr) : Below (r.call ctx hoists callee receiver args)
      (r'.call ctx hoists callee receiver args) := by
  refine .bind (h.operands _ _ _) fun _ => ?_
  split <;> exact .pure _

/-- More depth does not change what an application to curried arguments is lowered to. -/
theorem applied (ctx : Context) (hoists : Bool) (f : Ir.Expr) (args : List Ir.Expr) :
    Below (r.applied ctx hoists f args) (r'.applied ctx hoists f args) := by
  refine .bind (h.operands _ _ _) fun _ => ?_
  split <;> exact .pure _

/-- More depth does not change what a logical operation is lowered to. -/
theorem logical (ctx : Context) (hoists : Bool) (op : LogicalOp) (left right : Ir.Expr) :
    Below (r.logical ctx hoists op left right) (r'.logical ctx hoists op left right) := by
  refine .bind (h.expr _ _ _) fun _ => .bind (h.expr _ _ _) fun _ => .ite (.pure _) ?_
  exact .bind (below_freshLocal _ _ _) fun _ => .pure _

/-- More depth does not change what a conditional is lowered to. -/
theorem conditional (ctx : Context) (hoists : Bool) (guard thenExpr elseExpr : Ir.Expr)
    (ty : Ir.Ty) : Below (r.conditional ctx hoists guard thenExpr elseExpr ty)
      (r'.conditional ctx hoists guard thenExpr elseExpr ty) := by
  refine .bind (h.expr _ _ _) fun _ => .bind (h.expr _ _ _) fun _ =>
    .bind (h.expr _ _ _) fun _ => ?_
  refine .ite (.pure _) (.ite (.bind (.pure _) fun _ => .pure _) ?_)
  exact .bind (below_freshLocal _ _ _) fun _ => .bind (.pure _) fun _ => .pure _

/-- More depth does not change what a node that is an expression is lowered to. -/
theorem exprCore (ctx : Context) (hoists : Bool) (e : Ir.Expr) :
    Below (r.exprCore ctx hoists e) (r'.exprCore ctx hoists e) := by
  cases e with
  | literal => exact .pure _
  | option value =>
    cases value with
    | none => exact .pure _
    | some => exact h.expr _ _ _
  | aggregate => exact h.aggregate _ _ _ _ _
  | ident => exact .ite (.pure _) (.bind (below_lowerIdent _ _) fun _ => .pure _)
  | cast =>
    exact .bind (h.expr _ _ _) fun _ => .ite (.pure _)
      (.bind (below_lowerType _ _) fun _ => .pure _)
  | imported => exact .bind (below_importedValue _ _ _ _) fun _ => .pure _
  | lambda | delegate => exact .bind (h.closure _ _ _) fun _ => .pure _
  | object => exact .fail _ _
  | call => exact .ite (.fail _ _) (h.call _ _ _ _ _)
  | apply => exact h.applied _ _ _ _
  | unary =>
    refine .bind (h.expr _ _ _) fun _ => ?_
    split <;> exact .pure _
  | binary =>
    exact .bind (h.operandPair _ _ _ _) fun _ => .bind (below_binaryValue _ _ _ _ _) fun _ =>
      .pure _
  | logical => exact h.logical _ _ _ _ _
  | emit => exact .bind (h.operands _ _ _) fun _ => .pure _
  | get => exact .bind (h.expr _ _ _) fun _ => .bind (below_access _ _ _ _) fun _ => .pure _
  | getIndex => exact .bind (h.operandPair _ _ _ _) fun _ => .pure _
  | test => exact .bind (h.expr _ _ _) fun _ => .bind (below_test _ _ _) fun _ => .pure _
  | ifThenElse => exact h.conditional _ _ _ _ _ _
  | decisionTree => exact h.expr _ _ _
  | success => exact .bind (.ofOption _ _) fun _ => h.expr _ _ _
  | curry =>
    exact .bind (h.expr _ _ _) fun _ => .bind (below_runtimePrefix _ _) fun _ => .pure _
  | throw | debugger | set | setIndex | letIn | letRec | sequence | whileLoop | forLoop
  | tryCatch => exact h.capture _ _ _

omit h in

/-- Deciding whether a node is captured only grows the state. -/
theorem below_isCaptured (ctx : Context) (e : Ir.Expr) :
    Below (isCaptured ctx e) (isCaptured ctx e) := by
  cases e with
  | ifThenElse | decisionTree | success => exact .isStatement _ _ _
  | _ => exact .pure _

omit h in

/-- Expanding a call only grows the state. -/
theorem below_expansion? (ctx : Context) (e : Ir.Expr) :
    Below (expansion? ctx e) (expansion? ctx e) := by
  unfold expansion?
  split
  · exact .expandInline _ _ _
  · exact .pure _

/-- More depth does not change what any node in the place of an expression is lowered to. -/
theorem exprRule (ctx : Context) (hoists : Bool) (e : Ir.Expr) :
    Below (r.exprRule ctx hoists e) (r'.exprRule ctx hoists e) := by
  refine .bind (below_expansion? _ _) fun expanded => ?_
  cases expanded with
  | some => exact h.expr _ _ _
  | none =>
    exact .bind (below_isCaptured _ _) fun _ => .ite (h.capture _ _ _) (h.exprCore _ _ _)

/-! ## Statements -/

/-- More depth does not change what nodes as expressions are lowered to. -/
theorem values (ctx : Context) (es : List Ir.Expr) :
    Below (r.values ctx es) (r'.values ctx es) := by
  induction es with
  | nil => exact .pure _
  | cons e es ih => exact .bind (h.expr _ _ _) fun _ => .bind ih fun _ => .pure _

/-- More depth does not change what a self tail call is lowered to. -/
theorem tailCall (ctx : Context) (t : TailCall) (args : List Ir.Expr) :
    Below (r.tailCall ctx t args) (r'.tailCall ctx t args) :=
  .bind .markLooped fun _ => .bind (h.values _ _) fun _ => .bind (below_slotWrites _ _ _) fun _ =>
    .pure _

/-- More depth does not change what a recursive let is lowered to. -/
theorem recursive (ctx : Context) (bs : List Ir.Binding) :
    Below (r.recursive ctx bs) (r'.recursive ctx bs) := by
  induction bs with
  | nil => exact .pure _
  | cons b bs ih =>
    have hrest : ∀ first : List Stmt, Below
        (do let rest ← r.recursive ctx bs; return first ++ rest)
        (do let rest ← r'.recursive ctx bs; return first ++ rest) :=
      fun _ => .bind ih fun _ => .pure _
    unfold Parts.recursive
    dsimp only
    split
    · exact .bind (h.localFunction _ _ _ _) fun _ => hrest _
    · exact .bind (h.localFunction _ _ _ _) fun _ => hrest _
    · exact .bind (h.declare _ _ _) fun _ => hrest _

/-- More depth does not change what a sequence is lowered to. -/
theorem sequence (ctx : Context) (strategy : Strategy Expr) (es : List Ir.Expr) :
    Below (r.sequence ctx strategy es) (r'.sequence ctx strategy es) := by
  induction es with
  | nil => exact .pure _
  | cons e es ih =>
    cases es with
    | nil => exact h.stmts _ _ _
    | cons => exact .bind (h.stmts _ _ _) fun _ => .bind ih fun _ => .pure _

/-- More depth does not change what an assignment is lowered to. -/
theorem assignment (ctx : Context) (place : Expr) (value : Ir.Expr) :
    Below (r.assignment ctx place value) (r'.assignment ctx place value) := by
  refine .bind (.isStatement _ _ _) fun _ => .ite (h.stmts _ _ _) ?_
  exact .bind (h.expr _ _ _) fun _ => .pure _

/-- More depth does not change what a counting loop is lowered to. -/
theorem forLoop (ctx : Context) (id : Ir.Ident) (start limit body : Ir.Expr) (isUp : Bool) :
    Below (r.forLoop ctx id start limit body isUp) (r'.forLoop ctx id start limit body isUp) :=
  .bind (h.expr _ _ _) fun _ => .bind (h.expr _ _ _) fun _ => .bind (h.stmts _ _ _) fun _ =>
    .bind (below_lowerIdent _ _) fun _ => .pure _

/-- More depth does not change what a handler is lowered to. -/
theorem handler (ctx : Context) (strategy : Strategy Expr) (hd : Option Ir.Handler) :
    Below (r.handler ctx strategy hd) (r'.handler ctx strategy hd) := by
  cases hd with
  | none => exact .pure _
  | some => exact .bind (below_lowerIdent _ _) fun _ => .bind (h.stmts _ _ _) fun _ => .pure _

/-- More depth does not change what a finalizer is lowered to. -/
theorem finalizer (ctx : Context) (e : Option Ir.Expr) :
    Below (r.finalizer ctx e) (r'.finalizer ctx e) := by
  cases e with
  | none => exact .pure _
  | some => exact .bind (h.stmts _ _ _) fun _ => .pure _

omit h in

/-- Declaring what targets bind only grows the state. -/
theorem below_targetVariables (ctx : Context) (targets : List Ir.Target) :
    Below (targetVariables ctx targets) (targetVariables ctx targets) :=
  .bind (below_lowerIdents _ _) fun _ => .pure _

/-- More depth does not change what the bodies of targets are lowered to. -/
theorem targetBodies (ctx : Context) (strategy : Strategy Expr) (ts : List Ir.Target) :
    Below (r.targetBodies ctx strategy ts) (r'.targetBodies ctx strategy ts) := by
  induction ts with
  | nil => exact .pure _
  | cons t ts ih => exact .bind (h.stmts _ _ _) fun _ => .bind ih fun _ => .pure _

/-- More depth does not change what a decision tree is lowered to. -/
theorem decisionTree (ctx : Context) (strategy : Strategy Expr) (dispatcher : Ir.Expr)
    (targets : List Ir.Target) : Below (r.decisionTree ctx strategy dispatcher targets)
      (r'.decisionTree ctx strategy dispatcher targets) := by
  refine .ite (h.stmts _ _ _) (.bind (.allocateLocal _) fun _ => ?_)
  exact .bind (below_targetVariables _ _) fun _ => .bind (h.stmts _ _ _) fun _ =>
    .bind (h.targetBodies _ _ _) fun _ => .pure _

/-- More depth does not change what declarations of what a target binds are lowered to. -/
theorem bindings (ctx : Context) (ids : List Ir.Ident) (values : List Ir.Expr) :
    Below (r.bindings ctx ids values) (r'.bindings ctx ids values) := by
  induction ids generalizing values with
  | nil => exact .pure _
  | cons id ids ih =>
    cases values with
    | nil => exact .pure _
    | cons => exact .bind (h.declare _ _ _) fun _ => .bind (ih _) fun _ => .pure _

/-- More depth does not change what assignments to what a target binds are lowered to. -/
theorem assignments (ctx : Context) (ids : List Ir.Ident) (values : List Ir.Expr) :
    Below (r.assignments ctx ids values) (r'.assignments ctx ids values) := by
  induction ids generalizing values with
  | nil => exact .pure _
  | cons id ids ih =>
    cases values with
    | nil => exact .pure _
    | cons =>
      exact .bind (below_lowerIdent _ _) fun _ => .bind (h.stmts _ _ _) fun _ =>
        .bind (ih _) fun _ => .pure _

/-- More depth does not change what a success node is lowered to. -/
theorem success (ctx : Context) (strategy : Strategy Expr) (index : Nat)
    (values : List Ir.Expr) : Below (r.success ctx strategy index values)
      (r'.success ctx strategy index values) := by
  refine .bind (.ofOption _ _) fun _ => ?_
  cases strategy with
  | join => exact .bind (h.assignments _ _ _) fun _ => .pure _
  | ret | effect | assign =>
    exact .bind (h.bindings _ _ _) fun _ => .bind (h.stmts _ _ _) fun _ => .pure _

/-- More depth does not change what a conditional statement is lowered to. -/
theorem conditionalStmts (ctx : Context) (strategy : Strategy Expr)
    (guard thenExpr elseExpr : Ir.Expr) :
    Below (r.conditionalStmts ctx strategy guard thenExpr elseExpr)
      (r'.conditionalStmts ctx strategy guard thenExpr elseExpr) :=
  .bind (h.expr _ _ _) fun _ => .bind (h.stmts _ _ _) fun _ => .bind (h.stmts _ _ _) fun _ =>
    .pure _

omit h in

/-- Deciding whether a cast is dropped only grows the state. -/
theorem below_dropsCast (ctx : Context) (strategy : Strategy Expr) (inner : Ir.Expr) :
    Below (dropsCast ctx strategy inner) (dropsCast ctx strategy inner) :=
  .ite (.pure _) (.isStatement _ _ _)

/-- More depth does not change what any node in the place of statements is lowered to. -/
theorem stmtsRule (ctx : Context) (strategy : Strategy Expr) (e : Ir.Expr) :
    Below (r.stmtsRule ctx strategy e) (r'.stmtsRule ctx strategy e) := by
  cases e with
  | cast =>
    exact .bind (below_dropsCast _ _ _) fun _ => .ite (h.stmts _ _ _) (h.delivered _ _ _)
  | call callee receiver args isNew =>
    unfold Parts.stmtsRule
    dsimp only
    split
    · exact h.tailCall _ _ _
    · exact h.delivered _ _ _
  | ifThenElse =>
    exact .bind (.isStatement _ _ _) fun _ =>
      .ite (h.conditionalStmts _ _ _ _ _) (h.delivered _ _ _)
  | decisionTree => exact h.decisionTree _ _ _ _
  | success => exact h.success _ _ _ _
  | letIn => exact .bind (h.declare _ _ _) fun _ => .bind (h.stmts _ _ _) fun _ => .pure _
  | letRec => exact .bind (h.recursive _ _) fun _ => .bind (h.stmts _ _ _) fun _ => .pure _
  | sequence => exact h.sequence _ _ _
  | set => exact .bind (h.expr _ _ _) fun _ => .bind (h.assignment _ _ _) fun _ => .pure _
  | setIndex =>
    exact .bind (h.expr _ _ _) fun _ => .bind (h.expr _ _ _) fun _ =>
      .bind (h.assignment _ _ _) fun _ => .pure _
  | whileLoop => exact .bind (h.expr _ _ _) fun _ => .bind (h.stmts _ _ _) fun _ => .pure _
  | forLoop => exact .bind (h.forLoop _ _ _ _ _ _) fun _ => .pure _
  | tryCatch =>
    exact .bind (h.stmts _ _ _) fun _ => .bind (h.handler _ _ _) fun _ =>
      .bind (h.finalizer _ _) fun _ => .pure _
  | throw error =>
    cases error with
    | some => exact .bind (h.expr _ _ _) fun _ => .pure _
    | none => exact .pure _
  | debugger => exact .bind (.importWhole _) fun _ => .pure _
  | emit template args isStatement =>
    cases isStatement with
    | true => exact .bind (h.operands _ _ _) fun _ => .pure _
    | false => exact h.delivered _ _ _
  | literal | option | aggregate | ident | imported | lambda | delegate | object | apply | unary
  | binary | logical | get | getIndex | test | curry => exact h.delivered _ _ _

end Parts.Deepens

/-! ## The rules -/

/-- The rules to a greater depth give the same results and more. -/
theorem rules_deepens {m n : Nat} (h : m ≤ n) : (rules m).Deepens (rules n) := by
  induction m generalizing n with
  | zero => exact ⟨fun _ _ _ => .fail _ _, fun _ _ _ => .fail _ _⟩
  | succ m ih =>
    cases n with
    | zero => exact absurd h (Nat.not_succ_le_zero m)
    | succ n =>
      have hle := ih (Nat.le_of_succ_le_succ h)
      exact ⟨hle.exprRule, hle.stmtsRule⟩

end TypedLowering.Dart
