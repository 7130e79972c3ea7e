import TypedLowering.JavaScript.Lower.Declaration
import TypedLowering.Proofs.Lowering.Below

/-!
# More depth changes no result

Where the parts of nodes are lowered to more depth, the nodes are lowered the same way, only more of
them (`Parts.Deepens`, `rules_deepens`). With the same depth on both sides this says that lowering
only grows the state.
-/

namespace TypedLowering.JavaScript

open Lower (Below)

/-- Whatever the parts are lowered to, the other ones lower them to, and the state only grows. -/
structure Parts.Deepens (r r' : Parts) : Prop where
  expr : ∀ ctx e, Below (r.expr ctx e) (r'.expr ctx e)
  stmts : ∀ ctx strategy e, Below (r.stmts ctx strategy e) (r'.stmts ctx strategy e)

/-! ## Parts -/

/-- Asking for a helper only grows the state. -/
theorem below_helper (ctx : Context) (selector : String) :
    Below (helper ctx selector) (helper ctx selector) :=
  .importMember _ _

/-- Naming a class only grows the state. -/
theorem below_className (ctx : Context) (entity : String) :
    Below (className ctx entity) (className ctx entity) :=
  .ofOption _ _

namespace Parts.Deepens

variable {r r' : Parts} (h : r.Deepens r')
include h

/-- More depth does not change what expressions in a row are lowered to. -/
theorem exprs (ctx : Context) (es : List Ir.Expr) : Below (r.exprs ctx es) (r'.exprs ctx es) := by
  induction es with
  | nil => exact .pure _
  | cons e es ih => exact .bind (h.expr _ _) fun _ => .bind ih fun _ => .pure _

/-- More depth does not change how a value is delivered. -/
theorem delivered (ctx : Context) (strategy : Strategy Expr) (e : Ir.Expr) :
    Below (r.delivered ctx strategy e) (r'.delivered ctx strategy e) :=
  .bind (h.expr _ _) fun _ => .pure _

/-- More depth does not change what a declaration is lowered to. -/
theorem declare (ctx : Context) (id : Ir.Ident) (value : Ir.Expr) :
    Below (r.declare ctx id value) (r'.declare ctx id value) := by
  refine .ite (h.stmts _ _ _) (.bind (.isStatement _ _ _) fun _ => .ite ?_ ?_)
  · exact .bind (h.stmts _ _ _) fun _ => .pure _
  · exact .bind (h.expr _ _) fun _ => .pure _

/-- More depth does not change what an arrow function that is called at once is lowered to. -/
theorem invoked (ctx : Context) (e : Ir.Expr) : Below (r.invoked ctx e) (r'.invoked ctx e) :=
  .bind (h.stmts _ _ _) fun _ => .pure _

/-- More depth does not change what a closure is lowered to. -/
theorem closure (ctx : Context) (params : List Ir.Ident) (body : Ir.Expr) :
    Below (r.closure ctx params body) (r'.closure ctx params body) :=
  .bind (h.stmts _ _ _) fun _ => .pure _

/-- More depth does not change what a function is lowered to. -/
theorem function (ctx : Context) (name : Option String) (params : List Ir.Ident)
    (body : Ir.Expr) : Below (r.function ctx name params body)
      (r'.function ctx name params body) := by
  unfold Parts.function
  dsimp only
  split
  · refine .bind (.allocateTailCall _ _) fun _ => .bind (.inFunction (h.stmts _ _ _)) fun _ => ?_
    exact .ite (.pure _) (.pure _)
  · exact .bind (h.stmts _ _ _) fun _ => .pure _

/-- More depth does not change what a local function is lowered to. -/
theorem localFunction (ctx : Context) (id : Ir.Ident) (params : List Ir.Ident) (body : Ir.Expr) :
    Below (r.localFunction ctx id params body) (r'.localFunction ctx id params body) :=
  .bind (h.function _ _ _ _) fun _ => .pure _

/-! ## Expressions -/

/-- More depth does not change what a property list is lowered to. -/
theorem properties (ctx : Context) (keys : List String) (values : List Ir.Expr) :
    Below (r.properties ctx keys values) (r'.properties ctx keys values) := by
  induction keys generalizing values with
  | nil => exact .pure _
  | cons key keys ih =>
    cases values with
    | nil => exact .pure _
    | cons value values => exact .bind (h.expr _ _) fun _ => .bind (ih _) fun _ => .pure _

/-- More depth does not change what an array, a tuple, a record or a case of a union is lowered
to. -/
theorem aggregate (ctx : Context) (kind : Ir.Aggregate) (values : List Ir.Expr) :
    Below (r.aggregate ctx kind values) (r'.aggregate ctx kind values) := by
  cases kind with
  | array | tuple => exact .bind (h.exprs _ _) fun _ => .pure _
  | record =>
    exact .bind (below_className _ _) fun _ => .bind (h.exprs _ _) fun _ => .pure _
  | anonymous => exact .bind (h.properties _ _ _) fun _ => .pure _
  | union => exact .bind (h.exprs _ _) fun _ => .bind (below_className _ _) fun _ => .pure _

/-- More depth does not change what a member of an object is lowered to. -/
theorem objectMember (ctx : Context) (m : Ir.ObjectMember) :
    Below (r.objectMember ctx m) (r'.objectMember ctx m) := by
  unfold Parts.objectMember
  cases m.kind with
  | value => exact .bind (h.expr _ _) fun _ => .pure _
  | method | getter | setter => exact .bind (h.function _ _ _ _) fun _ => .pure _

/-- More depth does not change what the members of an object are lowered to. -/
theorem objectMembers (ctx : Context) (ms : List Ir.ObjectMember) :
    Below (r.objectMembers ctx ms) (r'.objectMembers ctx ms) := by
  induction ms with
  | nil => exact .pure _
  | cons m ms ih => exact .bind (h.objectMember _ _) fun _ => .bind ih fun _ => .pure _

/-- More depth does not change what a call is lowered to. -/
theorem call (ctx : Context) (callee : Ir.Expr) (receiver : Option Ir.Expr) (args : List Ir.Expr)
    (isNew : Bool) : Below (r.call ctx callee receiver args isNew)
      (r'.call ctx callee receiver args isNew) :=
  .bind (h.expr _ _) fun _ => .bind (h.exprs _ _) fun _ => .pure _

/-- More depth does not change what an application to curried arguments is lowered to. -/
theorem applied (ctx : Context) (f : Expr) (args : List Ir.Expr) :
    Below (r.applied ctx f args) (r'.applied ctx f args) := by
  induction args generalizing f with
  | nil => exact .pure _
  | cons arg args ih => exact .bind (h.expr _ _) fun _ => ih _

/-- More depth does not change what a binary operation is lowered to. -/
theorem binary (ctx : Context) (op : Ir.BinaryOp) (left right : Ir.Expr) (ty : Ir.Ty) :
    Below (r.binary ctx op left right ty) (r'.binary ctx op left right ty) := by
  refine .bind (h.expr _ _) fun _ => .bind (h.expr _ _) fun _ => ?_
  cases op with
  | equal | notEqual =>
    exact .ite (.pure _) (.bind (below_helper _ _) fun _ => .pure _)
  | _ => exact .pure _

/-- More depth does not change what the place that an assignment writes to is lowered to. -/
theorem place (ctx : Context) (target : Ir.Expr) (field : Option String) :
    Below (r.place ctx target field) (r'.place ctx target field) :=
  .bind (h.expr _ _) fun _ => .pure _

/-- More depth does not change what the element that an assignment writes to is lowered to. -/
theorem element (ctx : Context) (target index : Ir.Expr) :
    Below (r.element ctx target index) (r'.element ctx target index) :=
  .bind (h.expr _ _) fun _ => .bind (h.expr _ _) fun _ => .pure _

omit h in

/-- Making a test only grows the state. -/
theorem below_test (ctx : Context) (value : Expr) (kind : Ir.TestKind)
    (loc : Option Ir.Location) : Below (test ctx value kind loc) (test ctx value kind loc) := by
  cases kind with
  | option | unionCase => exact .pure _
  | type ty =>
    cases ty with
    | declared => exact .bind (below_className _ _) fun _ => .pure _
    | unit | option | param => exact .fail _ _
    | _ => exact .pure _

/-- More depth does not change what a node that is an expression is lowered to. -/
theorem exprCore (ctx : Context) (e : Ir.Expr) : Below (r.exprCore ctx e) (r'.exprCore ctx e) := by
  cases e with
  | literal | ident => exact .pure _
  | option value =>
    cases value with
    | none => exact .pure _
    | some => exact h.expr _ _
  | aggregate => exact h.aggregate _ _ _
  | cast | decisionTree => exact h.expr _ _
  | imported =>
    exact .bind (.resolveImport _ _) fun _ => .bind (.importMember _ _) fun _ => .pure _
  | lambda | delegate => exact h.closure _ _ _
  | object members ty base =>
    refine .bind (h.objectMembers _ _) fun _ => ?_
    cases base with
    | none => exact .pure _
    | some => exact .bind (h.expr _ _) fun _ => .pure _
  | call => exact h.call _ _ _ _ _
  | apply => exact .bind (h.expr _ _) fun _ => h.applied _ _ _
  | unary | get => exact .bind (h.expr _ _) fun _ => .pure _
  | binary => exact h.binary _ _ _ _ _
  | logical => exact .bind (h.expr _ _) fun _ => .bind (h.expr _ _) fun _ => .pure _
  | emit | sequence => exact .bind (h.exprs _ _) fun _ => .pure _
  | getIndex => exact h.element _ _ _
  | set => exact .bind (h.place _ _ _) fun _ => .bind (h.expr _ _) fun _ => .pure _
  | setIndex => exact .bind (h.element _ _ _) fun _ => .bind (h.expr _ _) fun _ => .pure _
  | test => exact .bind (h.expr _ _) fun _ => below_test _ _ _ _
  | ifThenElse =>
    exact .bind (h.expr _ _) fun _ => .bind (h.expr _ _) fun _ =>
      .bind (h.expr _ _) fun _ => .pure _
  | success => exact .bind (.ofOption _ _) fun _ => h.expr _ _
  | curry => exact .bind (below_helper _ _) fun _ => .bind (h.expr _ _) fun _ => .pure _
  | throw | debugger | letIn | letRec | whileLoop | forLoop | tryCatch => exact h.invoked _ _

omit h in

/-- Deciding whether a node needs an arrow function only grows the state. -/
theorem below_isInvoked (ctx : Context) (e : Ir.Expr) :
    Below (isInvoked ctx e) (isInvoked ctx e) := by
  cases e with
  | decisionTree | success => exact .isStatement _ _ _
  | sequence => exact .anyM fun _ => .isStatement _ _ _
  | _ => exact .pure _

omit h in

/-- Expanding a call only grows the state. -/
theorem below_expansion? (ctx : Context) (e : Ir.Expr) :
    Below (expansion? ctx e) (expansion? ctx e) := by
  unfold expansion?
  split
  · exact .expandInline _ _ _
  · exact .pure _

/-- More depth does not change what any node in the place of an expression is lowered to. -/
theorem exprRule (ctx : Context) (e : Ir.Expr) : Below (r.exprRule ctx e) (r'.exprRule ctx e) := by
  refine .bind (below_expansion? _ _) fun expanded => ?_
  cases expanded with
  | some => exact h.expr _ _
  | none =>
    refine .bind (below_isInvoked _ _) fun _ => .ite (h.invoked _ _) ?_
    exact .bind (h.exprCore _ _) fun _ => .pure _

/-! ## Statements -/

/-- More depth does not change what the writes to the slots of a loop are lowered to. -/
theorem slotWrites (ctx : Context) (slots : List (Ir.Ident × String)) (args : List Ir.Expr) :
    Below (r.slotWrites ctx slots args) (r'.slotWrites ctx slots args) := by
  induction slots generalizing args with
  | nil => exact .pure _
  | cons slot slots ih =>
    cases args with
    | nil => exact .pure _
    | cons arg args =>
      refine .bind (h.expr _ _) fun value => .bind (ih _) fun _ => ?_
      split <;> exact .pure _

/-- More depth does not change what a self tail call is lowered to. -/
theorem tailCall (ctx : Context) (t : TailCall) (args : List Ir.Expr) :
    Below (r.tailCall ctx t args) (r'.tailCall ctx t args) :=
  .bind .markLooped fun _ => .bind (h.slotWrites _ _ _) fun _ => .pure _

/-- More depth does not change what a recursive let is lowered to. -/
theorem recursive (ctx : Context) (bs : List Ir.Binding) :
    Below (r.recursive ctx bs) (r'.recursive ctx bs) := by
  induction bs with
  | nil => exact .pure _
  | cons b bs ih =>
    have hrest : ∀ first : List Stmt, Below
        (do let rest ← r.recursive ctx bs; return first ++ rest)
        (do let rest ← r'.recursive ctx bs; return first ++ rest) :=
      fun _ => .bind ih fun _ => .pure _
    unfold Parts.recursive
    dsimp only
    split
    · exact .bind (h.localFunction _ _ _ _) fun _ => hrest _
    · exact .bind (h.localFunction _ _ _ _) fun _ => hrest _
    · exact .bind (h.declare _ _ _) fun _ => hrest _

/-- More depth does not change what a sequence is lowered to. -/
theorem sequence (ctx : Context) (strategy : Strategy Expr) (es : List Ir.Expr) :
    Below (r.sequence ctx strategy es) (r'.sequence ctx strategy es) := by
  induction es with
  | nil => exact .pure _
  | cons e es ih =>
    cases es with
    | nil => exact h.stmts _ _ _
    | cons => exact .bind (h.stmts _ _ _) fun _ => .bind ih fun _ => .pure _

/-- More depth does not change what an assignment is lowered to. -/
theorem assignment (ctx : Context) (place : Expr) (value : Ir.Expr) (loc : Option Ir.Location) :
    Below (r.assignment ctx place value loc) (r'.assignment ctx place value loc) := by
  refine .bind (.isStatement _ _ _) fun _ => .ite (h.stmts _ _ _) ?_
  exact .bind (h.expr _ _) fun _ => .pure _

/-- More depth does not change what a counting loop is lowered to. -/
theorem forLoop (ctx : Context) (id : Ir.Ident) (start limit body : Ir.Expr) (isUp : Bool)
    (loc : Option Ir.Location) : Below (r.forLoop ctx id start limit body isUp loc)
      (r'.forLoop ctx id start limit body isUp loc) := by
  refine .bind (h.expr _ _) fun _ => .bind (h.expr _ _) fun limit => ?_
  dsimp only
  refine .ite (.bind (.pure _) fun _ => .bind (h.stmts _ _ _) fun _ => .pure _) ?_
  exact .bind (.allocateLocal _) fun _ => .bind (.pure _) fun _ =>
    .bind (h.stmts _ _ _) fun _ => .pure _

/-- More depth does not change what a handler is lowered to. -/
theorem handler (ctx : Context) (strategy : Strategy Expr) (hd : Option Ir.Handler) :
    Below (r.handler ctx strategy hd) (r'.handler ctx strategy hd) := by
  cases hd with
  | none => exact .pure _
  | some => exact .bind (.inHandler _ (h.stmts _ _ _)) fun _ => .pure _

/-- More depth does not change what a finalizer is lowered to. -/
theorem finalizer (ctx : Context) (e : Option Ir.Expr) :
    Below (r.finalizer ctx e) (r'.finalizer ctx e) := by
  cases e with
  | none => exact .pure _
  | some => exact .bind (h.stmts _ _ _) fun _ => .pure _

/-- More depth does not change what the cases of targets are lowered to. -/
theorem cases (ctx : Context) (strategy : Strategy Expr) (index : Nat) (ts : List Ir.Target) :
    Below (r.cases ctx strategy index ts) (r'.cases ctx strategy index ts) := by
  induction ts generalizing index with
  | nil => exact .pure _
  | cons t ts ih => exact .bind (h.stmts _ _ _) fun _ => .bind (ih _) fun _ => .pure _

/-- More depth does not change what a decision tree is lowered to. -/
theorem decisionTree (ctx : Context) (strategy : Strategy Expr) (dispatcher : Ir.Expr)
    (targets : List Ir.Target) : Below (r.decisionTree ctx strategy dispatcher targets)
      (r'.decisionTree ctx strategy dispatcher targets) := by
  refine .ite (h.stmts _ _ _) (.bind (.allocateLocal _) fun _ => ?_)
  exact .bind (h.stmts _ _ _) fun _ => .bind (h.cases _ _ _ _) fun _ => .pure _

/-- More depth does not change what declarations of what a target binds are lowered to. -/
theorem bindings (ctx : Context) (ids : List Ir.Ident) (values : List Ir.Expr) :
    Below (r.bindings ctx ids values) (r'.bindings ctx ids values) := by
  induction ids generalizing values with
  | nil => exact .pure _
  | cons id ids ih =>
    cases values with
    | nil => exact .pure _
    | cons => exact .bind (h.declare _ _ _) fun _ => .bind (ih _) fun _ => .pure _

/-- More depth does not change what assignments to what a target binds are lowered to. -/
theorem assignments (ctx : Context) (ids : List Ir.Ident) (values : List Ir.Expr) :
    Below (r.assignments ctx ids values) (r'.assignments ctx ids values) := by
  induction ids generalizing values with
  | nil => exact .pure _
  | cons id ids ih =>
    cases values with
    | nil => exact .pure _
    | cons => exact .bind (h.stmts _ _ _) fun _ => .bind (ih _) fun _ => .pure _

/-- More depth does not change what a success node is lowered to. -/
theorem success (ctx : Context) (strategy : Strategy Expr) (index : Nat)
    (values : List Ir.Expr) : Below (r.success ctx strategy index values)
      (r'.success ctx strategy index values) := by
  refine .bind (.ofOption _ _) fun _ => ?_
  cases strategy with
  | join => exact .bind (h.assignments _ _ _) fun _ => .pure _
  | ret | effect | assign =>
    exact .bind (h.bindings _ _ _) fun _ => .bind (h.stmts _ _ _) fun _ => .pure _

/-- More depth does not change what a conditional is lowered to. -/
theorem conditional (ctx : Context) (strategy : Strategy Expr) (guard thenExpr elseExpr : Ir.Expr)
    (loc : Option Ir.Location) : Below (r.conditional ctx strategy guard thenExpr elseExpr loc)
      (r'.conditional ctx strategy guard thenExpr elseExpr loc) :=
  .bind (h.expr _ _) fun _ => .bind (h.stmts _ _ _) fun _ => .bind (h.stmts _ _ _) fun _ => .pure _

/-- More depth does not change what any node in the place of statements is lowered to. -/
theorem stmtsRule (ctx : Context) (strategy : Strategy Expr) (e : Ir.Expr) :
    Below (r.stmtsRule ctx strategy e) (r'.stmtsRule ctx strategy e) := by
  cases e with
  | cast => exact h.stmts _ _ _
  | call callee receiver args isNew =>
    unfold Parts.stmtsRule
    dsimp only
    split
    · exact h.tailCall _ _ _
    · exact h.delivered _ _ _
  | ifThenElse =>
    exact .bind (.isStatement _ _ _) fun _ =>
      .ite (h.conditional _ _ _ _ _ _) (h.delivered _ _ _)
  | decisionTree => exact h.decisionTree _ _ _ _
  | success => exact h.success _ _ _ _
  | letIn => exact .bind (h.declare _ _ _) fun _ => .bind (h.stmts _ _ _) fun _ => .pure _
  | letRec => exact .bind (h.recursive _ _) fun _ => .bind (h.stmts _ _ _) fun _ => .pure _
  | sequence => exact h.sequence _ _ _
  | set => exact .bind (h.place _ _ _) fun _ => .bind (h.assignment _ _ _ _) fun _ => .pure _
  | setIndex => exact .bind (h.element _ _ _) fun _ => .bind (h.assignment _ _ _ _) fun _ => .pure _
  | whileLoop => exact .bind (h.expr _ _) fun _ => .bind (h.stmts _ _ _) fun _ => .pure _
  | forLoop => exact .bind (h.forLoop _ _ _ _ _ _ _) fun _ => .pure _
  | tryCatch =>
    exact .bind (h.stmts _ _ _) fun _ => .bind (h.handler _ _ _) fun _ =>
      .bind (h.finalizer _ _) fun _ => .pure _
  | throw error =>
    cases error with
    | some => exact .bind (h.expr _ _) fun _ => .pure _
    | none => exact .bind .caught fun _ => .bind (.ofOption _ _) fun _ => .pure _
  | debugger => exact .pure _
  | emit template args isStatement =>
    cases isStatement with
    | true => exact .bind (h.exprs _ _) fun _ => .pure _
    | false => exact h.delivered _ _ _
  | literal | option | aggregate | ident | imported | lambda | delegate | object | apply | unary
  | binary | logical | get | getIndex | test | curry => exact h.delivered _ _ _

end Parts.Deepens

/-! ## The rules -/

/-- The rules to a greater depth give the same results and more. -/
theorem rules_deepens {m n : Nat} (h : m ≤ n) : (rules m).Deepens (rules n) := by
  induction m generalizing n with
  | zero => exact ⟨fun _ _ => .fail _ _, fun _ _ _ => .fail _ _⟩
  | succ m ih =>
    cases n with
    | zero => exact absurd h (Nat.not_succ_le_zero m)
    | succ n =>
      have hle := ih (Nat.le_of_succ_le_succ h)
      exact ⟨hle.exprRule, hle.stmtsRule⟩

end TypedLowering.JavaScript
