import TypedLowering.JavaScript.Lower.Declaration
import TypedLowering.Proofs.JavaScript.Relocation
import TypedLowering.Proofs.Lowering.Follows

/-!
# Lowering relocated code to JavaScript

Where parts with their locations changed are lowered to the code of the parts with its locations
changed, so are the nodes (`Parts.Follows`), and so are all nodes under the rules (`rules_follow`)
and whole files (`lowerFile_follows`).
-/

namespace TypedLowering.JavaScript

variable {ρ : Relocation}

/-- Whatever the locations of a part become, those of its code become. -/
structure Parts.Follows (ρ : Relocation) (r : Parts) : Prop where
  expr : ∀ {ctx ctx'}, ctx.Follows ρ ctx' → ∀ e,
    Lower.Follows ρ (Expr.relocate ρ) (r.expr ctx e) (r.expr ctx' (e.relocate ρ))
  stmts : ∀ {ctx ctx'}, ctx.Follows ρ ctx' → ∀ {strategy strategy'},
    strategy' = relocateStrategy ρ strategy → ∀ e,
      Lower.Follows ρ (relocateStmts ρ) (r.stmts ctx strategy e)
        (r.stmts ctx' strategy' (e.relocate ρ))

/-! ## Parts -/

section
variable {ctx ctx' : Context} (hc : ctx.Follows ρ ctx')
include hc

/-- The name of a helper is the same in a relocated file. -/
theorem follows_helper (selector : String) :
    Lower.Follows ρ (fun name => name) (helper ctx selector) (helper ctx' selector) := by
  rw [helper, helper, hc.file]
  exact .importMember _ _

/-- The name of a class is the same in a relocated file. -/
theorem follows_className (entity : String) :
    Lower.Follows ρ (fun name => name) (className ctx entity) (className ctx' entity) := by
  rw [className, className, hc.file]
  exact .ofOption rfl (Option.map_id_apply).symm

end

namespace Parts.Follows

/-- The body of an arrow function is one expression for relocated statements alike. -/
theorem relocate_arrowBody (stmts : List Stmt) :
    arrowBody (relocateStmts ρ stmts) = (arrowBody stmts).relocate ρ := by
  match stmts with
  | [] => rfl
  | ⟨_, form⟩ :: rest =>
    cases form with
    | ret value => cases value <;> cases rest <;> rfl
    | _ => cases rest <;> rfl

/-- The copies of slots have no locations. -/
theorem relocate_copies (slots : List (Ir.Ident × String)) :
    relocateStmts ρ (slots.map fun (p, slot) => .declare .const p.name (some (.ident slot))) =
      slots.map fun (p, slot) => .declare .const p.name (some (.ident slot)) := by
  induction slots with
  | nil => rfl
  | cons slot slots ih => simp [ih]

/-- The body of a loop is relocated with the statements in it. -/
theorem relocate_loopBody (t : TailCall) (strategy : Strategy Expr) (body : List Stmt) :
    loopBody (t.relocate ρ) strategy (relocateStmts ρ body) =
      relocateStmts ρ (loopBody t strategy body) := by
  have hcopies := relocate_copies (ρ := ρ) t.bindings
  cases hs : strategy.isEffect <;>
    simp [loopBody, TailCall.bindings_relocate, hs, hcopies, Function.comp_def]

variable {r : Parts} (h : r.Follows ρ) {ctx ctx' : Context} (hc : ctx.Follows ρ ctx')
include h hc

/-- Relocated expressions are lowered to the relocated code. -/
theorem exprs (es : List Ir.Expr) :
    Lower.Follows ρ (relocateExprs ρ) (r.exprs ctx es) (r.exprs ctx' (es.map (·.relocate ρ))) := by
  induction es with
  | nil => exact .pure rfl
  | cons e es ih => exact .bind (h.expr hc _) fun _ => .bind ih fun _ => .pure rfl

/-- The value of a relocated node is delivered by the relocated code. -/
theorem delivered (strategy : Strategy Expr) (e : Ir.Expr) :
    Lower.Follows ρ (relocateStmts ρ) (r.delivered ctx strategy e)
      (r.delivered ctx' (relocateStrategy ρ strategy) (e.relocate ρ)) :=
  .bind (h.expr hc.withoutTailCall _) fun _ => .pure (relocate_deliver _ _).symm

/-- A declaration of relocated parts is lowered to the relocated code. -/
theorem declare (id : Ir.Ident) (value : Ir.Expr) :
    Lower.Follows ρ (relocateStmts ρ) (r.declare ctx id value)
      (r.declare ctx' (id.relocate ρ) (value.relocate ρ)) := by
  have hc := hc.withoutTailCall
  refine .ite (h.stmts hc rfl _) (.bind (.isStatement hc _ _) fun _ => .ite ?_ ?_)
  · exact .bind (h.stmts hc (by simp) _) fun _ => .pure (by simp)
  · exact .bind (h.expr hc _) fun _ => .pure (by simp; rfl)

/-- A relocated node that is evaluated by an arrow function is lowered to the relocated code. -/
theorem invoked (e : Ir.Expr) :
    Lower.Follows ρ (Expr.relocate ρ) (r.invoked ctx e) (r.invoked ctx' (e.relocate ρ)) := by
  rw [Parts.invoked, Parts.invoked, Ir.Expr.type_relocate]
  exact .bind (h.stmts hc.withoutTailCall (by simp) _) fun _ => .pure (by simp)

/-- A closure of relocated parts is lowered to the relocated code. -/
theorem closure (params : List Ir.Ident) (body : Ir.Expr) :
    Lower.Follows ρ (Expr.relocate ρ) (r.closure ctx params body)
      (r.closure ctx' (params.map (·.relocate ρ)) (body.relocate ρ)) := by
  rw [Parts.closure, Parts.closure, Ir.Expr.type_relocate, declaredParams_relocate]
  refine .bind (h.stmts hc.withoutTailCall (by simp) _) fun _ => .pure ?_
  simp [relocate_arrowBody, Function.comp_def]

/-- A function of relocated parts is lowered to the relocated code. -/
theorem function (name : Option String) (params : List Ir.Ident) (body : Ir.Expr) :
    Lower.Follows ρ (fun p => (p.1, relocateStmts ρ p.2)) (r.function ctx name params body)
      (r.function ctx' name (params.map (·.relocate ρ)) (body.relocate ρ)) := by
  have hplain : (declaredParams params |>.map (·.relocate ρ)).map
      (fun p => (⟨p.name, false⟩ : Param)) = (declaredParams params).map (⟨·.name, false⟩) := by
    rw [List.map_map]
    rfl
  unfold Parts.function
  simp only [declaredParams_relocate, Ir.Expr.type_relocate, hplain]
  cases name with
  | none =>
    exact .bind (h.stmts hc.withoutTailCall (by simp) _) fun _ => .pure rfl
  | some name =>
    cases declaredParams params with
    | nil => exact .bind (h.stmts hc.withoutTailCall (by simp) _) fun _ => .pure rfl
    | cons p ps =>
      refine .bind (.allocateTailCall name (p :: ps)) fun t =>
        .bind (.inFunction (h.stmts (hc.withTailCall t) (by simp) _)) fun ⟨stmts, looped⟩ =>
          .ite (.pure ?_) (.pure rfl)
      simp [TailCall.bindings_relocate, relocate_loopBody, Function.comp_def]

/-- A local function of relocated parts is lowered to the relocated code. -/
theorem localFunction (id : Ir.Ident) (params : List Ir.Ident) (body : Ir.Expr) :
    Lower.Follows ρ (Stmt.relocate ρ) (r.localFunction ctx id params body)
      (r.localFunction ctx' (id.relocate ρ) (params.map (·.relocate ρ)) (body.relocate ρ)) :=
  .bind (h.function hc _ _ _) fun _ => .pure (by simp)

/-! ## Expressions -/

/-- A property list of relocated parts is lowered to the relocated code. -/
theorem properties (keys : List String) (values : List Ir.Expr) :
    Lower.Follows ρ (relocateMembers ρ) (r.properties ctx keys values)
      (r.properties ctx' keys (values.map (·.relocate ρ))) := by
  induction keys generalizing values with
  | nil => exact .pure rfl
  | cons key keys ih =>
    cases values with
    | nil => exact .pure rfl
    | cons value values => exact .bind (h.expr hc _) fun _ => .bind (ih _) fun _ => .pure rfl

/-- An array, a tuple, a record or a case of a union of relocated parts is lowered to the relocated
code. -/
theorem aggregate (kind : Ir.Aggregate) (values : List Ir.Expr) :
    Lower.Follows ρ (Expr.relocate ρ) (r.aggregate ctx kind values)
      (r.aggregate ctx' kind (values.map (·.relocate ρ))) := by
  cases kind with
  | array | tuple => exact .bind (h.exprs hc _) fun _ => .pure (by simp)
  | record =>
    exact .bind (follows_className hc _) fun _ => .bind (h.exprs hc _) fun _ => .pure (by simp)
  | anonymous => exact .bind (h.properties hc _ _) fun _ => .pure (by simp)
  | union =>
    exact .bind (h.exprs hc _) fun _ => .bind (follows_className hc _) fun _ => .pure (by simp)

/-- A member of an object of relocated parts is lowered to the relocated code. -/
theorem objectMember (m : Ir.ObjectMember) :
    Lower.Follows ρ (fun m => ⟨m.key, m.value.relocate ρ⟩) (r.objectMember ctx m)
      (r.objectMember ctx' (m.relocate ρ)) := by
  obtain ⟨name, args, body, kind⟩ := m
  cases kind with
  | value => exact .bind (h.expr hc _) fun _ => .pure rfl
  | method | getter | setter => exact .bind (h.function hc _ _ _) fun _ => .pure rfl

/-- The members of an object of relocated parts are lowered to the relocated code. -/
theorem objectMembers (ms : List Ir.ObjectMember) :
    Lower.Follows ρ (relocateMembers ρ) (r.objectMembers ctx ms)
      (r.objectMembers ctx' (ms.map (·.relocate ρ))) := by
  induction ms with
  | nil => exact .pure rfl
  | cons m ms ih =>
    refine .bind (h.objectMember hc _) fun ⟨_, _⟩ => .bind ih fun _ => .pure ?_
    rw [relocateMembers]

/-- A call of relocated parts is lowered to the relocated code. -/
theorem call (callee : Ir.Expr) (receiver : Option Ir.Expr) (args : List Ir.Expr) (isNew : Bool) :
    Lower.Follows ρ (Expr.relocate ρ) (r.call ctx callee receiver args isNew)
      (r.call ctx' (callee.relocate ρ) (receiver.map (·.relocate ρ)) (args.map (·.relocate ρ))
        isNew) := by
  have hargs : (receiver.map (·.relocate ρ)).toList ++ discardUnitArg (args.map (·.relocate ρ)) =
      (receiver.toList ++ discardUnitArg args).map (·.relocate ρ) := by
    cases receiver <;> simp [discardUnitArg_relocate]
  unfold Parts.call
  rw [hargs]
  exact .bind (h.expr hc _) fun _ => .bind (h.exprs hc _) fun _ => .pure (by cases isNew <;> simp)

/-- An application to curried arguments of relocated parts is lowered to the relocated code. -/
theorem applied (f : Expr) (args : List Ir.Expr) :
    Lower.Follows ρ (Expr.relocate ρ) (r.applied ctx f args)
      (r.applied ctx' (f.relocate ρ) (args.map (·.relocate ρ))) := by
  induction args generalizing f with
  | nil => exact .pure rfl
  | cons arg args ih =>
    refine .bind (h.expr hc _) fun arg => ?_
    simpa using ih (.call f [arg])

/-- A binary operation of relocated parts is lowered to the relocated code. -/
theorem binary (op : Ir.BinaryOp) (left right : Ir.Expr) (ty : Ir.Ty) :
    Lower.Follows ρ (Expr.relocate ρ) (r.binary ctx op left right ty)
      (r.binary ctx' op (left.relocate ρ) (right.relocate ρ) ty) := by
  unfold Parts.binary
  rw [Ir.Expr.type_relocate]
  refine .bind (h.expr hc _) fun _ => .bind (h.expr hc _) fun _ => ?_
  cases op with
  | equal | notEqual =>
    exact .ite (.pure (by simp)) (.bind (follows_helper hc _) fun _ => .pure (by simp))
  | divide => exact .pure (by cases ty.isInteger <;> simp)
  | _ => exact .pure (by simp)

/-- The place that an assignment writes to of relocated parts is lowered to the relocated code. -/
theorem place (target : Ir.Expr) (field : Option String) :
    Lower.Follows ρ (Expr.relocate ρ) (r.place ctx target field)
      (r.place ctx' (target.relocate ρ) field) :=
  .bind (h.expr hc _) fun _ => .pure (by cases field <;> simp)

/-- The element that an assignment writes to of relocated parts is lowered to the relocated code. -/
theorem element (target index : Ir.Expr) :
    Lower.Follows ρ (Expr.relocate ρ) (r.element ctx target index)
      (r.element ctx' (target.relocate ρ) (index.relocate ρ)) :=
  .bind (h.expr hc _) fun _ => .bind (h.expr hc _) fun _ => .pure (by simp)

omit h in

/-- A test of a relocated value is the relocated test. -/
theorem follows_test (value : Expr) (kind : Ir.TestKind) (loc : Option Ir.Location) :
    Lower.Follows ρ (Expr.relocate ρ) (test ctx value kind loc)
      (test ctx' (value.relocate ρ) kind (ρ.map loc)) := by
  cases kind with
  | option | unionCase => exact .pure (by simp)
  | type ty =>
    cases ty with
    | declared => exact .bind (follows_className hc _) fun _ => .pure (by simp)
    | unit | option | param => exact .fail rfl
    | _ => exact .pure (by simp [hasTypeOf])

omit h in

/-- A success node selects the relocated target in a context with relocated targets. -/
theorem follows_target (index : Nat) :
    Lower.Follows ρ (Ir.Target.relocate ρ) (target ctx index) (target ctx' index) :=
  .ofOption rfl (hc.target? index)

omit h hc in

/-- A constant has no location of its own. -/
theorem relocate_literalForm (value : Ir.Literal) :
    (literalForm value).relocate ρ = literalForm value := by
  cases value <;> rfl

omit h hc in

/-- A comma expression is relocated with its items. -/
theorem relocate_sequenceOf (items : List Expr) :
    sequenceOf (relocateExprs ρ items) = (sequenceOf items).relocate ρ := by
  match items with
  | [] | [_] => simp [sequenceOf]
  | _ :: _ :: _ => simp [sequenceOf]

/-- A relocated node that is an expression is lowered to the relocated code. -/
theorem exprCore (e : Ir.Expr) :
    Lower.Follows ρ (Expr.relocate ρ) (r.exprCore ctx e) (r.exprCore ctx' (e.relocate ρ)) := by
  cases e with
  | literal value => exact .pure (by simp [relocate_literalForm])
  | ident id =>
    refine .pure ?_
    rw [Ir.Ident.relocate_isThis, Ir.Ident.relocate_name]
    split <;> simp
  | option value =>
    cases value with
    | none => exact .pure (by simp)
    | some => exact h.expr hc _
  | aggregate =>
    rw [Ir.Expr.relocate, Ir.Expr.relocateList_eq]
    exact h.aggregate hc _ _
  | cast => exact h.expr hc _
  | decisionTree dispatcher targets =>
    rw [Ir.Expr.relocate, Ir.Expr.relocateTargets_eq]
    exact h.expr (hc.withTargets targets) dispatcher
  | imported =>
    exact .bind (.resolveImport hc.file _) fun _ => .bind (.importMember _ _) fun _ =>
      .pure (by simp)
  | lambda arg body => exact h.closure hc [arg] body
  | delegate => exact h.closure hc _ _
  | object members ty base =>
    simp only [Ir.Expr.relocate, Ir.Expr.relocateMembers_eq]
    refine .bind (h.objectMembers hc _) fun _ => ?_
    cases base with
    | none => exact .pure (by simp)
    | some => exact .bind (h.expr hc _) fun _ => .pure (by simp)
  | call =>
    rw [Ir.Expr.relocate, Ir.Expr.relocateOption_eq, Ir.Expr.relocateList_eq]
    exact h.call hc _ _ _ _
  | apply =>
    rw [Ir.Expr.relocate, Ir.Expr.relocateList_eq]
    exact .bind (h.expr hc _) fun _ => h.applied hc _ _
  | unary => exact .bind (h.expr hc _) fun _ => .pure (by simp)
  | get _ kind => exact .bind (h.expr hc _) fun _ => .pure (by cases kind <;> simp [access])
  | binary => exact h.binary hc _ _ _ _
  | logical => exact .bind (h.expr hc _) fun _ => .bind (h.expr hc _) fun _ => .pure (by simp)
  | emit =>
    rw [Ir.Expr.relocate, Ir.Expr.relocateList_eq]
    exact .bind (h.exprs hc _) fun _ => .pure (by simp)
  | sequence =>
    rw [Ir.Expr.relocate, Ir.Expr.relocateList_eq]
    exact .bind (h.exprs hc _) fun _ => .pure (relocate_sequenceOf _)
  | getIndex => exact h.element hc _ _
  | set =>
    exact .bind (h.place hc _ _) fun _ => .bind (h.expr hc _) fun _ => .pure (by simp)
  | setIndex =>
    exact .bind (h.element hc _ _) fun _ => .bind (h.expr hc _) fun _ => .pure (by simp)
  | test => exact .bind (h.expr hc _) fun _ => follows_test hc _ _ _
  | ifThenElse =>
    exact .bind (h.expr hc _) fun _ => .bind (h.expr hc _) fun _ =>
      .bind (h.expr hc _) fun _ => .pure (by simp)
  | success => exact .bind (follows_target hc _) fun _ => h.expr hc _
  | curry =>
    exact .bind (follows_helper hc _) fun _ => .bind (h.expr hc _) fun _ => .pure (by simp)
  | throw | debugger | letIn | letRec | whileLoop | forLoop | tryCatch => exact h.invoked hc _

omit h in

/-- Whether a node needs an arrow function does not depend on where it is. -/
theorem follows_isInvoked (e : Ir.Expr) :
    Lower.Follows ρ (fun b => b) (isInvoked ctx e) (isInvoked ctx' (e.relocate ρ)) := by
  cases e with
  | decisionTree | success => exact .isStatement hc _ _
  | sequence =>
    rw [Ir.Expr.relocate, Ir.Expr.relocateList_eq]
    exact .anyM fun _ => .isStatement hc _ _
  | _ => exact .pure rfl

omit h in

/-- A relocated call is expanded to the relocated expansion. -/
theorem follows_expansion? (e : Ir.Expr) :
    Lower.Follows ρ (Option.map (Ir.Expr.relocate ρ)) (expansion? ctx e)
      (expansion? ctx' (e.relocate ρ)) := by
  cases e with
  | call callee receiver =>
    simp only [Ir.Expr.relocate, Ir.Expr.relocateList_eq]
    cases receiver with
    | none => exact .expandInline hc.file _ _
    | some => exact .pure rfl
  | _ => exact .pure rfl

/-- Any relocated node in the place of an expression is lowered to the relocated code. -/
theorem exprRule (e : Ir.Expr) :
    Lower.Follows ρ (Expr.relocate ρ) (r.exprRule ctx e) (r.exprRule ctx' (e.relocate ρ)) := by
  refine .bind (follows_expansion? hc _) fun expanded => ?_
  cases expanded with
  | some => exact h.expr hc _
  | none =>
    refine .bind (follows_isInvoked hc _) fun _ => .ite (h.invoked hc _) ?_
    exact .bind (h.exprCore hc _) fun _ => .pure (by simp [Ir.Expr.location_relocate])

/-! ## Statements -/

/-- The writes of relocated arguments to the slots of a loop are relocated. -/
theorem slotWrites (slots : List (Ir.Ident × String)) (args : List Ir.Expr) :
    Lower.Follows ρ (relocateStmts ρ) (r.slotWrites ctx slots args)
      (r.slotWrites ctx' (slots.map fun (p, slot) => (p.relocate ρ, slot))
        (args.map (·.relocate ρ))) := by
  induction slots generalizing args with
  | nil => exact .pure rfl
  | cons slot slots ih =>
    cases args with
    | nil => exact .pure rfl
    | cons arg args =>
      refine .bind (h.expr hc.withoutTailCall _) fun value => .bind (ih _) fun rest => ?_
      obtain ⟨loc, form⟩ := value
      cases form with
      | ident name =>
        refine .pure ?_
        rw [apply_ite (relocateStmts ρ)]
        simp [Expr.relocate]
        rfl
      | _ => exact .pure (by simp)

/-- A self tail call of relocated parts is lowered to the relocated code. -/
theorem tailCall (t : TailCall) (args : List Ir.Expr) :
    Lower.Follows ρ (relocateStmts ρ) (r.tailCall ctx t args)
      (r.tailCall ctx' (t.relocate ρ) (args.map (·.relocate ρ))) := by
  rw [Parts.tailCall, Parts.tailCall, discardUnitArg_relocate, TailCall.bindings_relocate]
  exact .bind .markLooped fun _ => .bind (h.slotWrites hc _ _) fun _ => .pure (by simp)

/-- A recursive let of relocated parts is lowered to the relocated code. -/
theorem recursive (bs : List Ir.Binding) :
    Lower.Follows ρ (relocateStmts ρ) (r.recursive ctx bs)
      (r.recursive ctx' (bs.map (·.relocate ρ))) := by
  induction bs with
  | nil => exact .pure rfl
  | cons b bs ih =>
    have hrest : ∀ first : List Stmt, Lower.Follows ρ (relocateStmts ρ)
        (do let rest ← r.recursive ctx bs; return first ++ rest)
        (do
          let rest ← r.recursive ctx' (bs.map (·.relocate ρ))
          return relocateStmts ρ first ++ rest) :=
      fun _ => .bind ih fun _ => .pure (relocateStmts_append _ _).symm
    unfold Parts.recursive
    simp only [List.map_cons, Ir.Binding.relocate_value, Ir.Expr.uncast_relocate]
    cases b.value.uncast with
    | lambda arg body => exact .bind (h.localFunction hc _ [arg] _) fun first => hrest [first]
    | delegate args body => exact .bind (h.localFunction hc _ _ _) fun first => hrest [first]
    | _ => exact .bind (h.declare hc _ _) fun _ => hrest _

/-- A sequence of relocated parts is lowered to the relocated code. -/
theorem sequence (strategy : Strategy Expr) (es : List Ir.Expr) :
    Lower.Follows ρ (relocateStmts ρ) (r.sequence ctx strategy es)
      (r.sequence ctx' (relocateStrategy ρ strategy) (es.map (·.relocate ρ))) := by
  induction es with
  | nil => exact .pure (relocate_deliverUnit _).symm
  | cons e es ih =>
    cases es with
    | nil => exact h.stmts hc rfl _
    | cons =>
      exact .bind (h.stmts hc.withoutTailCall rfl _) fun _ => .bind ih fun _ => .pure (by simp)

/-- An assignment of relocated parts is lowered to the relocated code. -/
theorem assignment (place : Expr) (value : Ir.Expr) (loc : Option Ir.Location) :
    Lower.Follows ρ (relocateStmts ρ) (r.assignment ctx place value loc)
      (r.assignment ctx' (place.relocate ρ) (value.relocate ρ) (ρ.map loc)) :=
  .bind (.isStatement hc _ _) fun _ => .ite (h.stmts hc rfl _)
    (.bind (h.expr hc _) fun _ => .pure (by simp))

omit h hc in

/-- Whether a bound is constant does not depend on where it is. -/
theorem isConstantBound_relocate (e : Expr) :
    isConstantBound (e.relocate ρ) = isConstantBound e := by
  obtain ⟨loc, form⟩ := e
  cases form <;> rfl

/-- A counting loop of relocated parts is lowered to the relocated code. -/
theorem forLoop (id : Ir.Ident) (start limit body : Ir.Expr) (isUp : Bool)
    (loc : Option Ir.Location) :
    Lower.Follows ρ (relocateStmts ρ) (r.forLoop ctx id start limit body isUp loc)
      (r.forLoop ctx' (id.relocate ρ) (start.relocate ρ) (limit.relocate ρ) (body.relocate ρ) isUp
        (ρ.map loc)) := by
  have hpair : ∀ p : Expr × List Stmt, Lower.Follows ρ
      (fun p : Expr × List Stmt => (p.1.relocate ρ, relocateStmts ρ p.2)) (pure p)
        (pure (p.1.relocate ρ, relocateStmts ρ p.2)) := fun _ => .pure rfl
  refine .bind (h.expr hc _) fun start => .bind (h.expr hc _) fun limit => ?_
  dsimp only
  rw [isConstantBound_relocate]
  refine .ite (.bind (hpair (limit, [])) fun _ => .bind (h.stmts hc rfl _) fun _ => .pure ?_)
    (.bind (.allocateLocal _) fun name =>
      .bind (by simpa using hpair (.ident name, [.declare .const name (some limit)])) fun _ =>
        .bind (h.stmts hc rfl _) fun _ => .pure ?_) <;>
    cases isUp <;> simp [Stmt.relocate, VarDecl.relocate]

/-- A handler of relocated parts is lowered to the relocated code. -/
theorem handler (strategy : Strategy Expr) (hd : Option Ir.Handler) :
    Lower.Follows ρ (relocateHandler ρ) (r.handler ctx strategy hd)
      (r.handler ctx' (relocateStrategy ρ strategy) (hd.map (·.relocate ρ))) := by
  cases hd with
  | none => exact .pure rfl
  | some => exact .bind (.inHandler _ (h.stmts hc rfl _)) fun _ => .pure rfl

/-- A finalizer of relocated parts is lowered to the relocated code. -/
theorem finalizer (e : Option Ir.Expr) :
    Lower.Follows ρ (relocateStmts? ρ) (r.finalizer ctx e)
      (r.finalizer ctx' (e.map (·.relocate ρ))) := by
  cases e with
  | none => exact .pure rfl
  | some => exact .bind (h.stmts hc rfl _) fun _ => .pure rfl

/-- The cases of targets of relocated parts are lowered to the relocated code. -/
theorem cases (strategy : Strategy Expr) (index : Nat) (ts : List Ir.Target) :
    Lower.Follows ρ (relocateCases ρ) (r.cases ctx strategy index ts)
      (r.cases ctx' (relocateStrategy ρ strategy) index (ts.map (·.relocate ρ))) := by
  induction ts generalizing index with
  | nil => exact .pure rfl
  | cons t ts ih =>
    refine .bind (h.stmts hc rfl _) fun _ => .bind (ih _) fun _ => .pure ?_
    cases strategy <;> cases ts <;> simp [relocateStrategy]

omit h in

/-- Relocated targets bind the same variables, which are declared the same way. -/
theorem targetVariables_relocate (ts : List Ir.Target) :
    targetVariables ctx' (ts.map (·.relocate ρ)) = relocateStmts ρ (targetVariables ctx ts) := by
  simp [targetVariables, relocateStmts_eq, List.filter_map, List.flatMap_map, List.map_flatMap,
    Function.comp_def, hc.hoists]

/-- A decision tree of relocated parts is lowered to the relocated code. -/
theorem decisionTree (strategy : Strategy Expr) (dispatcher : Ir.Expr) (targets : List Ir.Target) :
    Lower.Follows ρ (relocateStmts ρ) (r.decisionTree ctx strategy dispatcher targets)
      (r.decisionTree ctx' (relocateStrategy ρ strategy) (dispatcher.relocate ρ)
        (targets.map (·.relocate ρ))) := by
  unfold Parts.decisionTree
  rw [List.length_map, Ir.Expr.sharedTargets_relocate]
  refine .ite (h.stmts (hc.withTargets _) rfl _) (.bind (.allocateLocal _) fun _ => ?_)
  refine .bind (h.stmts (hc.withTargets _).withoutTailCall rfl _) fun _ =>
    .bind (h.cases hc _ _ _) fun _ => .pure ?_
  simp [targetVariables_relocate hc]

/-- Declarations of what a target binds of relocated parts are lowered to the relocated code. -/
theorem bindings (ids : List Ir.Ident) (values : List Ir.Expr) :
    Lower.Follows ρ (relocateStmts ρ) (r.bindings ctx ids values)
      (r.bindings ctx' (ids.map (·.relocate ρ)) (values.map (·.relocate ρ))) := by
  induction ids generalizing values with
  | nil => exact .pure rfl
  | cons id ids ih =>
    cases values with
    | nil => exact .pure rfl
    | cons => exact .bind (h.declare hc _ _) fun _ => .bind (ih _) fun _ => .pure (by simp)

/-- Assignments to what a target binds of relocated parts are lowered to the relocated code. -/
theorem assignments (ids : List Ir.Ident) (values : List Ir.Expr) :
    Lower.Follows ρ (relocateStmts ρ) (r.assignments ctx ids values)
      (r.assignments ctx' (ids.map (·.relocate ρ)) (values.map (·.relocate ρ))) := by
  induction ids generalizing values with
  | nil => exact .pure rfl
  | cons id ids ih =>
    cases values with
    | nil => exact .pure rfl
    | cons =>
      exact .bind (h.stmts hc.withoutTailCall (by simp) _) fun _ => .bind (ih _) fun _ =>
        .pure (by simp)

/-- A success node of relocated parts is lowered to the relocated code. -/
theorem success (strategy : Strategy Expr) (index : Nat) (values : List Ir.Expr) :
    Lower.Follows ρ (relocateStmts ρ) (r.success ctx strategy index values)
      (r.success ctx' (relocateStrategy ρ strategy) index (values.map (·.relocate ρ))) := by
  refine .bind (follows_target hc _) fun _ => ?_
  cases strategy with
  | join => exact .bind (h.assignments hc _ _) fun _ => .pure (by simp)
  | ret | effect | assign =>
    exact .bind (h.bindings hc _ _) fun _ => .bind (h.stmts hc rfl _) fun _ => .pure (by simp)

/-- A conditional of relocated parts is lowered to the relocated code. -/
theorem conditional (strategy : Strategy Expr) (guard thenExpr elseExpr : Ir.Expr)
    (loc : Option Ir.Location) :
    Lower.Follows ρ (relocateStmts ρ) (r.conditional ctx strategy guard thenExpr elseExpr loc)
      (r.conditional ctx' (relocateStrategy ρ strategy) (guard.relocate ρ) (thenExpr.relocate ρ)
        (elseExpr.relocate ρ) (ρ.map loc)) :=
  .bind (h.expr hc.withoutTailCall _) fun _ => .bind (h.stmts hc rfl _) fun _ =>
    .bind (h.stmts hc rfl _) fun _ => .pure rfl

omit h in

/-- Contexts that differ in locations prefer statements alike. -/
theorem prefersStatement_relocate (strategy : Strategy Expr) :
    prefersStatement ctx' (relocateStrategy ρ strategy) = prefersStatement ctx strategy := by
  cases strategy <;> simp [prefersStatement, relocateStrategy, hc.tailCall]

/-- Any relocated node in the place of statements is lowered to the relocated code. -/
theorem stmtsRule (strategy : Strategy Expr) (e : Ir.Expr) :
    Lower.Follows ρ (relocateStmts ρ) (r.stmtsRule ctx strategy e)
      (r.stmtsRule ctx' (relocateStrategy ρ strategy) (e.relocate ρ)) := by
  cases e with
  | cast => exact h.stmts hc rfl _
  | call callee receiver args isNew ty loc =>
    have hdelivered := h.delivered hc strategy (.call callee receiver args isNew ty loc)
    simp only [Ir.Expr.relocate, Ir.Expr.relocateOption_eq, Ir.Expr.relocateList_eq]
      at hdelivered ⊢
    unfold Parts.stmtsRule
    dsimp only
    rw [hc.selfTailCall? (relocateStrategy_isTail strategy)]
    cases ctx.selfTailCall? strategy callee receiver args isNew with
    | none => exact hdelivered
    | some t => exact h.tailCall hc t args
  | ifThenElse guard thenExpr elseExpr loc =>
    unfold Parts.stmtsRule
    simp only [Ir.Expr.relocate, prefersStatement_relocate hc]
    exact .bind (.isStatement hc _ (.ifThenElse guard thenExpr elseExpr loc)) fun _ =>
      .ite (h.conditional hc _ _ _ _ _) (h.delivered hc _ (.ifThenElse guard thenExpr elseExpr loc))
  | decisionTree =>
    rw [Ir.Expr.relocate, Ir.Expr.relocateTargets_eq]
    exact h.decisionTree hc _ _ _
  | success =>
    rw [Ir.Expr.relocate, Ir.Expr.relocateList_eq]
    exact h.success hc _ _ _
  | letIn =>
    exact .bind (h.declare hc _ _) fun _ => .bind (h.stmts hc rfl _) fun _ => .pure (by simp)
  | letRec =>
    simp only [Ir.Expr.relocate, Ir.Expr.relocateBindings_eq]
    exact .bind (h.recursive hc _) fun _ => .bind (h.stmts hc rfl _) fun _ => .pure (by simp)
  | sequence =>
    rw [Ir.Expr.relocate, Ir.Expr.relocateList_eq]
    exact h.sequence hc _ _
  | set =>
    exact .bind (h.place hc.withoutTailCall _ _) fun _ =>
      .bind (h.assignment hc.withoutTailCall _ _ _) fun _ => .pure (by simp)
  | setIndex =>
    exact .bind (h.element hc.withoutTailCall _ _) fun _ =>
      .bind (h.assignment hc.withoutTailCall _ _ _) fun _ => .pure (by simp)
  | whileLoop =>
    exact .bind (h.expr hc.withoutTailCall _) fun _ =>
      .bind (h.stmts hc.withoutTailCall rfl _) fun _ => .pure (by simp [Stmt.relocate])
  | forLoop =>
    exact .bind (h.forLoop hc.withoutTailCall _ _ _ _ _ _) fun _ => .pure (by simp)
  | tryCatch =>
    simp only [Ir.Expr.relocate, Ir.Expr.relocateHandler_eq, Ir.Expr.relocateOption_eq]
    exact .bind (h.stmts hc.withoutTailCall rfl _) fun _ =>
      .bind (h.handler hc.withoutTailCall _ _) fun _ =>
        .bind (h.finalizer hc.withoutTailCall _) fun _ => .pure (by simp [Stmt.relocate])
  | throw error =>
    cases error with
    | some => exact .bind (h.expr hc.withoutTailCall _) fun _ => .pure (by simp [Stmt.relocate])
    | none =>
      exact .bind .caught fun _ => .bind (.ofOption rfl (Option.map_id_apply).symm) fun _ =>
        .pure (by simp [Stmt.relocate])
  | debugger => exact .pure (by simp [Stmt.relocate])
  | emit template args isStatement ty loc =>
    cases isStatement with
    | true =>
      simp only [Ir.Expr.relocate, Ir.Expr.relocateList_eq]
      exact .bind (h.exprs hc.withoutTailCall _) fun _ => .pure (by simp [Expr.relocate])
    | false => exact h.delivered hc strategy (.emit template args false ty loc)
  | literal | option | aggregate | ident | imported | lambda | delegate | object | apply | unary
  | binary | logical | get | getIndex | test | curry =>
    exact h.delivered hc strategy _

end Parts.Follows

/-! ## The rules -/

/-- The rules follow a relocation at every depth. -/
theorem rules_follow (ρ : Relocation) (depth : Nat) : (rules depth).Follows ρ := by
  induction depth with
  | zero => exact ⟨fun _ _ => .fail rfl, fun _ _ _ _ _ => .fail rfl⟩
  | succ depth ih =>
    exact ⟨fun hc e => ih.exprRule hc e, fun hc _ _ hs e => hs ▸ ih.stmtsRule hc _ e⟩

/-! ## Declarations -/

section
variable {ctx ctx' : Context} (hc : ctx.Follows ρ ctx')
include hc

/-- A relocated expression is lowered to the relocated code. -/
theorem lowerExpr_follows (e : Ir.Expr) :
    Lower.Follows ρ (Expr.relocate ρ) (lowerExpr ctx e) (lowerExpr ctx' (e.relocate ρ)) := by
  rw [lowerExpr, lowerExpr, hc.depth]
  exact (rules_follow ρ _).expr hc e

/-- A relocated node is lowered to the relocated statements. -/
theorem lowerStmts_follows {strategy strategy' : Strategy Expr}
    (hs : strategy' = relocateStrategy ρ strategy) (e : Ir.Expr) :
    Lower.Follows ρ (relocateStmts ρ) (lowerStmts ctx strategy e)
      (lowerStmts ctx' strategy' (e.relocate ρ)) := by
  rw [lowerStmts, lowerStmts, hc.depth]
  exact (rules_follow ρ _).stmts hc hs e

/-- A function of relocated parts is lowered to the relocated code. -/
theorem lowerFunction_follows (name : Option String) (params : List Ir.Ident) (body : Ir.Expr) :
    Lower.Follows ρ (fun p => (p.1, relocateStmts ρ p.2)) (lowerFunction ctx name params body)
      (lowerFunction ctx' name (params.map (·.relocate ρ)) (body.relocate ρ)) := by
  rw [lowerFunction, lowerFunction, hc.depth]
  exact (rules_follow ρ _).function hc name params body

omit hc in

/-- The constructor that only sets fields has no locations. -/
theorem relocate_fieldConstructor (fields : List String) :
    relocateClassMembers ρ [fieldConstructor fields] = [fieldConstructor fields] := by
  have hfields : relocateStmts ρ (fields.map fieldAssignment) = fields.map fieldAssignment := by
    simp [relocateStmts_eq, fieldAssignment, Function.comp_def]
  simp [fieldConstructor, hfields]

/-- A constructor of relocated parts is lowered to the relocated code. -/
theorem lowerConstructor_follows (entity : Entity) (constructor : Option Ir.Member) :
    Lower.Follows ρ (relocateClassMembers ρ) (lowerConstructor ctx entity constructor)
      (lowerConstructor ctx' entity (constructor.map (·.relocate ρ))) := by
  unfold lowerConstructor
  cases entity.kind with
  | record | union => exact .pure (relocate_fieldConstructor _).symm
  | plain =>
    cases constructor with
    | none => exact .pure rfl
    | some m => exact .bind (lowerFunction_follows hc _ _ _) fun _ => .pure (by simp)

/-- Methods of relocated parts are lowered to the relocated code. -/
theorem lowerMethods_follows (ms : List Ir.Member) :
    Lower.Follows ρ (relocateClassMembers ρ) (lowerMethods ctx ms)
      (lowerMethods ctx' (ms.map (·.relocate ρ))) := by
  induction ms with
  | nil => exact .pure rfl
  | cons m ms ih =>
    exact .bind (lowerFunction_follows hc _ _ _) fun _ => .bind ih fun _ => .pure (by simp; rfl)

/-- A class of relocated parts is lowered to the relocated code. -/
theorem lowerClass_follows (decl : Ir.ClassDecl) :
    Lower.Follows ρ (Stmt.relocate ρ) (lowerClass ctx decl)
      (lowerClass ctx' (decl.relocate ρ)) := by
  unfold lowerClass
  rw [hc.file]
  refine .bind (.ofOption rfl (Option.map_id_apply).symm) fun entity => ?_
  refine .bind (lowerConstructor_follows hc _ _) fun _ =>
    .bind (lowerMethods_follows hc _) fun _ => .pure ?_
  simp [ClassDecl.relocate]
  rfl

/-- A relocated member of a file is lowered to the relocated statement. -/
theorem lowerMember_follows (m : Ir.Member) :
    Lower.Follows ρ (Stmt.relocate ρ) (lowerMember ctx m) (lowerMember ctx' (m.relocate ρ)) := by
  refine .ite (.bind (lowerExpr_follows hc _) fun _ => .pure ?_)
    (.bind (lowerFunction_follows hc _ _ _) fun _ => .pure ?_)
  · simp
    rfl
  · simp [Stmt.relocate]
    rfl

end

/-! ## Files -/

/-- A relocated declaration of a file is lowered to the relocated statements. -/
theorem lowerLeaf_follows (file : SourceFile) (leaf : Ir.Leaf) :
    Lower.Follows ρ (relocateStmts ρ) (lowerLeaf file leaf)
      (lowerLeaf (file.relocate ρ) (leaf.relocate ρ)) := by
  have hc := Context.Follows.ofFile ρ file
  unfold lowerLeaf
  cases leaf with
  | action a => exact .inDeclaration _ (lowerStmts_follows hc rfl _)
  | member m =>
    exact .inDeclaration _ (.bind (lowerMember_follows hc _) fun _ => .pure rfl)
  | classDecl c =>
    exact .inDeclaration _ (.bind (lowerClass_follows hc _) fun _ => .pure rfl)

/-- The declarations of a relocated file are lowered to the relocated statements, with other notes
in the journal but no failure. -/
theorem lowerLeaves_follows (file : SourceFile) (leaves : List Ir.Leaf) (s : LowerState) :
    ∃ notes : List Note, (∀ note ∈ notes, note.IsQuiet) ∧ ∀ j,
      lowerLeaves (file.relocate ρ) (leaves.map (·.relocate ρ)) { s with journal := j } =
        let (result, stmts, t) := lowerLeaves file leaves s
        (Lower.relocated ρ (fun u => u) result, relocateStmts ρ stmts,
          { t with journal := j.notes notes }) := by
  induction leaves generalizing s with
  | nil => exact ⟨[], nofun, fun _ => rfl⟩
  | cons leaf leaves ih =>
    obtain ⟨notes, hquiet, hleaf⟩ := lowerLeaf_follows (ρ := ρ) file leaf s
    simp only [List.map_cons, lowerLeaves, hleaf]
    rcases lowerLeaf file leaf s with ⟨e | stmts, t⟩
    · exact ⟨notes, hquiet, fun _ => rfl⟩
    · obtain ⟨notes', hquiet', hleaves⟩ := ih t
      refine ⟨notes ++ notes',
        fun note => (List.mem_append.1 · |>.elim (hquiet note) (hquiet' note)), fun j => ?_⟩
      rw [Journal.notes_append]
      simp only [Lower.relocated, hleaves, relocateStmts_append]

/-- The program for a file whose locations are changed is the program for the file with its
locations changed, whatever stands in the journal. -/
theorem lowerFile_follows (ρ : Relocation) (file : SourceFile) (content : Ir.File)
    (j : Journal) : ∃ notes : List Note, (∀ note ∈ notes, note.IsQuiet) ∧ ∀ j₁,
      lowerFile (file.relocate ρ) (content.relocate ρ) j₁ =
        (Lower.relocated ρ (Program.relocate ρ) (lowerFile file content j).1, j₁.notes notes) := by
  obtain ⟨notes, hquiet, hleaves⟩ := lowerLeaves_follows (ρ := ρ) file
    (Ir.Declaration.leavesList content.declarations) (.start j content.used reservedWords)
  refine ⟨notes, hquiet, fun j₁ => ?_⟩
  unfold lowerFile
  simp only [Ir.File.relocate, Ir.Declaration.relocateList_eq, Ir.Declaration.leavesList_relocate]
  rw [show LowerState.start j₁ content.used reservedWords =
    { LowerState.start j content.used reservedWords with journal := j₁ } from rfl, hleaves]
  rcases lowerLeaves file (Ir.Declaration.leavesList content.declarations)
    (.start j content.used reservedWords) with ⟨e | _, stmts, t⟩ <;> rfl

end TypedLowering.JavaScript
