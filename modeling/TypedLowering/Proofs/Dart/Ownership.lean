import TypedLowering.Dart.Lower.Declaration
import TypedLowering.Proofs.Lowering.Ownership

/-!
# Lowering to Dart does not see the targets around

Where parts are lowered to the same with any two lists of targets that they cannot tell apart, so
are nodes (`Parts.IgnoresTargets`), and so are all nodes under the rules (`rules_ignoreTargets`). -/

namespace TypedLowering.Dart

open Ir (Target)

/-- Whether parts are lowered to the same with all targets that they cannot tell apart. -/
structure Parts.IgnoresTargets (r : Parts) : Prop where
  expr : ∀ (ctx : Context), ctx.file.HasClosedInlines → ∀ {ts ts' : List Target} {e : Ir.Expr},
    Indistinct ts ts' e → ∀ hoists,
      r.expr (ctx.withTargets ts) hoists e = r.expr (ctx.withTargets ts') hoists e
  stmts : ∀ (ctx : Context), ctx.file.HasClosedInlines → ∀ {ts ts' : List Target} {e : Ir.Expr},
    Indistinct ts ts' e → ∀ strategy,
      r.stmts (ctx.withTargets ts) strategy e = r.stmts (ctx.withTargets ts') strategy e

namespace Parts.IgnoresTargets

open Context (withoutTailCall_withTargets withTailCall_withTargets)

variable {r : Parts} (hr : r.IgnoresTargets) {ctx : Context} (hctx : ctx.file.HasClosedInlines)
  {ts ts' : List Target} {e : Ir.Expr} {hoists : Bool}
include hr hctx

/-! ## Parts -/

/-- A node has the same statements before it with any targets that it cannot tell apart. -/
theorem captured (h : Indistinct ts ts' e) :
    r.captured (ctx.withTargets ts) e = r.captured (ctx.withTargets ts') e :=
  hr.expr ctx hctx h true

/-- A value is delivered the same way with any targets that its node cannot tell apart. -/
theorem delivered (h : Indistinct ts ts' e) (strategy : Strategy Expr) :
    r.delivered (ctx.withTargets ts) strategy e = r.delivered (ctx.withTargets ts') strategy e := by
  have hctx : ctx.withoutTailCall.file.HasClosedInlines := hctx
  simp only [Parts.delivered, withoutTailCall_withTargets, hr.captured hctx h]

/-- A value is captured the same way with any targets that its node cannot tell apart. -/
theorem capture (h : Indistinct ts ts' e) :
    r.capture (ctx.withTargets ts) hoists e = r.capture (ctx.withTargets ts') hoists e := by
  simp only [Parts.capture, withoutTailCall_withTargets, hr.stmts ctx.withoutTailCall hctx h]
  rfl

/-- The operands that are left are lowered to the same with any targets that they cannot tell
apart. -/
theorem operandsAfter {es : List Ir.Expr} (h : ∀ e ∈ es, Indistinct ts ts' e)
    (done : List (Expr × Ir.Ty)) :
    r.operandsAfter (ctx.withTargets ts) hoists done es =
      r.operandsAfter (ctx.withTargets ts') hoists done es := by
  induction es generalizing done with
  | nil => rfl
  | cons e es ih =>
    obtain ⟨he, hes⟩ := List.forall_mem_cons.1 h
    simp only [Parts.operandsAfter, hr.expr ctx hctx he, ih hes]
    rfl

/-- Operands are lowered to the same with any targets that they cannot tell apart. -/
theorem operands {es : List Ir.Expr} (h : ∀ e ∈ es, Indistinct ts ts' e) :
    r.operands (ctx.withTargets ts) hoists es = r.operands (ctx.withTargets ts') hoists es :=
  hr.operandsAfter hctx h []

/-- Two operands are lowered to the same with any targets that they cannot tell apart. -/
theorem operandPair {left right : Ir.Expr} (hleft : Indistinct ts ts' left)
    (hright : Indistinct ts ts' right) :
    r.operandPair (ctx.withTargets ts) hoists left right =
      r.operandPair (ctx.withTargets ts') hoists left right := by
  have hboth : ∀ e ∈ [left, right], Indistinct ts ts' e :=
    List.forall_mem_cons.2 ⟨hleft, List.forall_mem_singleton.2 hright⟩
  simp only [Parts.operandPair, hr.operands hctx hboth]

/-- A declaration is lowered to the same with any targets that its parts cannot tell apart. -/
theorem declare (h : Indistinct ts ts' e) (id : Ir.Ident) :
    r.declare (ctx.withTargets ts) id e = r.declare (ctx.withTargets ts') id e := by
  have hctx : ctx.withoutTailCall.file.HasClosedInlines := hctx
  simp only [Parts.declare, withoutTailCall_withTargets, h.check, hr.captured hctx h,
    hr.stmts ctx.withoutTailCall hctx h]
  rfl

/-- A closure is lowered to the same with any targets that its parts cannot tell apart. -/
theorem closure (h : Indistinct ts ts' e) (params : List Ir.Ident) :
    r.closure (ctx.withTargets ts) params e = r.closure (ctx.withTargets ts') params e := by
  simp only [Parts.closure, withoutTailCall_withTargets, hr.stmts ctx.withoutTailCall hctx h]
  rfl

/-- A function is lowered to the same with any targets that its parts cannot tell apart. -/
theorem function (h : Indistinct ts ts' e) (name : Option String) (params : List Ir.Ident) :
    r.function (ctx.withTargets ts) name params e =
      r.function (ctx.withTargets ts') name params e := by
  simp only [Parts.function, withoutTailCall_withTargets, withTailCall_withTargets,
    hr.stmts ctx.withoutTailCall hctx h, fun loop => hr.stmts (ctx.withTailCall loop) hctx h]
  rfl

/-- A local function is lowered to the same with any targets that its parts cannot tell apart. -/
theorem localFunction (h : Indistinct ts ts' e) (id : Ir.Ident) (params : List Ir.Ident) :
    r.localFunction (ctx.withTargets ts) id params e =
      r.localFunction (ctx.withTargets ts') id params e := by
  simp only [Parts.localFunction, hr.function hctx h]

/-! ## Expressions -/

/-- An array, a tuple, a record or a case of a union is lowered to the same with any targets that
its parts cannot tell apart. -/
theorem aggregate {values : List Ir.Expr} (h : ∀ e ∈ values, Indistinct ts ts' e)
    (kind : Ir.Aggregate) (loc : Option Ir.Location) :
    r.aggregate (ctx.withTargets ts) hoists kind values loc =
      r.aggregate (ctx.withTargets ts') hoists kind values loc := by
  cases kind with
  | array | tuple | record | union =>
    simp only [Parts.aggregate, hr.operands hctx h]
    rfl
  | anonymous => rfl

/-- A call is lowered to the same with any targets that its parts cannot tell apart. -/
theorem call {callee : Ir.Expr} {receiver : Option Ir.Expr} {args : List Ir.Expr}
    (h : ∀ e ∈ callee :: (receiver.toList ++ discardUnitArg args), Indistinct ts ts' e) :
    r.call (ctx.withTargets ts) hoists callee receiver args =
      r.call (ctx.withTargets ts') hoists callee receiver args := by
  simp only [Parts.call, hr.operands hctx h]

/-- An application to curried arguments is lowered to the same with any targets that its parts
cannot tell apart. -/
theorem applied {f : Ir.Expr} {args : List Ir.Expr} (h : ∀ e ∈ f :: args, Indistinct ts ts' e) :
    r.applied (ctx.withTargets ts) hoists f args =
      r.applied (ctx.withTargets ts') hoists f args := by
  simp only [Parts.applied, hr.operands hctx h]

/-- A logical operation is lowered to the same with any targets that its parts cannot tell apart. -/
theorem logical {left right : Ir.Expr} (hleft : Indistinct ts ts' left)
    (hright : Indistinct ts ts' right) (op : LogicalOp) :
    r.logical (ctx.withTargets ts) hoists op left right =
      r.logical (ctx.withTargets ts') hoists op left right := by
  simp only [Parts.logical, hr.expr ctx hctx hleft, hr.expr ctx hctx hright]
  rfl

/-- A conditional is lowered to the same with any targets that its parts cannot tell apart. -/
theorem conditional {guard thenExpr elseExpr : Ir.Expr} (hguard : Indistinct ts ts' guard)
    (hthen : Indistinct ts ts' thenExpr) (helse : Indistinct ts ts' elseExpr) (ty : Ir.Ty) :
    r.conditional (ctx.withTargets ts) hoists guard thenExpr elseExpr ty =
      r.conditional (ctx.withTargets ts') hoists guard thenExpr elseExpr ty := by
  simp only [Parts.conditional, hr.expr ctx hctx hguard, hr.expr ctx hctx hthen,
    hr.expr ctx hctx helse]
  rfl

omit hr hctx in
/-- A success node goes on with the same target. -/
theorem target_bind {α : Type} {f g : Ir.Target → Lower α} {index : Nat} {values : List Ir.Expr}
    {ty : Ir.Ty} (h : Indistinct ts ts' (.success index values ty))
    (hfg : ∀ t, Indistinct ts ts' t.body → f t = g t) :
    target (ctx.withTargets ts) index >>= f = target (ctx.withTargets ts') index >>= g := by
  obtain ⟨t, ht, ht', hbody⟩ := h.selected
  simp only [target, Context.targets_withTargets, ht, ht', Lower.ofOption, pure_bind, hfg t hbody]

/-- A node that is an expression is lowered to the same with any targets that it cannot tell
apart. -/
theorem exprCore (h : Indistinct ts ts' e) :
    r.exprCore (ctx.withTargets ts) hoists e = r.exprCore (ctx.withTargets ts') hoists e := by
  have hchild : (∀ k, e.scopes k = e.children.map (k, ·)) → ∀ c ∈ e.children,
      Indistinct ts ts' c := fun hscopes c hc => h.child hscopes hc
  cases e with
  | literal | ident | imported | object => rfl
  | option value =>
    cases value with
    | none => rfl
    | some value => exact hr.expr ctx hctx (hchild (fun _ => rfl) value (.head _)) hoists
  | aggregate kind values loc => exact hr.aggregate hctx (hchild fun _ => rfl) kind loc
  | cast inner =>
    simp only [Parts.exprCore, hr.expr ctx hctx (hchild (fun _ => rfl) inner (.head _))]
    rfl
  | lambda arg body | delegate args body =>
    simp only [Parts.exprCore, hr.closure hctx (hchild (fun _ => rfl) body (.head _))]
  | call callee receiver args isNew =>
    have hall : ∀ e ∈ callee :: (receiver.toList ++ discardUnitArg args), Indistinct ts ts' e := by
      refine List.forall_mem_cons.2 ⟨hchild (fun _ => rfl) callee (.head _), fun arg harg => ?_⟩
      refine hchild (fun _ => rfl) arg (List.mem_cons_of_mem _ ?_)
      exact List.mem_append.2 ((List.mem_append.1 harg).imp_right mem_of_mem_discardUnitArg)
    simp only [Parts.exprCore, hr.call hctx hall]
  | apply f args => exact hr.applied hctx (hchild fun _ => rfl)
  | unary op operand =>
    simp only [Parts.exprCore, hr.expr ctx hctx (hchild (fun _ => rfl) operand (.head _))]
  | binary op left right ty =>
    have hpair : r.operandPair (ctx.withTargets ts) hoists left right =
        r.operandPair (ctx.withTargets ts') hoists left right :=
      hr.operandPair hctx (hchild (fun _ => rfl) left (.head _))
        (hchild (fun _ => rfl) right (.tail _ (.head _)))
    simp only [Parts.exprCore, hpair]
    rfl
  | logical op left right =>
    exact hr.logical hctx (hchild (fun _ => rfl) left (.head _))
      (hchild (fun _ => rfl) right (.tail _ (.head _))) _
  | emit template args =>
    have hargs : ∀ arg ∈ args, Indistinct ts ts' arg := hchild fun _ => rfl
    simp only [Parts.exprCore, hr.operands hctx hargs]
  | get obj kind =>
    simp only [Parts.exprCore, hr.expr ctx hctx (hchild (fun _ => rfl) obj (.head _))]
    rfl
  | getIndex obj index =>
    simp only [Parts.exprCore, hr.operandPair hctx (hchild (fun _ => rfl) obj (.head _))
      (hchild (fun _ => rfl) index (.tail _ (.head _)))]
  | test value kind =>
    simp only [Parts.exprCore, hr.expr ctx hctx (hchild (fun _ => rfl) value (.head _))]
    rfl
  | ifThenElse guard thenExpr elseExpr =>
    exact hr.conditional hctx (hchild (fun _ => rfl) guard (.head _))
      (hchild (fun _ => rfl) thenExpr (.tail _ (.head _)))
      (hchild (fun _ => rfl) elseExpr (.tail _ (.tail _ (.head _)))) _
  -- the targets of a tree take the place of those around
  | decisionTree => rfl
  | success => exact target_bind h fun t ht => hr.expr ctx hctx ht hoists
  | curry inner arity =>
    simp only [Parts.exprCore, hr.expr ctx hctx (hchild (fun _ => rfl) inner (.head _))]
    rfl
  | throw | debugger | set | setIndex | letIn | letRec | sequence | whileLoop | forLoop
  | tryCatch => exact hr.capture hctx h

omit hr hctx in

/-- Whether a node is captured does not depend on the targets around. -/
theorem isCaptured_eq (h : Indistinct ts ts' e) :
    isCaptured (ctx.withTargets ts) e = isCaptured (ctx.withTargets ts') e := by
  cases e with
  | ifThenElse | decisionTree | success => exact h.check ctx false
  | _ => rfl

/-- A node in the place of an expression is lowered to the same with any targets that it cannot tell
apart. -/
theorem exprRule (h : Indistinct ts ts' e) :
    r.exprRule (ctx.withTargets ts) hoists e = r.exprRule (ctx.withTargets ts') hoists e := by
  refine Lower.bind_congr fun s expanded t hexpanded => ?_
  cases expanded with
  | none => simp only [isCaptured_eq h, hr.capture hctx h, hr.exprCore hctx h]
  | some expanded =>
    cases e with
    | call callee receiver args =>
      cases receiver with
      | none => exact hr.expr ctx hctx (h.expansion hctx hexpanded) hoists
      | some => cases hexpanded
    | _ => cases hexpanded

/-! ## Statements -/

/-- Nodes have the same values with any targets that they cannot tell apart. -/
theorem values {es : List Ir.Expr} (h : ∀ e ∈ es, Indistinct ts ts' e) :
    r.values (ctx.withTargets ts) es = r.values (ctx.withTargets ts') es := by
  induction es with
  | nil => rfl
  | cons e es ih =>
    obtain ⟨he, hes⟩ := List.forall_mem_cons.1 h
    simp only [Parts.values, hr.captured hctx he, ih hes]

/-- A recursive let is lowered to the same with any targets that its parts cannot tell apart. -/
theorem recursive {bs : List Ir.Binding} (h : ∀ b ∈ bs, Indistinct ts ts' b.value) :
    r.recursive (ctx.withTargets ts) bs = r.recursive (ctx.withTargets ts') bs := by
  induction bs with
  | nil => rfl
  | cons b bs ih =>
    obtain ⟨hb, hbs⟩ := List.forall_mem_cons.1 h
    have huncast := hb.uncast
    rw [Parts.recursive, Parts.recursive, ih hbs, hr.declare hctx hb]
    cases hvalue : b.value.uncast with
    | lambda arg body | delegate args body =>
      rw [hvalue] at huncast
      have hbody := huncast.child (fun _ => rfl) (List.mem_singleton_self body)
      simp only [hr.localFunction hctx hbody]
    | _ => rfl

/-- A sequence is lowered to the same with any targets that its parts cannot tell apart. -/
theorem sequence {es : List Ir.Expr} (h : ∀ e ∈ es, Indistinct ts ts' e)
    (strategy : Strategy Expr) :
    r.sequence (ctx.withTargets ts) strategy es = r.sequence (ctx.withTargets ts') strategy es := by
  induction es with
  | nil => rfl
  | cons e es ih =>
    obtain ⟨he, hes⟩ := List.forall_mem_cons.1 h
    cases es with
    | nil => exact hr.stmts ctx hctx he strategy
    | cons =>
      simp only [Parts.sequence, withoutTailCall_withTargets,
        hr.stmts ctx.withoutTailCall hctx he] at ih ⊢
      rw [ih hes]

/-- An assignment is lowered to the same with any targets that its parts cannot tell apart. -/
theorem assignment (h : Indistinct ts ts' e) (place : Expr) :
    r.assignment (ctx.withTargets ts) place e = r.assignment (ctx.withTargets ts') place e := by
  simp only [Parts.assignment, h.check, hr.stmts ctx hctx h, hr.captured hctx h]

/-- Declarations of what a target binds are lowered to the same with any targets that their parts
cannot tell apart. -/
theorem bindings {values : List Ir.Expr} (h : ∀ e ∈ values, Indistinct ts ts' e)
    (ids : List Ir.Ident) :
    r.bindings (ctx.withTargets ts) ids values = r.bindings (ctx.withTargets ts') ids values := by
  induction ids generalizing values with
  | nil => rfl
  | cons id ids ih =>
    cases values with
    | nil => rfl
    | cons value values =>
      obtain ⟨hvalue, hvalues⟩ := List.forall_mem_cons.1 h
      simp only [Parts.bindings, hr.declare hctx hvalue, ih hvalues]

/-- Assignments to what a target binds are lowered to the same with any targets that their parts
cannot tell apart. -/
theorem assignments {values : List Ir.Expr} (h : ∀ e ∈ values, Indistinct ts ts' e)
    (ids : List Ir.Ident) :
    r.assignments (ctx.withTargets ts) ids values =
      r.assignments (ctx.withTargets ts') ids values := by
  induction ids generalizing values with
  | nil => rfl
  | cons id ids ih =>
    cases values with
    | nil => rfl
    | cons value values =>
      obtain ⟨hvalue, hvalues⟩ := List.forall_mem_cons.1 h
      simp only [Parts.assignments, withoutTailCall_withTargets,
        hr.stmts ctx.withoutTailCall hctx hvalue, ih hvalues]
      rfl

/-- The bodies of targets are lowered to the same with any targets that their parts cannot tell
apart. -/
theorem targetBodies {targets : List Ir.Target} (h : ∀ t ∈ targets, Indistinct ts ts' t.body)
    (strategy : Strategy Expr) :
    r.targetBodies (ctx.withTargets ts) strategy targets =
      r.targetBodies (ctx.withTargets ts') strategy targets := by
  induction targets with
  | nil => rfl
  | cons t targets ih =>
    obtain ⟨ht, htargets⟩ := List.forall_mem_cons.1 h
    simp only [Parts.targetBodies, hr.stmts ctx hctx ht, ih htargets]

/-- A decision tree has targets of its own, so those around do not matter. -/
theorem decisionTree {d : Ir.Expr} {targets : List Ir.Target}
    (h : Indistinct ts ts' (.decisionTree d targets)) (strategy : Strategy Expr) :
    r.decisionTree (ctx.withTargets ts) strategy d targets =
      r.decisionTree (ctx.withTargets ts') strategy d targets := by
  simp only [Parts.decisionTree, Context.withTargets_withTargets,
    hr.targetBodies hctx fun t ht => h.target ht]
  rfl

/-- A success node is lowered to the same with any lists whose targets at its index cannot be told
apart. -/
theorem success {index : Nat} {values : List Ir.Expr} {ty : Ir.Ty}
    (h : Indistinct ts ts' (.success index values ty)) (strategy : Strategy Expr) :
    r.success (ctx.withTargets ts) strategy index values =
      r.success (ctx.withTargets ts') strategy index values := by
  have hvalues : ∀ e ∈ values, Indistinct ts ts' e := fun e he => h.child (fun _ => rfl) he
  refine target_bind h fun t ht => ?_
  simp only [hr.assignments hctx hvalues, hr.bindings hctx hvalues, hr.stmts ctx hctx ht]

/-- A counting loop is lowered to the same with any targets that its parts cannot tell apart. -/
theorem forLoop {start limit body : Ir.Expr} (hstart : Indistinct ts ts' start)
    (hlimit : Indistinct ts ts' limit) (hbody : Indistinct ts ts' body) (id : Ir.Ident)
    (isUp : Bool) :
    r.forLoop (ctx.withTargets ts) id start limit body isUp =
      r.forLoop (ctx.withTargets ts') id start limit body isUp := by
  simp only [Parts.forLoop, hr.captured hctx hstart, hr.captured hctx hlimit,
    hr.stmts ctx hctx hbody]
  rfl

/-- A handler is lowered to the same with any targets that its parts cannot tell apart. -/
theorem handler {hd : Option Ir.Handler} (h : ∀ b ∈ hd.map (·.body), Indistinct ts ts' b)
    (strategy : Strategy Expr) :
    r.handler (ctx.withTargets ts) strategy hd = r.handler (ctx.withTargets ts') strategy hd := by
  cases hd with
  | none => rfl
  | some hd =>
    simp only [Parts.handler, hr.stmts ctx hctx (h hd.body rfl)]
    rfl

/-- A finalizer is lowered to the same with any targets that its parts cannot tell apart. -/
theorem finalizer {f : Option Ir.Expr} (h : ∀ e ∈ f, Indistinct ts ts' e) :
    r.finalizer (ctx.withTargets ts) f = r.finalizer (ctx.withTargets ts') f := by
  cases f with
  | none => rfl
  | some e => simp only [Parts.finalizer, hr.stmts ctx hctx (h e rfl)]

/-- A conditional statement is lowered to the same with any targets that its parts cannot tell
apart. -/
theorem conditionalStmts {guard thenExpr elseExpr : Ir.Expr} (hguard : Indistinct ts ts' guard)
    (hthen : Indistinct ts ts' thenExpr) (helse : Indistinct ts ts' elseExpr)
    (strategy : Strategy Expr) :
    r.conditionalStmts (ctx.withTargets ts) strategy guard thenExpr elseExpr =
      r.conditionalStmts (ctx.withTargets ts') strategy guard thenExpr elseExpr := by
  have hctx' : ctx.withoutTailCall.file.HasClosedInlines := hctx
  simp only [Parts.conditionalStmts, withoutTailCall_withTargets, hr.captured hctx' hguard,
    hr.stmts ctx hctx hthen, hr.stmts ctx hctx helse]

omit hr hctx in

/-- Whether a cast is dropped does not depend on the targets around. -/
theorem dropsCast_eq (h : Indistinct ts ts' e) (strategy : Strategy Expr) :
    dropsCast (ctx.withTargets ts) strategy e = dropsCast (ctx.withTargets ts') strategy e := by
  simp only [dropsCast, h.check]

/-- A node in the place of statements is lowered to the same with any targets that it cannot tell
apart. -/
theorem stmtsRule (h : Indistinct ts ts' e) (strategy : Strategy Expr) :
    r.stmtsRule (ctx.withTargets ts) strategy e = r.stmtsRule (ctx.withTargets ts') strategy e := by
  have hchild : (∀ k, e.scopes k = e.children.map (k, ·)) → ∀ c ∈ e.children,
      Indistinct ts ts' c := fun hscopes c hc => h.child hscopes hc
  have hctx' : ctx.withoutTailCall.file.HasClosedInlines := hctx
  cases e with
  | cast inner =>
    have hinner := hchild (fun _ => rfl) inner (.head _)
    simp only [Parts.stmtsRule, dropsCast_eq hinner, hr.stmts ctx hctx hinner,
      hr.delivered hctx h]
  | call callee receiver args isNew =>
    have hargs : ∀ arg ∈ discardUnitArg args, Indistinct ts ts' arg := fun arg harg =>
      hchild (fun _ => rfl) arg (List.mem_cons_of_mem _ (List.mem_append_right _
        (mem_of_mem_discardUnitArg harg)))
    simp only [Parts.stmtsRule, Parts.tailCall, withoutTailCall_withTargets,
      hr.values hctx' hargs, hr.delivered hctx h]
    rfl
  | ifThenElse guard thenExpr elseExpr loc =>
    have hguard := hchild (fun _ => rfl) guard (.head _)
    have hthen := hchild (fun _ => rfl) thenExpr (.tail _ (.head _))
    have helse := hchild (fun _ => rfl) elseExpr (.tail _ (.tail _ (.head _)))
    simp only [Parts.stmtsRule, h.check, hr.conditionalStmts hctx hguard hthen helse,
      hr.delivered hctx h]
    rfl
  | decisionTree => exact hr.decisionTree hctx h strategy
  | success => exact hr.success hctx h strategy
  | letIn id value body =>
    simp only [Parts.stmtsRule, hr.declare hctx (hchild (fun _ => rfl) value (.head _)),
      hr.stmts ctx hctx (hchild (fun _ => rfl) body (.tail _ (.head _)))]
  | letRec bs body =>
    have hbs : ∀ b ∈ bs, Indistinct ts ts' b.value := fun b hb =>
      hchild (fun _ => rfl) b.value (List.mem_append_left _ (List.mem_map_of_mem hb))
    have hbody := hchild (fun _ => rfl) body (List.mem_append_right _ (.head _))
    simp only [Parts.stmtsRule, hr.recursive hctx hbs, hr.stmts ctx hctx hbody]
  | sequence es => exact hr.sequence hctx (hchild fun _ => rfl) strategy
  | set target field value loc =>
    have htarget := hchild (fun _ => rfl) target (.head _)
    have hvalue := hchild (fun _ => rfl) value (.tail _ (.head _))
    simp only [Parts.stmtsRule, withoutTailCall_withTargets, hr.captured hctx' htarget,
      hr.assignment hctx' hvalue]
  | setIndex target index value loc =>
    have htarget := hchild (fun _ => rfl) target (.head _)
    have hindex := hchild (fun _ => rfl) index (.tail _ (.head _))
    have hvalue := hchild (fun _ => rfl) value (.tail _ (.tail _ (.head _)))
    simp only [Parts.stmtsRule, withoutTailCall_withTargets, hr.captured hctx' htarget,
      hr.captured hctx' hindex, hr.assignment hctx' hvalue]
  | whileLoop guard body =>
    simp only [Parts.stmtsRule, withoutTailCall_withTargets,
      hr.captured hctx' (hchild (fun _ => rfl) guard (.head _)),
      hr.stmts ctx.withoutTailCall hctx (hchild (fun _ => rfl) body (.tail _ (.head _)))]
  | forLoop id start limit body isUp loc =>
    have hstart := hchild (fun _ => rfl) start (.head _)
    have hlimit := hchild (fun _ => rfl) limit (.tail _ (.head _))
    have hbody := hchild (fun _ => rfl) body (.tail _ (.tail _ (.head _)))
    simp only [Parts.stmtsRule, withoutTailCall_withTargets, hr.forLoop hctx' hstart hlimit hbody]
  | tryCatch body hd f loc =>
    have hbody := hchild (fun _ => rfl) body (.head _)
    have hhandler : ∀ b ∈ hd.map (·.body), Indistinct ts ts' b := fun b hb =>
      hchild (fun _ => rfl) b (List.mem_cons_of_mem _ (List.mem_append_left _
        (Option.mem_toList.2 hb)))
    have hfinalizer : ∀ e ∈ f, Indistinct ts ts' e := fun e he =>
      hchild (fun _ => rfl) e (List.mem_cons_of_mem _ (List.mem_append_right _
        (Option.mem_toList.2 he)))
    simp only [Parts.stmtsRule, withoutTailCall_withTargets, hr.stmts _ hctx' hbody,
      hr.handler hctx' hhandler, hr.finalizer hctx' hfinalizer]
  | throw error =>
    cases error with
    | none => rfl
    | some error =>
      simp only [Parts.stmtsRule, withoutTailCall_withTargets,
        hr.captured hctx' (hchild (fun _ => rfl) error (.head _))]
  | debugger => rfl
  | emit template args isStatement =>
    cases isStatement with
    | false => exact hr.delivered hctx h strategy
    | true =>
      have hargs : ∀ arg ∈ args, Indistinct ts ts' arg := hchild fun _ => rfl
      simp only [Parts.stmtsRule, withoutTailCall_withTargets, hr.operands hctx' hargs]
  | literal | option | aggregate | ident | imported | lambda | delegate | object | apply | unary
  | binary | logical | get | getIndex | test | curry => exact hr.delivered hctx h strategy

end Parts.IgnoresTargets

/-! ## The rules -/

/-- The rules do not see the targets around, at any depth. -/
theorem rules_ignoreTargets (n : Nat) : (rules n).IgnoresTargets := by
  induction n with
  | zero => exact ⟨fun _ _ _ _ _ _ _ => rfl, fun _ _ _ _ _ _ _ => rfl⟩
  | succ n ih =>
    exact ⟨fun _ hctx _ _ _ h _ => ih.exprRule hctx h,
      fun _ hctx _ _ _ h strategy => ih.stmtsRule hctx h strategy⟩

/-! ## Success nodes -/

section
variable {n : Nat} {ctx : Context} {ts : List Target} {index : Nat} {t : Target}

/-- The target at an index is the one in the list. -/
theorem target_withTargets (ht : ts[index]? = some t) :
    target (ctx.withTargets ts) index = pure t := by
  rw [target, Context.targets_withTargets, ht]
  rfl

variable (hctx : ctx.file.HasClosedInlines) (ht : ts[index]? = some t) (hbody : t.body.Scoped 0)
include hctx ht hbody

/-- A success node binds its values, and goes on with the body of the target outside the tree. -/
theorem stmts_success {strategy : Strategy Expr} (hjoin : strategy.joinVariable? = none)
    (values : List Ir.Expr) (ty : Ir.Ty) :
    (rules (n + 1)).stmts (ctx.withTargets ts) strategy (.success index values ty) = do
      let binds ← (rules n).bindings (ctx.withTargets ts) t.bound values
      return binds ++ (← (rules n).stmts ctx strategy t.body) := by
  have hstmts := (rules_ignoreTargets n).stmts ctx hctx (.of_closed hbody ts ctx.targets) strategy
  show (rules n).success (ctx.withTargets ts) strategy index values = _
  cases strategy with
  | join => cases hjoin
  | ret | effect | assign =>
    simp only [Parts.success, target_withTargets ht, pure_bind, hstmts]
    rfl

/-- A success node without values whose target is an expression is that expression. -/
theorem expr_success (hexpr : isStatement ctx false t.body = .ok false) (hoists : Bool)
    (ty : Ir.Ty) :
    (rules (n + 1)).expr (ctx.withTargets ts) hoists (.success index [] ty) =
      (rules n).expr ctx hoists t.body := by
  have hcheck :
      Lower.isStatement (ctx.withTargets ts) false (.success index [] ty) = pure false := by
    rw [Lower.isStatement, Indistinct.isStatement_success ht hbody, List.isEmpty_nil, if_pos rfl,
      hexpr]
    rfl
  have hvalue :
      (rules n).expr (ctx.withTargets ts) hoists t.body = (rules n).expr ctx hoists t.body :=
    (rules_ignoreTargets n).expr ctx hctx (.of_closed hbody ts ctx.targets) hoists
  show (Lower.isStatement (ctx.withTargets ts) false (.success index [] ty) >>= fun captured =>
    if captured then _ else target (ctx.withTargets ts) index >>= _) = _
  rw [hcheck, pure_bind, if_neg Bool.false_ne_true, target_withTargets ht, pure_bind, hvalue]

end

end TypedLowering.Dart
