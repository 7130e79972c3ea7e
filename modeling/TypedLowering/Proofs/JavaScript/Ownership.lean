import TypedLowering.JavaScript.Lower.Declaration
import TypedLowering.Proofs.Lowering.Ownership

/-!
# Lowering to JavaScript does not see the targets around

Where parts are lowered to the same with any two lists of targets that they cannot tell apart, so
are nodes (`Parts.IgnoresTargets`), and so are all nodes under the rules (`rules_ignoreTargets`). -/

namespace TypedLowering.JavaScript

open Ir (Target)

/-- Whether parts are lowered to the same with all targets that they cannot tell apart. -/
structure Parts.IgnoresTargets (r : Parts) : Prop where
  expr : ∀ (ctx : Context), ctx.file.HasClosedInlines → ∀ {ts ts' : List Target} {e : Ir.Expr},
    Indistinct ts ts' e → r.expr (ctx.withTargets ts) e = r.expr (ctx.withTargets ts') e
  stmts : ∀ (ctx : Context), ctx.file.HasClosedInlines → ∀ {ts ts' : List Target} {e : Ir.Expr},
    Indistinct ts ts' e → ∀ strategy,
      r.stmts (ctx.withTargets ts) strategy e = r.stmts (ctx.withTargets ts') strategy e

namespace Parts.IgnoresTargets

open Context (withoutTailCall_withTargets withTailCall_withTargets)

variable {r : Parts} (hr : r.IgnoresTargets) {ctx : Context} (hctx : ctx.file.HasClosedInlines)
  {ts ts' : List Target} {e : Ir.Expr}
include hr hctx

/-! ## Parts -/

/-- Expressions are lowered to the same with any targets that they cannot tell apart. -/
theorem exprs {es : List Ir.Expr} (h : ∀ e ∈ es, Indistinct ts ts' e) :
    r.exprs (ctx.withTargets ts) es = r.exprs (ctx.withTargets ts') es := by
  induction es with
  | nil => rfl
  | cons e es ih =>
    obtain ⟨he, hes⟩ := List.forall_mem_cons.1 h
    rw [Parts.exprs, Parts.exprs, hr.expr ctx hctx he, ih hes]

/-- A value is delivered the same way with any targets that its node cannot tell apart. -/
theorem delivered (h : Indistinct ts ts' e) (strategy : Strategy Expr) :
    r.delivered (ctx.withTargets ts) strategy e = r.delivered (ctx.withTargets ts') strategy e := by
  simp only [Parts.delivered, withoutTailCall_withTargets, hr.expr ctx.withoutTailCall hctx h]

/-- A declaration is lowered to the same with any targets that its parts cannot tell apart. -/
theorem declare (h : Indistinct ts ts' e) (id : Ir.Ident) :
    r.declare (ctx.withTargets ts) id e = r.declare (ctx.withTargets ts') id e := by
  simp only [Parts.declare, withoutTailCall_withTargets, h.check,
    hr.expr ctx.withoutTailCall hctx h, hr.stmts ctx.withoutTailCall hctx h]

/-- A node is called at once the same way with any targets that it cannot tell apart. -/
theorem invoked (h : Indistinct ts ts' e) :
    r.invoked (ctx.withTargets ts) e = r.invoked (ctx.withTargets ts') e := by
  simp only [Parts.invoked, withoutTailCall_withTargets, hr.stmts ctx.withoutTailCall hctx h]

/-- A closure is lowered to the same with any targets that its parts cannot tell apart. -/
theorem closure (h : Indistinct ts ts' e) (params : List Ir.Ident) :
    r.closure (ctx.withTargets ts) params e = r.closure (ctx.withTargets ts') params e := by
  simp only [Parts.closure, withoutTailCall_withTargets, hr.stmts ctx.withoutTailCall hctx h]

/-- A function is lowered to the same with any targets that its parts cannot tell apart. -/
theorem function (h : Indistinct ts ts' e) (name : Option String) (params : List Ir.Ident) :
    r.function (ctx.withTargets ts) name params e =
      r.function (ctx.withTargets ts') name params e := by
  simp only [Parts.function, withoutTailCall_withTargets, withTailCall_withTargets,
    hr.stmts ctx.withoutTailCall hctx h, fun loop => hr.stmts (ctx.withTailCall loop) hctx h]

/-- A local function is lowered to the same with any targets that its parts cannot tell apart. -/
theorem localFunction (h : Indistinct ts ts' e) (id : Ir.Ident) (params : List Ir.Ident) :
    r.localFunction (ctx.withTargets ts) id params e =
      r.localFunction (ctx.withTargets ts') id params e := by
  simp only [Parts.localFunction, hr.function hctx h]

/-! ## Expressions -/

/-- A property list is lowered to the same with any targets that its parts cannot tell apart. -/
theorem properties {values : List Ir.Expr} (h : ∀ e ∈ values, Indistinct ts ts' e)
    (keys : List String) :
    r.properties (ctx.withTargets ts) keys values =
      r.properties (ctx.withTargets ts') keys values := by
  induction keys generalizing values with
  | nil => rfl
  | cons key keys ih =>
    cases values with
    | nil => rfl
    | cons value values =>
      obtain ⟨hvalue, hvalues⟩ := List.forall_mem_cons.1 h
      simp only [Parts.properties, hr.expr ctx hctx hvalue, ih hvalues]

/-- An array, a tuple, a record or a case of a union is lowered to the same with any targets that
its parts cannot tell apart. -/
theorem aggregate {values : List Ir.Expr} (h : ∀ e ∈ values, Indistinct ts ts' e)
    (kind : Ir.Aggregate) :
    r.aggregate (ctx.withTargets ts) kind values =
      r.aggregate (ctx.withTargets ts') kind values := by
  cases kind with
  | array | tuple => simp only [Parts.aggregate, hr.exprs hctx h]
  | record | union =>
    simp only [Parts.aggregate, hr.exprs hctx h]
    rfl
  | anonymous => simp only [Parts.aggregate, hr.properties hctx h]

/-- A member of an object is lowered to the same with any targets that its parts cannot tell
apart. -/
theorem objectMember {m : Ir.ObjectMember} (h : Indistinct ts ts' m.body) :
    r.objectMember (ctx.withTargets ts) m = r.objectMember (ctx.withTargets ts') m := by
  simp only [Parts.objectMember, hr.expr ctx hctx h, hr.function hctx h]

/-- The members of an object are lowered to the same with any targets that their parts cannot tell
apart. -/
theorem objectMembers {ms : List Ir.ObjectMember} (h : ∀ m ∈ ms, Indistinct ts ts' m.body) :
    r.objectMembers (ctx.withTargets ts) ms = r.objectMembers (ctx.withTargets ts') ms := by
  induction ms with
  | nil => rfl
  | cons m ms ih =>
    obtain ⟨hm, hms⟩ := List.forall_mem_cons.1 h
    simp only [Parts.objectMembers, hr.objectMember hctx hm, ih hms]

/-- An application to curried arguments is lowered to the same with any targets that its parts
cannot tell apart. -/
theorem applied {args : List Ir.Expr} (h : ∀ e ∈ args, Indistinct ts ts' e) (f : Expr) :
    r.applied (ctx.withTargets ts) f args = r.applied (ctx.withTargets ts') f args := by
  induction args generalizing f with
  | nil => rfl
  | cons arg args ih =>
    obtain ⟨harg, hargs⟩ := List.forall_mem_cons.1 h
    simp only [Parts.applied, hr.expr ctx hctx harg, ih hargs]

/-- A binary operation is lowered to the same with any targets that its parts cannot tell apart. -/
theorem binary {left right : Ir.Expr} (hleft : Indistinct ts ts' left)
    (hright : Indistinct ts ts' right) (op : Ir.BinaryOp) (ty : Ir.Ty) :
    r.binary (ctx.withTargets ts) op left right ty =
      r.binary (ctx.withTargets ts') op left right ty := by
  unfold Parts.binary
  rw [hr.expr ctx hctx hleft, hr.expr ctx hctx hright]
  rfl

/-- The place that an assignment writes to is lowered to the same with any targets that its parts
cannot tell apart. -/
theorem place (h : Indistinct ts ts' e) (field : Option String) :
    r.place (ctx.withTargets ts) e field = r.place (ctx.withTargets ts') e field := by
  simp only [Parts.place, hr.expr ctx hctx h]

/-- The element that an assignment writes to is lowered to the same with any targets that its parts
cannot tell apart. -/
theorem element {target index : Ir.Expr} (htarget : Indistinct ts ts' target)
    (hindex : Indistinct ts ts' index) :
    r.element (ctx.withTargets ts) target index = r.element (ctx.withTargets ts') target index := by
  simp only [Parts.element, hr.expr ctx hctx htarget, hr.expr ctx hctx hindex]

omit hr hctx in
/-- A success node goes on with the same target. -/
theorem target_bind {α : Type} {f g : Ir.Target → Lower α} {index : Nat} {values : List Ir.Expr}
    {ty : Ir.Ty} (h : Indistinct ts ts' (.success index values ty))
    (hfg : ∀ t, Indistinct ts ts' t.body → f t = g t) :
    target (ctx.withTargets ts) index >>= f = target (ctx.withTargets ts') index >>= g := by
  obtain ⟨t, ht, ht', hbody⟩ := h.selected
  simp only [target, Context.targets_withTargets, ht, ht', Lower.ofOption, pure_bind, hfg t hbody]

/-- A node that is an expression is lowered to the same with any targets that it cannot tell
apart. -/
theorem exprCore (h : Indistinct ts ts' e) :
    r.exprCore (ctx.withTargets ts) e = r.exprCore (ctx.withTargets ts') e := by
  have hchild : (∀ k, e.scopes k = e.children.map (k, ·)) → ∀ c ∈ e.children,
      Indistinct ts ts' c := fun hscopes c hc => h.child hscopes hc
  cases e with
  | literal | ident | imported => rfl
  | option value =>
    cases value with
    | none => rfl
    | some value => exact hr.expr ctx hctx (hchild (fun _ => rfl) value (.head _))
  | aggregate kind values => exact hr.aggregate hctx (hchild fun _ => rfl) kind
  | cast inner => exact hr.expr ctx hctx (hchild (fun _ => rfl) inner (.head _))
  | lambda arg body | delegate args body =>
    exact hr.closure hctx (hchild (fun _ => rfl) body (.head _)) _
  | object members ty base =>
    have hmembers : ∀ m ∈ members, Indistinct ts ts' m.body := fun m hm =>
      hchild (fun _ => rfl) m.body (List.mem_append_left _ (List.mem_map_of_mem hm))
    cases base with
    | none => simp only [Parts.exprCore, hr.objectMembers hctx hmembers]
    | some base =>
      have hbase := hchild (fun _ => rfl) base (List.mem_append_right _ (.head _))
      simp only [Parts.exprCore, hr.objectMembers hctx hmembers, hr.expr ctx hctx hbase]
  | call callee receiver args isNew =>
    have hcallee := hchild (fun _ => rfl) callee (.head _)
    have hargs : ∀ arg ∈ receiver.toList ++ discardUnitArg args, Indistinct ts ts' arg := by
      intro arg harg
      refine hchild (fun _ => rfl) arg (List.mem_cons_of_mem _ ?_)
      exact List.mem_append.2 ((List.mem_append.1 harg).imp_right mem_of_mem_discardUnitArg)
    simp only [Parts.exprCore, Parts.call, hr.expr ctx hctx hcallee, hr.exprs hctx hargs]
  | apply f args =>
    have hf := hchild (fun _ => rfl) f (.head _)
    have hargs := fun arg harg => hchild (fun _ => rfl) arg (List.mem_cons_of_mem f harg)
    simp only [Parts.exprCore, hr.expr ctx hctx hf, hr.applied hctx hargs]
  | unary op operand =>
    simp only [Parts.exprCore, hr.expr ctx hctx (hchild (fun _ => rfl) operand (.head _))]
  | binary op left right ty =>
    exact hr.binary hctx (hchild (fun _ => rfl) left (.head _))
      (hchild (fun _ => rfl) right (.tail _ (.head _))) op ty
  | logical op left right =>
    simp only [Parts.exprCore, hr.expr ctx hctx (hchild (fun _ => rfl) left (.head _)),
      hr.expr ctx hctx (hchild (fun _ => rfl) right (.tail _ (.head _)))]
  | emit template args =>
    have hargs : ∀ arg ∈ args, Indistinct ts ts' arg := hchild fun _ => rfl
    simp only [Parts.exprCore, hr.exprs hctx hargs]
  | get obj kind =>
    simp only [Parts.exprCore, hr.expr ctx hctx (hchild (fun _ => rfl) obj (.head _))]
  | getIndex obj index =>
    exact hr.element hctx (hchild (fun _ => rfl) obj (.head _))
      (hchild (fun _ => rfl) index (.tail _ (.head _)))
  | set target field value =>
    simp only [Parts.exprCore, hr.place hctx (hchild (fun _ => rfl) target (.head _)),
      hr.expr ctx hctx (hchild (fun _ => rfl) value (.tail _ (.head _)))]
  | setIndex target index value =>
    simp only [Parts.exprCore, hr.element hctx (hchild (fun _ => rfl) target (.head _))
        (hchild (fun _ => rfl) index (.tail _ (.head _))),
      hr.expr ctx hctx (hchild (fun _ => rfl) value (.tail _ (.tail _ (.head _))))]
  | test value kind =>
    simp only [Parts.exprCore, hr.expr ctx hctx (hchild (fun _ => rfl) value (.head _))]
    rfl
  | ifThenElse guard thenExpr elseExpr =>
    simp only [Parts.exprCore, hr.expr ctx hctx (hchild (fun _ => rfl) guard (.head _)),
      hr.expr ctx hctx (hchild (fun _ => rfl) thenExpr (.tail _ (.head _))),
      hr.expr ctx hctx (hchild (fun _ => rfl) elseExpr (.tail _ (.tail _ (.head _))))]
  -- the targets of a tree take the place of those around
  | decisionTree => rfl
  | success => exact target_bind h fun t ht => hr.expr ctx hctx ht
  | sequence exprs =>
    have hexprs : ∀ item ∈ exprs, Indistinct ts ts' item := hchild fun _ => rfl
    simp only [Parts.exprCore, hr.exprs hctx hexprs]
  | curry inner arity =>
    simp only [Parts.exprCore, hr.expr ctx hctx (hchild (fun _ => rfl) inner (.head _))]
    rfl
  | throw | debugger | letIn | letRec | whileLoop | forLoop | tryCatch => exact hr.invoked hctx h

omit hr hctx in

/-- Whether a node needs an arrow function does not depend on the targets around. -/
theorem isInvoked_eq (h : Indistinct ts ts' e) :
    isInvoked (ctx.withTargets ts) e = isInvoked (ctx.withTargets ts') e := by
  cases e with
  | decisionTree | success => exact h.check ctx false
  | sequence exprs =>
    exact Indistinct.anyM_congr fun item hitem => (h.child (fun _ => rfl) hitem).check ctx false
  | _ => rfl

/-- A node in the place of an expression is lowered to the same with any targets that it cannot tell
apart. -/
theorem exprRule (h : Indistinct ts ts' e) :
    r.exprRule (ctx.withTargets ts) e = r.exprRule (ctx.withTargets ts') e := by
  refine Lower.bind_congr fun s expanded t hexpanded => ?_
  cases expanded with
  | none => simp only [isInvoked_eq h, hr.invoked hctx h, hr.exprCore hctx h]
  | some expanded =>
    cases e with
    | call callee receiver args =>
      cases receiver with
      | none => exact hr.expr ctx hctx (h.expansion hctx hexpanded)
      | some => cases hexpanded
    | _ => cases hexpanded

/-! ## Statements -/

/-- The writes to the slots of a loop are lowered to the same with any targets that their parts
cannot tell apart. -/
theorem slotWrites {args : List Ir.Expr} (h : ∀ e ∈ args, Indistinct ts ts' e)
    (slots : List (Ir.Ident × String)) :
    r.slotWrites (ctx.withTargets ts) slots args =
      r.slotWrites (ctx.withTargets ts') slots args := by
  induction slots generalizing args with
  | nil => rfl
  | cons slot slots ih =>
    cases args with
    | nil => rfl
    | cons arg args =>
      obtain ⟨harg, hargs⟩ := List.forall_mem_cons.1 h
      simp only [Parts.slotWrites, withoutTailCall_withTargets,
        hr.expr ctx.withoutTailCall hctx harg, ih hargs]

/-- A recursive let is lowered to the same with any targets that its parts cannot tell apart. -/
theorem recursive {bs : List Ir.Binding} (h : ∀ b ∈ bs, Indistinct ts ts' b.value) :
    r.recursive (ctx.withTargets ts) bs = r.recursive (ctx.withTargets ts') bs := by
  induction bs with
  | nil => rfl
  | cons b bs ih =>
    obtain ⟨hb, hbs⟩ := List.forall_mem_cons.1 h
    have huncast := hb.uncast
    rw [Parts.recursive, Parts.recursive, ih hbs, hr.declare hctx hb]
    cases hvalue : b.value.uncast with
    | lambda arg body | delegate args body =>
      rw [hvalue] at huncast
      have hbody := huncast.child (fun _ => rfl) (List.mem_singleton_self body)
      simp only [hr.localFunction hctx hbody]
    | _ => rfl

/-- A sequence is lowered to the same with any targets that its parts cannot tell apart. -/
theorem sequence {es : List Ir.Expr} (h : ∀ e ∈ es, Indistinct ts ts' e)
    (strategy : Strategy Expr) :
    r.sequence (ctx.withTargets ts) strategy es = r.sequence (ctx.withTargets ts') strategy es := by
  induction es with
  | nil => rfl
  | cons e es ih =>
    obtain ⟨he, hes⟩ := List.forall_mem_cons.1 h
    cases es with
    | nil => exact hr.stmts ctx hctx he strategy
    | cons =>
      simp only [Parts.sequence, withoutTailCall_withTargets,
        hr.stmts ctx.withoutTailCall hctx he] at ih ⊢
      rw [ih hes]

/-- An assignment is lowered to the same with any targets that its parts cannot tell apart. -/
theorem assignment (h : Indistinct ts ts' e) (place : Expr) (loc : Option Ir.Location) :
    r.assignment (ctx.withTargets ts) place e loc =
      r.assignment (ctx.withTargets ts') place e loc := by
  simp only [Parts.assignment, h.check, hr.stmts ctx hctx h, hr.expr ctx hctx h]

/-- Declarations of what a target binds are lowered to the same with any targets that their parts
cannot tell apart. -/
theorem bindings {values : List Ir.Expr} (h : ∀ e ∈ values, Indistinct ts ts' e)
    (ids : List Ir.Ident) :
    r.bindings (ctx.withTargets ts) ids values = r.bindings (ctx.withTargets ts') ids values := by
  induction ids generalizing values with
  | nil => rfl
  | cons id ids ih =>
    cases values with
    | nil => rfl
    | cons value values =>
      obtain ⟨hvalue, hvalues⟩ := List.forall_mem_cons.1 h
      simp only [Parts.bindings, hr.declare hctx hvalue, ih hvalues]

/-- Assignments to what a target binds are lowered to the same with any targets that their parts
cannot tell apart. -/
theorem assignments {values : List Ir.Expr} (h : ∀ e ∈ values, Indistinct ts ts' e)
    (ids : List Ir.Ident) :
    r.assignments (ctx.withTargets ts) ids values =
      r.assignments (ctx.withTargets ts') ids values := by
  induction ids generalizing values with
  | nil => rfl
  | cons id ids ih =>
    cases values with
    | nil => rfl
    | cons value values =>
      obtain ⟨hvalue, hvalues⟩ := List.forall_mem_cons.1 h
      simp only [Parts.assignments, withoutTailCall_withTargets,
        hr.stmts ctx.withoutTailCall hctx hvalue, ih hvalues]

/-- The cases of targets are lowered to the same with any targets that their parts cannot tell
apart. -/
theorem cases {targets : List Ir.Target} (h : ∀ t ∈ targets, Indistinct ts ts' t.body)
    (strategy : Strategy Expr) (index : Nat) :
    r.cases (ctx.withTargets ts) strategy index targets =
      r.cases (ctx.withTargets ts') strategy index targets := by
  induction targets generalizing index with
  | nil => rfl
  | cons t targets ih =>
    obtain ⟨ht, htargets⟩ := List.forall_mem_cons.1 h
    simp only [Parts.cases, hr.stmts ctx hctx ht, ih htargets]

/-- A decision tree has targets of its own, so those around do not matter. -/
theorem decisionTree {d : Ir.Expr} {targets : List Ir.Target}
    (h : Indistinct ts ts' (.decisionTree d targets)) (strategy : Strategy Expr) :
    r.decisionTree (ctx.withTargets ts) strategy d targets =
      r.decisionTree (ctx.withTargets ts') strategy d targets := by
  simp only [Parts.decisionTree, Context.withTargets_withTargets,
    hr.cases hctx fun t ht => h.target ht]
  rfl

/-- A success node is lowered to the same with any lists whose targets at its index cannot be told
apart. -/
theorem success {index : Nat} {values : List Ir.Expr} {ty : Ir.Ty}
    (h : Indistinct ts ts' (.success index values ty)) (strategy : Strategy Expr) :
    r.success (ctx.withTargets ts) strategy index values =
      r.success (ctx.withTargets ts') strategy index values := by
  have hvalues : ∀ e ∈ values, Indistinct ts ts' e := fun e he => h.child (fun _ => rfl) he
  refine target_bind h fun t ht => ?_
  simp only [hr.assignments hctx hvalues, hr.bindings hctx hvalues, hr.stmts ctx hctx ht]

/-- A counting loop is lowered to the same with any targets that its parts cannot tell apart. -/
theorem forLoop {start limit body : Ir.Expr} (hstart : Indistinct ts ts' start)
    (hlimit : Indistinct ts ts' limit) (hbody : Indistinct ts ts' body) (id : Ir.Ident)
    (isUp : Bool) (loc : Option Ir.Location) :
    r.forLoop (ctx.withTargets ts) id start limit body isUp loc =
      r.forLoop (ctx.withTargets ts') id start limit body isUp loc := by
  simp only [Parts.forLoop, hr.expr ctx hctx hstart, hr.expr ctx hctx hlimit,
    hr.stmts ctx hctx hbody]

/-- A handler is lowered to the same with any targets that its parts cannot tell apart. -/
theorem handler {hd : Option Ir.Handler} (h : ∀ b ∈ hd.map (·.body), Indistinct ts ts' b)
    (strategy : Strategy Expr) :
    r.handler (ctx.withTargets ts) strategy hd = r.handler (ctx.withTargets ts') strategy hd := by
  cases hd with
  | none => rfl
  | some hd => simp only [Parts.handler, hr.stmts ctx hctx (h hd.body rfl)]

/-- A finalizer is lowered to the same with any targets that its parts cannot tell apart. -/
theorem finalizer {f : Option Ir.Expr} (h : ∀ e ∈ f, Indistinct ts ts' e) :
    r.finalizer (ctx.withTargets ts) f = r.finalizer (ctx.withTargets ts') f := by
  cases f with
  | none => rfl
  | some e => simp only [Parts.finalizer, hr.stmts ctx hctx (h e rfl)]

/-- A conditional is lowered to the same with any targets that its parts cannot tell apart. -/
theorem conditional {guard thenExpr elseExpr : Ir.Expr} (hguard : Indistinct ts ts' guard)
    (hthen : Indistinct ts ts' thenExpr) (helse : Indistinct ts ts' elseExpr)
    (strategy : Strategy Expr) (loc : Option Ir.Location) :
    r.conditional (ctx.withTargets ts) strategy guard thenExpr elseExpr loc =
      r.conditional (ctx.withTargets ts') strategy guard thenExpr elseExpr loc := by
  simp only [Parts.conditional, withoutTailCall_withTargets,
    hr.expr ctx.withoutTailCall hctx hguard, hr.stmts ctx hctx hthen, hr.stmts ctx hctx helse]

/-- A node in the place of statements is lowered to the same with any targets that it cannot tell
apart. -/
theorem stmtsRule (h : Indistinct ts ts' e) (strategy : Strategy Expr) :
    r.stmtsRule (ctx.withTargets ts) strategy e = r.stmtsRule (ctx.withTargets ts') strategy e := by
  have hchild : (∀ k, e.scopes k = e.children.map (k, ·)) → ∀ c ∈ e.children,
      Indistinct ts ts' c := fun hscopes c hc => h.child hscopes hc
  cases e with
  | cast inner => exact hr.stmts ctx hctx (hchild (fun _ => rfl) inner (.head _)) strategy
  | call callee receiver args isNew =>
    have hargs : ∀ arg ∈ discardUnitArg args, Indistinct ts ts' arg := fun arg harg =>
      hchild (fun _ => rfl) arg (List.mem_cons_of_mem _ (List.mem_append_right _
        (mem_of_mem_discardUnitArg harg)))
    simp only [Parts.stmtsRule, Parts.tailCall, hr.slotWrites hctx hargs, hr.delivered hctx h]
    rfl
  | ifThenElse guard thenExpr elseExpr loc =>
    have hguard := hchild (fun _ => rfl) guard (.head _)
    have hthen := hchild (fun _ => rfl) thenExpr (.tail _ (.head _))
    have helse := hchild (fun _ => rfl) elseExpr (.tail _ (.tail _ (.head _)))
    simp only [Parts.stmtsRule, h.check, hr.conditional hctx hguard hthen helse,
      hr.delivered hctx h]
    rfl
  | decisionTree => exact hr.decisionTree hctx h strategy
  | success => exact hr.success hctx h strategy
  | letIn id value body =>
    simp only [Parts.stmtsRule, hr.declare hctx (hchild (fun _ => rfl) value (.head _)),
      hr.stmts ctx hctx (hchild (fun _ => rfl) body (.tail _ (.head _)))]
  | letRec bs body =>
    have hbs : ∀ b ∈ bs, Indistinct ts ts' b.value := fun b hb =>
      hchild (fun _ => rfl) b.value (List.mem_append_left _ (List.mem_map_of_mem hb))
    have hbody := hchild (fun _ => rfl) body (List.mem_append_right _ (.head _))
    simp only [Parts.stmtsRule, hr.recursive hctx hbs, hr.stmts ctx hctx hbody]
  | sequence es => exact hr.sequence hctx (hchild fun _ => rfl) strategy
  | set target field value loc =>
    have htarget := hchild (fun _ => rfl) target (.head _)
    have hvalue := hchild (fun _ => rfl) value (.tail _ (.head _))
    have hctx : ctx.withoutTailCall.file.HasClosedInlines := hctx
    simp only [Parts.stmtsRule, withoutTailCall_withTargets, hr.place hctx htarget,
      hr.assignment hctx hvalue]
  | setIndex target index value loc =>
    have htarget := hchild (fun _ => rfl) target (.head _)
    have hindex := hchild (fun _ => rfl) index (.tail _ (.head _))
    have hvalue := hchild (fun _ => rfl) value (.tail _ (.tail _ (.head _)))
    have hctx : ctx.withoutTailCall.file.HasClosedInlines := hctx
    simp only [Parts.stmtsRule, withoutTailCall_withTargets, hr.element hctx htarget hindex,
      hr.assignment hctx hvalue]
  | whileLoop guard body =>
    simp only [Parts.stmtsRule, withoutTailCall_withTargets,
      hr.expr ctx.withoutTailCall hctx (hchild (fun _ => rfl) guard (.head _)),
      hr.stmts ctx.withoutTailCall hctx (hchild (fun _ => rfl) body (.tail _ (.head _)))]
  | forLoop id start limit body isUp loc =>
    have hstart := hchild (fun _ => rfl) start (.head _)
    have hlimit := hchild (fun _ => rfl) limit (.tail _ (.head _))
    have hbody := hchild (fun _ => rfl) body (.tail _ (.tail _ (.head _)))
    have hctx : ctx.withoutTailCall.file.HasClosedInlines := hctx
    simp only [Parts.stmtsRule, withoutTailCall_withTargets, hr.forLoop hctx hstart hlimit hbody]
  | tryCatch body hd f loc =>
    have hbody := hchild (fun _ => rfl) body (.head _)
    have hhandler : ∀ b ∈ hd.map (·.body), Indistinct ts ts' b := fun b hb =>
      hchild (fun _ => rfl) b (List.mem_cons_of_mem _ (List.mem_append_left _
        (Option.mem_toList.2 hb)))
    have hfinalizer : ∀ e ∈ f, Indistinct ts ts' e := fun e he =>
      hchild (fun _ => rfl) e (List.mem_cons_of_mem _ (List.mem_append_right _
        (Option.mem_toList.2 he)))
    have hctx : ctx.withoutTailCall.file.HasClosedInlines := hctx
    simp only [Parts.stmtsRule, withoutTailCall_withTargets, hr.stmts _ hctx hbody,
      hr.handler hctx hhandler, hr.finalizer hctx hfinalizer]
  | throw error =>
    cases error with
    | none => rfl
    | some error =>
      simp only [Parts.stmtsRule, withoutTailCall_withTargets,
        hr.expr ctx.withoutTailCall hctx (hchild (fun _ => rfl) error (.head _))]
  | debugger => rfl
  | emit template args isStatement =>
    cases isStatement with
    | false => exact hr.delivered hctx h strategy
    | true =>
      have hargs : ∀ arg ∈ args, Indistinct ts ts' arg := hchild fun _ => rfl
      have hctx : ctx.withoutTailCall.file.HasClosedInlines := hctx
      simp only [Parts.stmtsRule, withoutTailCall_withTargets, hr.exprs hctx hargs]
  | literal | option | aggregate | ident | imported | lambda | delegate | object | apply | unary
  | binary | logical | get | getIndex | test | curry => exact hr.delivered hctx h strategy

end Parts.IgnoresTargets

/-! ## The rules -/

/-- The rules do not see the targets around, at any depth. -/
theorem rules_ignoreTargets (n : Nat) : (rules n).IgnoresTargets := by
  induction n with
  | zero => exact ⟨fun _ _ _ _ _ _ => rfl, fun _ _ _ _ _ _ _ => rfl⟩
  | succ n ih =>
    exact ⟨fun _ hctx _ _ _ h => ih.exprRule hctx h,
      fun _ hctx _ _ _ h strategy => ih.stmtsRule hctx h strategy⟩

/-! ## Success nodes -/

section
variable {n : Nat} {ctx : Context} {ts : List Target} {index : Nat} {t : Target}

/-- The target at an index is the one in the list. -/
theorem target_withTargets (ht : ts[index]? = some t) :
    Parts.target (ctx.withTargets ts) index = pure t := by
  rw [Parts.target, Context.targets_withTargets, ht]
  rfl

variable (hctx : ctx.file.HasClosedInlines) (ht : ts[index]? = some t) (hbody : t.body.Scoped 0)
include hctx ht hbody

/-- A success node binds its values, and goes on with the body of the target outside the tree. -/
theorem stmts_success {strategy : Strategy Expr} (hjoin : strategy.joinVariable? = none)
    (values : List Ir.Expr) (ty : Ir.Ty) :
    (rules (n + 1)).stmts (ctx.withTargets ts) strategy (.success index values ty) = do
      let binds ← (rules n).bindings (ctx.withTargets ts) t.bound values
      return binds ++ (← (rules n).stmts ctx strategy t.body) := by
  have hstmts := (rules_ignoreTargets n).stmts ctx hctx (.of_closed hbody ts ctx.targets) strategy
  show (rules n).success (ctx.withTargets ts) strategy index values = _
  cases strategy with
  | join => cases hjoin
  | ret | effect | assign =>
    simp only [Parts.success, target_withTargets ht, pure_bind, hstmts]
    rfl

/-- A success node without values whose target is an expression is that expression. -/
theorem expr_success (hexpr : isStatement ctx false t.body = .ok false) (ty : Ir.Ty) :
    (rules (n + 1)).expr (ctx.withTargets ts) (.success index [] ty) =
      (rules n).expr ctx t.body := by
  have hcheck :
      Lower.isStatement (ctx.withTargets ts) false (.success index [] ty) = pure false := by
    rw [Lower.isStatement, Indistinct.isStatement_success ht hbody, List.isEmpty_nil, if_pos rfl,
      hexpr]
    rfl
  have hvalue := (rules_ignoreTargets n).expr ctx hctx (.of_closed hbody ts ctx.targets)
  show (Lower.isStatement (ctx.withTargets ts) false (.success index [] ty) >>= fun invoked =>
    if invoked then _ else (Parts.target (ctx.withTargets ts) index >>= _) >>= _) = _
  rw [hcheck, pure_bind, if_neg Bool.false_ne_true, target_withTargets ht, pure_bind, hvalue]
  exact bind_pure _

end

end TypedLowering.JavaScript
