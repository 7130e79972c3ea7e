import TypedLowering.JavaScript.Lower.Declaration
import TypedLowering.Proofs.Ir.Handlers
import TypedLowering.Proofs.Lowering.Comparison

/-!
# Rules that know where a node stands

The dispatcher of a decision tree, the body of a selected target and the body of a handler have
something else around them than the node that is lowered. `Places` are rules in which these may be
lowered in other ways than the other parts, and so may a rethrow. The rules of the back end are such
rules (`rules_succ`). Where two `Places` lower all that is in their reach alike, up to a comparison,
they lower nodes alike (`Places.Related.exprRule`, `Places.Related.stmtsRule`).
-/

namespace TypedLowering.JavaScript

open Lower (Comparison ofOption_eq_ok pure_eq_ok)

/-- How nodes are lowered, by where they stand. -/
structure Places where
  /-- The parts that have around them what the node has. -/
  here : Parts
  dispatcher : Parts
  /-- The bodies of selected targets. -/
  target : Parts
  /-- The body of a handler with that parameter. -/
  handler : String → Context → Strategy Expr → Ir.Expr → Lower (List Stmt)
  rethrow : Option Ir.Location → Lower (List Stmt)

namespace Places

variable (p : Places)

/-- The expression for a node that is one. Dispatchers and selected targets have rules of their
own. -/
def exprCore (ctx : Context) (e : Ir.Expr) : Lower Expr :=
  match e with
  | .decisionTree dispatcher targets => p.dispatcher.expr (ctx.withTargets targets) dispatcher
  | .success index _ _ => do p.target.expr ctx (← Parts.target ctx index).body
  | e => p.here.exprCore ctx e

/-- The rule for any node in a place that takes an expression. -/
def exprRule (ctx : Context) (e : Ir.Expr) : Lower Expr := do
  match ← Parts.expansion? ctx e with
  | some expanded => p.here.expr ctx expanded
  | none =>
    if ← Parts.isInvoked ctx e then p.here.invoked ctx e
    else return (← p.exprCore ctx e).withLoc e.location

/-- A decision tree, with the rules for its dispatcher and for its targets. -/
def decisionTree (ctx : Context) (strategy : Strategy Expr) (dispatcher : Ir.Expr)
    (targets : List Ir.Target) : Lower (List Stmt) := do
  if (dispatcher.sharedTargets targets.length).isEmpty then
    p.dispatcher.stmts (ctx.withTargets targets) strategy dispatcher
  else
    let join ← .allocateLocal "matchResult"
    let dispatch ←
      p.dispatcher.stmts (ctx.withTargets targets).withoutTailCall (.join join) dispatcher
    let cases ← p.here.cases ctx strategy 0 targets
    return .declare .let join none :: Parts.targetVariables ctx targets ++ dispatch ++
      [.of (.switch (.ident join) cases)]

/-- A success node, with the rules for a selected target. -/
def success (ctx : Context) (strategy : Strategy Expr) (index : Nat) (values : List Ir.Expr) :
    Lower (List Stmt) := do
  let t ← Parts.target ctx index
  match strategy with
  | .join name =>
    let stmts ← p.here.assignments ctx t.bound values
    return stmts ++ [.expr (.assign (.ident name) (.number index))]
  | .ret | .effect | .assign _ =>
    let stmts ← p.here.bindings ctx t.bound values
    return stmts ++ (← p.target.stmts ctx strategy t.body)

/-- A handler, with the rules for its body. -/
def catchClause (ctx : Context) (strategy : Strategy Expr) :
    Option Ir.Handler → Lower (Option CatchClause)
  | none => pure none
  | some h => do
    let body ← p.handler h.param.name ctx strategy h.body
    return some ⟨some h.param.name, body⟩

/-- The rule for any node in a place that takes statements. -/
def stmtsRule (ctx : Context) (strategy : Strategy Expr) (e : Ir.Expr) : Lower (List Stmt) :=
  match e with
  | .decisionTree dispatcher targets => p.decisionTree ctx strategy dispatcher targets
  | .success index values _ => p.success ctx strategy index values
  | .tryCatch body handler finalizer loc => do
    let ctx := ctx.withoutTailCall
    let block ← p.here.stmts ctx strategy body
    let handler ← p.catchClause ctx strategy handler
    let finalizer ← p.here.finalizer ctx finalizer
    return [⟨loc, .tryCatch block handler finalizer⟩]
  | .throw none _ loc => p.rethrow loc
  | e => p.here.stmtsRule ctx strategy e

end Places

/-- What becomes of a rethrow: the parameter of the innermost handler is thrown, whatever handlers
the state has. -/
def rethrow (loc : Option Ir.Location) : Lower (List Stmt) := do
  let caught ← .ofOption (unhandled loc) (← .caught?)
  return [⟨loc, .throw (.ident caught)⟩]

/-- The rules of the back end. They keep the handlers in the state. -/
def Parts.places (r : Parts) : Places where
  here := r
  dispatcher := r
  target := r
  handler param ctx strategy e := .inHandler param (r.stmts ctx strategy e)
  rethrow := rethrow

/-- With the same rules everywhere, the rule for expressions is the plain one. -/
theorem exprRule_places (r : Parts) (ctx : Context) (e : Ir.Expr) :
    r.places.exprRule ctx e = r.exprRule ctx e := by
  have hcore : r.places.exprCore ctx e = r.exprCore ctx e := by cases e <;> rfl
  rw [Places.exprRule, Parts.exprRule, hcore]
  rfl

/-- With the same rules everywhere, the rule for statements is the plain one. -/
theorem stmtsRule_places (r : Parts) (ctx : Context) (strategy : Strategy Expr) (e : Ir.Expr) :
    r.places.stmtsRule ctx strategy e = r.stmtsRule ctx strategy e := by
  cases e with
  | tryCatch body handler => cases handler <;> rfl
  | throw error => cases error <;> rfl
  | success index values =>
    simp only [Places.stmtsRule, Parts.stmtsRule, Places.success, Parts.success]
    rfl
  | _ => rfl

/-- One more depth is one more use of the rules, with the same ones everywhere. -/
theorem rules_succ (n : Nat) :
    rules (n + 1) = ⟨(rules n).places.exprRule, (rules n).places.stmtsRule⟩ := by
  have hexpr : (rules n).places.exprRule = (rules n).exprRule :=
    funext fun ctx => funext fun e => exprRule_places _ ctx e
  have hstmts : (rules n).places.stmtsRule = (rules n).stmtsRule :=
    funext fun ctx => funext fun strategy => funext fun e => stmtsRule_places _ ctx strategy e
  rw [rules, hexpr, hstmts]

/-! ## What is compared -/

/-- Which nodes a comparison is about, by where they stand. -/
structure Reach where
  here : Context → Ir.Expr → Prop
  dispatcher : Context → Ir.Expr → Prop
  target : Context → Ir.Expr → Prop
  handler : Context → Ir.Expr → Prop

/-- Whether lowering a node in reach comes to nodes in reach only. -/
structure Reach.Hereditary (P : Reach) : Prop where
  withoutTailCall {ctx : Context} {e : Ir.Expr} : P.here ctx e → P.here ctx.withoutTailCall e
  withTailCall {ctx : Context} {e : Ir.Expr} (loop : TailCall) :
    P.here ctx e → P.here (ctx.withTailCall loop) e
  part {ctx : Context} {e c : Ir.Expr} : P.here ctx e → c ∈ e.ownParts → P.here ctx c
  expanded {ctx : Context} {callee : Ir.Expr} {args : List Ir.Expr} {isNew : Bool} {ty : Ir.Ty}
    {loc : Option Ir.Location} {expanded : Ir.Expr} :
    P.here ctx (.call callee none args isNew ty loc) →
      (expandInline ctx.file callee args).Returns (some expanded) → P.here ctx expanded
  dispatcher {ctx : Context} {d : Ir.Expr} {ts : List Ir.Target} :
    P.here ctx (.decisionTree d ts) → P.dispatcher (ctx.withTargets ts) d ∧
      P.dispatcher (ctx.withTargets ts).withoutTailCall d
  target {ctx : Context} {index : Nat} {values : List Ir.Expr} {ty : Ir.Ty} {t : Ir.Target} :
    P.here ctx (.success index values ty) → t ∈ ctx.targets → P.target ctx t.body
  handler {ctx : Context} {body : Ir.Expr} {h : Ir.Handler} {finalizer : Option Ir.Expr}
    {loc : Option Ir.Location} :
    P.here ctx (.tryCatch body (some h) finalizer loc) → P.handler ctx.withoutTailCall h.body

/-- Whether parts lower the nodes in reach alike. -/
structure Parts.Related (R : ∀ {α : Type}, Lower α → Lower α → Prop)
    (P : Context → Ir.Expr → Prop) (r r' : Parts) : Prop where
  expr {ctx : Context} {e : Ir.Expr} : P ctx e → R (r.expr ctx e) (r'.expr ctx e)
  stmts {ctx : Context} {e : Ir.Expr} (strategy : Strategy Expr) :
    P ctx e → R (r.stmts ctx strategy e) (r'.stmts ctx strategy e)

/-- Whether rules are related at each of their places. -/
structure Places.Related (R : ∀ {α : Type}, Lower α → Lower α → Prop) (P : Reach)
    (p p' : Places) : Prop where
  here : Parts.Related R P.here p.here p'.here
  dispatcher : Parts.Related R P.dispatcher p.dispatcher p'.dispatcher
  target : Parts.Related R P.target p.target p'.target
  handler (param : String) {ctx : Context} (strategy : Strategy Expr) {e : Ir.Expr} :
    P.handler ctx e → R (p.handler param ctx strategy e) (p'.handler param ctx strategy e)
  rethrow {ctx : Context} {ty : Ir.Ty} {loc : Option Ir.Location} :
    P.here ctx (.throw none ty loc) → R (p.rethrow loc) (p'.rethrow loc)

section
variable {R : ∀ {α : Type}, Lower α → Lower α → Prop} (hR : Comparison R)
include hR

/-! ## Parts with the same surroundings -/

/-- The name of a helper is related to itself. -/
theorem helper_related (ctx : Context) (selector : String) :
    R (helper ctx selector) (helper ctx selector) :=
  hR.step (.importMember _ _)

/-- The name of a class is related to itself. -/
theorem className_related (ctx : Context) (entity : String) :
    R (className ctx entity) (className ctx entity) := by
  refine hR.ofOption ?_ _
  nofun

/-- A test of a value is related to itself. -/
theorem test_related (ctx : Context) (value : Expr) (kind : Ir.TestKind)
    (loc : Option Ir.Location) :
    R (Parts.test ctx value kind loc) (Parts.test ctx value kind loc) := by
  cases kind with
  | option | unionCase => exact hR.pure _
  | type ty =>
    cases ty with
    | declared => exact hR.bind_pure (className_related hR _ _) _
    | unit | option | param => exact hR.fail nofun
    | _ => exact hR.pure _

/-- The target that is selected is related to itself. -/
theorem target_related (ctx : Context) (index : Nat) :
    R (Parts.target ctx index) (Parts.target ctx index) := by
  refine hR.ofOption ?_ _
  nofun

omit hR in

/-- A target that is selected is one of those around. -/
theorem mem_targets_of_returns {ctx : Context} {index : Nat} {t : Ir.Target}
    (h : (Parts.target ctx index).Returns t) : t ∈ ctx.targets := by
  obtain ⟨s, s', h⟩ := h
  exact List.mem_of_getElem? (ofOption_eq_ok.1 h).1

/-- Whether a node needs an arrow function is related to itself. -/
theorem isInvoked_related (ctx : Context) (e : Ir.Expr) :
    R (Parts.isInvoked ctx e) (Parts.isInvoked ctx e) := by
  cases e with
  | decisionTree | success => exact hR.isStatement _ _ _
  | sequence => exact hR.anyM fun _ => hR.isStatement _ _ _
  | _ => exact hR.pure _

/-- The expansion of a call is related to itself. -/
theorem expansion?_related (ctx : Context) (e : Ir.Expr) :
    R (Parts.expansion? ctx e) (Parts.expansion? ctx e) := by
  unfold Parts.expansion?
  split
  · exact hR.step (.expandInline _ _ _)
  · exact hR.pure _

namespace Parts.Related

variable {P : Reach} (hP : P.Hereditary) {r r' : Parts} (h : Related R P.here r r')
  {ctx : Context} {e : Ir.Expr}
include hP h

omit hP in

/-- Expressions are related if each of them is. -/
theorem exprs {es : List Ir.Expr} (hes : ∀ e ∈ es, P.here ctx e) :
    R (r.exprs ctx es) (r'.exprs ctx es) := by
  induction es with
  | nil => exact hR.pure _
  | cons e es ih =>
    obtain ⟨he, hes⟩ := List.forall_mem_cons.1 hes
    exact hR.bind (h.expr he) fun _ _ => hR.bind_pure (ih hes) _

/-- A value that is delivered is related if its node is. -/
theorem delivered (strategy : Strategy Expr) (he : P.here ctx e) :
    R (r.delivered ctx strategy e) (r'.delivered ctx strategy e) :=
  hR.bind_pure (h.expr (hP.withoutTailCall he)) _

/-- A declaration is related if its value is. -/
theorem declare (id : Ir.Ident) (he : P.here ctx e) :
    R (r.declare ctx id e) (r'.declare ctx id e) := by
  have he := hP.withoutTailCall he
  refine hR.ite (h.stmts _ he) (hR.bind (hR.isStatement _ _ _) fun _ _ => hR.ite ?_ ?_)
  · exact hR.bind_pure (h.stmts _ he) _
  · exact hR.bind_pure (h.expr he) _

/-- A node that is called at once is related if the node is. -/
theorem invoked (he : P.here ctx e) : R (r.invoked ctx e) (r'.invoked ctx e) :=
  hR.bind_pure (h.stmts _ (hP.withoutTailCall he)) _

/-- A closure is related if its body is. -/
theorem closure (params : List Ir.Ident) (he : P.here ctx e) :
    R (r.closure ctx params e) (r'.closure ctx params e) :=
  hR.bind_pure (h.stmts _ (hP.withoutTailCall he)) _

/-- A function is related if its body is. -/
theorem function (name : Option String) (params : List Ir.Ident) (he : P.here ctx e) :
    R (r.function ctx name params e) (r'.function ctx name params e) := by
  unfold Parts.function
  dsimp only
  split
  · refine hR.bind (hR.step (.allocateTailCall _ _)) fun loop _ => ?_
    refine hR.bind (hR.inFunction (h.stmts _ (hP.withTailCall loop he))) fun _ _ => ?_
    exact hR.ite (hR.pure _) (hR.pure _)
  · exact hR.bind_pure (h.stmts _ (hP.withoutTailCall he)) _

/-- A local function is related if its body is. -/
theorem localFunction (id : Ir.Ident) (params : List Ir.Ident) (he : P.here ctx e) :
    R (r.localFunction ctx id params e) (r'.localFunction ctx id params e) :=
  hR.bind_pure (h.function hR hP _ _ he) _

/-! ## Expressions -/

omit hP in

/-- A property list is related if its values are. -/
theorem properties (keys : List String) {values : List Ir.Expr}
    (hvalues : ∀ v ∈ values, P.here ctx v) :
    R (r.properties ctx keys values) (r'.properties ctx keys values) := by
  induction keys generalizing values with
  | nil => exact hR.pure _
  | cons key keys ih =>
    cases values with
    | nil => exact hR.pure _
    | cons value values =>
      obtain ⟨hvalue, hvalues⟩ := List.forall_mem_cons.1 hvalues
      exact hR.bind (h.expr hvalue) fun _ _ => hR.bind_pure (ih hvalues) _

omit hP in

/-- An array, a tuple, a record or a case of a union is related if its values are. -/
theorem aggregate (kind : Ir.Aggregate) {values : List Ir.Expr}
    (hvalues : ∀ v ∈ values, P.here ctx v) :
    R (r.aggregate ctx kind values) (r'.aggregate ctx kind values) := by
  have hexprs := h.exprs hR hvalues
  cases kind with
  | array | tuple => exact hR.bind_pure hexprs _
  | record => exact hR.bind (className_related hR _ _) fun _ _ => hR.bind_pure hexprs _
  | anonymous => exact hR.bind_pure (h.properties hR _ hvalues) _
  | union => exact hR.bind hexprs fun _ _ => hR.bind_pure (className_related hR _ _) _

/-- A member of an object is related if its body is. -/
theorem objectMember {m : Ir.ObjectMember} (hm : P.here ctx m.body) :
    R (r.objectMember ctx m) (r'.objectMember ctx m) := by
  unfold Parts.objectMember
  cases m.kind with
  | value => exact hR.bind_pure (h.expr hm) _
  | method | getter | setter => exact hR.bind (h.function hR hP _ _ hm) fun _ _ => hR.pure _

/-- The members of an object are related if their bodies are. -/
theorem objectMembers {ms : List Ir.ObjectMember} (hms : ∀ m ∈ ms, P.here ctx m.body) :
    R (r.objectMembers ctx ms) (r'.objectMembers ctx ms) := by
  induction ms with
  | nil => exact hR.pure _
  | cons m ms ih =>
    obtain ⟨hm, hms⟩ := List.forall_mem_cons.1 hms
    exact hR.bind (h.objectMember hR hP hm) fun _ _ => hR.bind_pure (ih hms) _

omit hP in

/-- A call is related if its callee and its arguments are. -/
theorem call {callee : Ir.Expr} {receiver : Option Ir.Expr} {args : List Ir.Expr} (isNew : Bool)
    (hparts : ∀ c ∈ callee :: (receiver.toList ++ args), P.here ctx c) :
    R (r.call ctx callee receiver args isNew) (r'.call ctx callee receiver args isNew) := by
  obtain ⟨hcallee, hargs⟩ := List.forall_mem_cons.1 hparts
  refine hR.bind (h.expr hcallee) fun _ _ => hR.bind_pure (h.exprs hR fun c hc => hargs c ?_) _
  exact (List.mem_append.1 hc).elim (List.mem_append_left _) fun hc =>
    List.mem_append_right _ (mem_of_mem_discardUnitArg hc)

omit hP in

/-- An application is related if its arguments are. -/
theorem applied (f : Expr) {args : List Ir.Expr} (hargs : ∀ arg ∈ args, P.here ctx arg) :
    R (r.applied ctx f args) (r'.applied ctx f args) := by
  induction args generalizing f with
  | nil => exact hR.pure _
  | cons arg args ih =>
    obtain ⟨harg, hargs⟩ := List.forall_mem_cons.1 hargs
    exact hR.bind (h.expr harg) fun _ _ => ih _ hargs

omit hP in

/-- A binary operation is related if its operands are. -/
theorem binary (op : Ir.BinaryOp) {left right : Ir.Expr} (ty : Ir.Ty) (hleft : P.here ctx left)
    (hright : P.here ctx right) :
    R (r.binary ctx op left right ty) (r'.binary ctx op left right ty) := by
  refine hR.bind (h.expr hleft) fun _ _ => hR.bind (h.expr hright) fun _ _ => ?_
  cases op with
  | equal | notEqual => exact hR.ite (hR.pure _) (hR.bind_pure (helper_related hR _ _) _)
  | _ => exact hR.pure _

omit hP in

/-- The place that an assignment writes to is related if its object is. -/
theorem place {target : Ir.Expr} (field : Option String) (htarget : P.here ctx target) :
    R (r.place ctx target field) (r'.place ctx target field) :=
  hR.bind_pure (h.expr htarget) _

omit hP in

/-- The element that an assignment writes to is related if its parts are. -/
theorem element {target index : Ir.Expr} (htarget : P.here ctx target)
    (hindex : P.here ctx index) :
    R (r.element ctx target index) (r'.element ctx target index) :=
  hR.bind (h.expr htarget) fun _ _ => hR.bind_pure (h.expr hindex) _

/-! ## Statements -/

/-- The writes to the slots of a loop are related if the arguments are. -/
theorem slotWrites (slots : List (Ir.Ident × String)) {args : List Ir.Expr}
    (hargs : ∀ arg ∈ args, P.here ctx arg) :
    R (r.slotWrites ctx slots args) (r'.slotWrites ctx slots args) := by
  induction slots generalizing args with
  | nil => exact hR.pure _
  | cons slot slots ih =>
    cases args with
    | nil => exact hR.pure _
    | cons arg args =>
      obtain ⟨harg, hargs⟩ := List.forall_mem_cons.1 hargs
      refine hR.bind (h.expr (hP.withoutTailCall harg)) fun _ _ => hR.bind (ih hargs) fun _ _ => ?_
      split <;> exact hR.pure _

/-- A self tail call is related if its arguments are. -/
theorem tailCall (loop : TailCall) {args : List Ir.Expr} (hargs : ∀ arg ∈ args, P.here ctx arg) :
    R (r.tailCall ctx loop args) (r'.tailCall ctx loop args) :=
  hR.bind (hR.step .markLooped) fun _ _ => hR.bind_pure
    (h.slotWrites hR hP _ fun arg harg => hargs arg (mem_of_mem_discardUnitArg harg)) _

omit hR h in
/-- The value of a binding without the casts around it. -/
theorem uncast (he : P.here ctx e) : P.here ctx e.uncast := by
  induction e using Ir.Expr.induction_on_children with
  | h e ih =>
    cases e with
    | cast inner => exact ih inner List.mem_cons_self (hP.part he List.mem_cons_self)
    | _ => exact he

/-- A recursive let is related if its values are. -/
theorem recursive {bs : List Ir.Binding} (hbs : ∀ b ∈ bs, P.here ctx b.value) :
    R (r.recursive ctx bs) (r'.recursive ctx bs) := by
  induction bs with
  | nil => exact hR.pure _
  | cons b bs ih =>
    obtain ⟨hb, hbs⟩ := List.forall_mem_cons.1 hbs
    have hvalue := uncast hP hb
    unfold Parts.recursive
    dsimp only
    split
    next heq =>
      rw [heq] at hvalue
      have hbody := hP.part hvalue List.mem_cons_self
      exact hR.bind (h.localFunction hR hP _ _ hbody) fun _ _ => hR.bind_pure (ih hbs) _
    next heq =>
      rw [heq] at hvalue
      have hbody := hP.part hvalue List.mem_cons_self
      exact hR.bind (h.localFunction hR hP _ _ hbody) fun _ _ => hR.bind_pure (ih hbs) _
    next => exact hR.bind (h.declare hR hP _ hb) fun _ _ => hR.bind_pure (ih hbs) _

/-- A sequence is related if its nodes are. -/
theorem sequence (strategy : Strategy Expr) {es : List Ir.Expr} (hes : ∀ e ∈ es, P.here ctx e) :
    R (r.sequence ctx strategy es) (r'.sequence ctx strategy es) := by
  induction es with
  | nil => exact hR.pure _
  | cons e es ih =>
    obtain ⟨he, hes⟩ := List.forall_mem_cons.1 hes
    cases es with
    | nil => exact h.stmts _ he
    | cons => exact hR.bind (h.stmts _ (hP.withoutTailCall he)) fun _ _ => hR.bind_pure (ih hes) _

omit hP in

/-- An assignment is related if its value is. -/
theorem assignment (place : Expr) (loc : Option Ir.Location) (he : P.here ctx e) :
    R (r.assignment ctx place e loc) (r'.assignment ctx place e loc) :=
  hR.bind (hR.isStatement _ _ _) fun _ _ =>
    hR.ite (h.stmts _ he) (hR.bind_pure (h.expr he) _)

omit hP in

/-- A counting loop is related if its parts are. -/
theorem forLoop (id : Ir.Ident) {start limit body : Ir.Expr} (isUp : Bool)
    (loc : Option Ir.Location) (hstart : P.here ctx start) (hlimit : P.here ctx limit)
    (hbody : P.here ctx body) : R (r.forLoop ctx id start limit body isUp loc)
      (r'.forLoop ctx id start limit body isUp loc) := by
  refine hR.bind (h.expr hstart) fun _ _ => hR.bind (h.expr hlimit) fun _ _ => ?_
  have hrest := fun f : List Stmt → List Stmt => hR.bind_pure (h.stmts .effect hbody) f
  dsimp only
  refine hR.ite (hR.bind (hR.pure _) fun _ _ => hrest _) ?_
  exact hR.bind (hR.step (.allocateLocal _)) fun _ _ => hR.bind (hR.pure _) fun _ _ => hrest _

omit hP in

/-- A finalizer is related if there is one and it is. -/
theorem finalizer {fin : Option Ir.Expr} (hfin : ∀ e ∈ fin, P.here ctx e) :
    R (r.finalizer ctx fin) (r'.finalizer ctx fin) := by
  cases fin with
  | none => exact hR.pure _
  | some e => exact hR.bind_pure (h.stmts _ (hfin e rfl)) _

omit hP in

/-- The cases of targets are related if their bodies are. -/
theorem cases (strategy : Strategy Expr) (index : Nat) {ts : List Ir.Target}
    (hts : ∀ t ∈ ts, P.here ctx t.body) :
    R (r.cases ctx strategy index ts) (r'.cases ctx strategy index ts) := by
  induction ts generalizing index with
  | nil => exact hR.pure _
  | cons t ts ih =>
    obtain ⟨ht, hts⟩ := List.forall_mem_cons.1 hts
    exact hR.bind (h.stmts _ ht) fun _ _ => hR.bind_pure (ih _ hts) _

/-- Declarations of what a target binds are related if the values are. -/
theorem bindings (ids : List Ir.Ident) {values : List Ir.Expr}
    (hvalues : ∀ v ∈ values, P.here ctx v) :
    R (r.bindings ctx ids values) (r'.bindings ctx ids values) := by
  induction ids generalizing values with
  | nil => exact hR.pure _
  | cons id ids ih =>
    cases values with
    | nil => exact hR.pure _
    | cons value values =>
      obtain ⟨hvalue, hvalues⟩ := List.forall_mem_cons.1 hvalues
      exact hR.bind (h.declare hR hP _ hvalue) fun _ _ => hR.bind_pure (ih hvalues) _

/-- Assignments to what a target binds are related if the values are. -/
theorem assignments (ids : List Ir.Ident) {values : List Ir.Expr}
    (hvalues : ∀ v ∈ values, P.here ctx v) :
    R (r.assignments ctx ids values) (r'.assignments ctx ids values) := by
  induction ids generalizing values with
  | nil => exact hR.pure _
  | cons id ids ih =>
    cases values with
    | nil => exact hR.pure _
    | cons value values =>
      obtain ⟨hvalue, hvalues⟩ := List.forall_mem_cons.1 hvalues
      exact hR.bind (h.stmts _ (hP.withoutTailCall hvalue)) fun _ _ => hR.bind_pure (ih hvalues) _

/-- A conditional statement is related if its parts are. -/
theorem conditional (strategy : Strategy Expr) {guard thenExpr elseExpr : Ir.Expr}
    (loc : Option Ir.Location) (hguard : P.here ctx guard) (hthen : P.here ctx thenExpr)
    (helse : P.here ctx elseExpr) : R (r.conditional ctx strategy guard thenExpr elseExpr loc)
      (r'.conditional ctx strategy guard thenExpr elseExpr loc) :=
  hR.bind (h.expr (hP.withoutTailCall hguard)) fun _ _ =>
    hR.bind (h.stmts _ hthen) fun _ _ => hR.bind_pure (h.stmts _ helse) _

end Parts.Related

/-! ## Nodes -/

namespace Places.Related

variable {P : Reach} (hP : P.Hereditary) {p p' : Places} (h : Related R P p p')
  {ctx : Context} {e : Ir.Expr}
include hP h

/-- A node that is an expression is related if its parts are at their places. -/
theorem exprCore (he : P.here ctx e) : R (p.exprCore ctx e) (p'.exprCore ctx e) := by
  have hpart : ∀ c ∈ e.ownParts, P.here ctx c := fun c hc => hP.part he hc
  cases e with
  | literal | ident => exact hR.pure _
  | option value =>
    cases value with
    | none => exact hR.pure _
    | some => exact h.here.expr (hpart _ List.mem_cons_self)
  | aggregate => exact h.here.aggregate hR _ hpart
  | cast => exact h.here.expr (hpart _ List.mem_cons_self)
  | decisionTree => exact h.dispatcher.expr (hP.dispatcher he).1
  | imported =>
    exact hR.bind (hR.step (.resolveImport _ _)) fun _ _ =>
      hR.bind_pure (hR.step (.importMember _ _)) _
  | lambda | delegate => exact h.here.closure hR hP _ (hpart _ List.mem_cons_self)
  | object members ty base =>
    refine hR.bind (h.here.objectMembers hR hP fun m hm =>
      hpart _ (List.mem_append_left _ (List.mem_map_of_mem hm))) fun _ _ => ?_
    cases base with
    | none => exact hR.pure _
    | some base =>
      have hbase := hpart base (List.mem_append_right _ (List.mem_singleton_self _))
      exact hR.bind_pure (h.here.expr hbase) _
  | call => exact h.here.call hR _ hpart
  | apply applied args =>
    refine hR.bind (h.here.expr (hpart _ List.mem_cons_self)) fun _ _ => ?_
    exact h.here.applied hR _ fun arg harg => hpart arg (List.mem_cons_of_mem _ harg)
  | unary | get => exact hR.bind_pure (h.here.expr (hpart _ List.mem_cons_self)) _
  | binary =>
    exact h.here.binary hR _ _ (hpart _ List.mem_cons_self)
      (hpart _ (List.mem_cons_of_mem _ List.mem_cons_self))
  | logical =>
    exact hR.bind (h.here.expr (hpart _ List.mem_cons_self)) fun _ _ =>
      hR.bind_pure (h.here.expr (hpart _ (List.mem_cons_of_mem _ List.mem_cons_self))) _
  | emit | sequence => exact hR.bind_pure (h.here.exprs hR hpart) _
  | getIndex =>
    exact h.here.element hR (hpart _ List.mem_cons_self)
      (hpart _ (List.mem_cons_of_mem _ List.mem_cons_self))
  | set target field value =>
    exact hR.bind (h.here.place hR _ (hpart _ List.mem_cons_self)) fun _ _ =>
      hR.bind_pure (h.here.expr (hpart value (List.mem_cons_of_mem _ List.mem_cons_self))) _
  | setIndex target index value =>
    refine hR.bind (h.here.element hR (hpart target ?_) (hpart index ?_)) fun _ _ =>
      hR.bind_pure (h.here.expr (hpart value ?_)) _
    all_goals simp [Ir.Expr.ownParts, Ir.Expr.children]
  | test =>
    exact hR.bind (h.here.expr (hpart _ List.mem_cons_self)) fun _ _ => test_related hR _ _ _ _
  | ifThenElse guard thenExpr elseExpr =>
    refine hR.bind (h.here.expr (hpart guard ?_)) fun _ _ =>
      hR.bind (h.here.expr (hpart thenExpr ?_)) fun _ _ =>
        hR.bind_pure (h.here.expr (hpart elseExpr ?_)) _
    all_goals simp [Ir.Expr.ownParts, Ir.Expr.children]
  | success index =>
    refine hR.bind (target_related hR _ _) fun t ht => ?_
    exact h.target.expr (hP.target he (mem_targets_of_returns ht))
  | curry =>
    exact hR.bind (helper_related hR _ _) fun _ _ =>
      hR.bind_pure (h.here.expr (hpart _ List.mem_cons_self)) _
  | throw | debugger | letIn | letRec | whileLoop | forLoop | tryCatch =>
    exact h.here.invoked hR hP he

/-- Nodes in reach are lowered alike to expressions. -/
theorem exprRule (he : P.here ctx e) : R (p.exprRule ctx e) (p'.exprRule ctx e) := by
  refine hR.bind (expansion?_related hR _ _) fun expanded hexpanded => ?_
  cases expanded with
  | some expanded =>
    refine h.here.expr ?_
    unfold Parts.expansion? at hexpanded
    split at hexpanded
    · exact hP.expanded he hexpanded
    · obtain ⟨s, t, hpure⟩ := hexpanded
      cases (pure_eq_ok.1 hpure).1
  | none =>
    refine hR.bind (isInvoked_related hR _ _) fun _ _ => hR.ite (h.here.invoked hR hP he) ?_
    exact hR.bind_pure (h.exprCore hR hP he) _

/-- A decision tree is related if its dispatcher and its targets are at their places. -/
theorem decisionTree (strategy : Strategy Expr) {d : Ir.Expr} {ts : List Ir.Target}
    (he : P.here ctx (.decisionTree d ts)) :
    R (p.decisionTree ctx strategy d ts) (p'.decisionTree ctx strategy d ts) := by
  obtain ⟨hd, hjoin⟩ := hP.dispatcher he
  refine hR.ite (h.dispatcher.stmts _ hd) ?_
  refine hR.bind (hR.step (.allocateLocal _)) fun _ _ =>
    hR.bind (h.dispatcher.stmts _ hjoin) fun _ _ => hR.bind_pure (h.here.cases hR _ _ ?_) _
  exact fun t ht => hP.part he (List.mem_map_of_mem ht)

/-- A success node is related if its values are, and so is the target that it selects. -/
theorem success (strategy : Strategy Expr) {index : Nat} {values : List Ir.Expr} {ty : Ir.Ty}
    (he : P.here ctx (.success index values ty)) :
    R (p.success ctx strategy index values) (p'.success ctx strategy index values) := by
  have hvalues : ∀ v ∈ values, P.here ctx v := fun v hv => hP.part he hv
  refine hR.bind (target_related hR _ _) fun t ht => ?_
  have hbody := h.target.stmts strategy (hP.target he (mem_targets_of_returns ht))
  cases strategy with
  | join => exact hR.bind_pure (h.here.assignments hR hP _ hvalues) _
  | ret | effect | assign =>
    exact hR.bind (h.here.bindings hR hP _ hvalues) fun _ _ => hR.bind_pure hbody _

/-- Nodes in reach are lowered alike to statements. -/
theorem stmtsRule (strategy : Strategy Expr) (he : P.here ctx e) :
    R (p.stmtsRule ctx strategy e) (p'.stmtsRule ctx strategy e) := by
  have hpart : ∀ c ∈ e.ownParts, P.here ctx c := fun c hc => hP.part he hc
  have hplain : ∀ {c : Ir.Expr}, P.here ctx c → P.here ctx.withoutTailCall c := hP.withoutTailCall
  cases e with
  | cast => exact h.here.stmts _ (hpart _ List.mem_cons_self)
  | call callee receiver args isNew =>
    unfold Places.stmtsRule Parts.stmtsRule
    dsimp only
    split
    · refine h.here.tailCall hR hP _ fun arg harg => hpart arg ?_
      exact List.mem_cons_of_mem _ (List.mem_append_right _ harg)
    · exact h.here.delivered hR hP _ he
  | ifThenElse guard thenExpr elseExpr =>
    refine hR.bind (hR.isStatement _ _ _) fun _ _ => hR.ite ?_ (h.here.delivered hR hP _ he)
    refine h.here.conditional hR hP _ _ (hpart _ ?_) (hpart _ ?_) (hpart _ ?_)
    all_goals simp [Ir.Expr.ownParts, Ir.Expr.children]
  | decisionTree => exact h.decisionTree hR hP _ he
  | success => exact h.success hR hP _ he
  | letIn id value body =>
    exact hR.bind (h.here.declare hR hP _ (hpart value List.mem_cons_self)) fun _ _ =>
      hR.bind_pure (h.here.stmts _ (hpart body (List.mem_cons_of_mem _ List.mem_cons_self))) _
  | letRec bs body =>
    refine hR.bind (h.here.recursive hR hP fun b hb =>
      hpart _ (List.mem_append_left _ (List.mem_map_of_mem hb))) fun _ _ => ?_
    have hbody := hpart body (List.mem_append_right _ (List.mem_singleton_self _))
    exact hR.bind_pure (h.here.stmts _ hbody) _
  | sequence => exact h.here.sequence hR hP _ hpart
  | set target field value =>
    refine hR.bind (h.here.place hR _ (hplain (hpart target List.mem_cons_self))) fun _ _ =>
      hR.bind_pure (h.here.assignment hR _ _ (hplain (hpart value ?_))) _
    exact List.mem_cons_of_mem _ List.mem_cons_self
  | setIndex target index value =>
    refine hR.bind (h.here.element hR (hplain (hpart target ?_)) (hplain (hpart index ?_)))
      fun _ _ => hR.bind_pure (h.here.assignment hR _ _ (hplain (hpart value ?_))) _
    all_goals simp [Ir.Expr.ownParts, Ir.Expr.children]
  | whileLoop guard body =>
    refine hR.bind (h.here.expr (hplain (hpart guard List.mem_cons_self))) fun _ _ =>
      hR.bind_pure (h.here.stmts _ (hplain (hpart body ?_))) _
    exact List.mem_cons_of_mem _ List.mem_cons_self
  | forLoop id start limit body =>
    refine hR.bind_pure (h.here.forLoop hR _ _ _ (hplain (hpart start ?_))
      (hplain (hpart limit ?_)) (hplain (hpart body ?_))) _
    all_goals simp [Ir.Expr.ownParts, Ir.Expr.children]
  | tryCatch body handler finalizer =>
    refine hR.bind (h.here.stmts _ (hplain (hpart body List.mem_cons_self))) fun _ _ =>
      hR.bind ?_ fun _ _ => hR.bind_pure (h.here.finalizer hR fun e hmem => ?_) _
    · cases handler with
      | none => exact hR.pure _
      | some hd => exact hR.bind_pure (h.handler _ _ (hP.handler he)) _
    · exact hplain (hpart e (List.mem_cons_of_mem _ (Option.mem_toList.2 hmem)))
  | throw error =>
    cases error with
    | none => exact h.rethrow he
    | some => exact hR.bind_pure (h.here.expr (hplain (hpart _ List.mem_cons_self))) _
  | debugger => exact hR.pure _
  | emit template args isStatement =>
    cases isStatement with
    | true => exact hR.bind_pure (h.here.exprs hR fun arg harg => hplain (hpart arg harg)) _
    | false => exact h.here.delivered hR hP _ he
  | literal | option | aggregate | ident | imported | lambda | delegate | object | apply | unary
  | binary | logical | get | getIndex | test | curry => exact h.here.delivered hR hP _ he

end Places.Related

end

end TypedLowering.JavaScript
