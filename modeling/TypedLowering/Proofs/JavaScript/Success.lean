import TypedLowering.Proofs.JavaScript.Declaration
import TypedLowering.Proofs.Lowering.Slots
import TypedLowering.Proofs.Lowering.Success

/-!
# Well-formed code is lowered

If the parts of well-formed nodes are lowered (`Parts.Work`), then so is the node, as an expression
and as statements. A node takes two rules at most, one that hands it over as a whole and one that
goes into its parts, so the depth of its context is enough (`rules_work`).
-/

namespace TypedLowering.JavaScript

open Lower (Succeeds)

/-- Whether the nodes up to that weight are lowered, as expressions and as statements. -/
structure Parts.Work (r : Parts) (k : Nat) : Prop where
  expr : ∀ {caught ctx e}, Ready k caught ctx e → Succeeds caught (r.expr ctx e)
  stmts : ∀ {caught ctx e} (strategy : Strategy Expr), Ready k caught ctx e →
    Succeeds caught (r.stmts ctx strategy e)

variable {k : Nat} {caught : Bool} {ctx : Context}

/-! ## Parts -/

/-- A helper can always be imported. -/
theorem helper_succeeds (ctx : Context) (selector : String) :
    Succeeds caught (helper ctx selector) :=
  .importMember _ _

/-- The class of an entity that is there has a name. -/
theorem className_succeeds {entity : String}
    (h : (ctx.file.settings.entity? entity).isSome) : Succeeds caught (className ctx entity) :=
  .ofOption (Option.isSome_map.trans h)

namespace Parts.Work

variable {r : Parts} (h : r.Work k)
include h

/-- Expressions that are ready are lowered without an error. -/
theorem exprs {es : List Ir.Expr} (hes : ∀ e ∈ es, Ready k caught ctx e) :
    Succeeds caught (r.exprs ctx es) := by
  induction es with
  | nil => exact .pure _
  | cons e es ih =>
    obtain ⟨he, hes⟩ := List.forall_mem_cons.1 hes
    exact .bind (h.expr he) fun _ => .bind (ih hes) fun _ => .pure _

/-- A declaration with a value that is ready is lowered without an error. -/
theorem declare (id : Ir.Ident) {value : Ir.Expr} (hvalue : Ready k caught ctx value) :
    Succeeds caught (r.declare ctx id value) := by
  have hvalue := hvalue.withoutTailCall
  obtain ⟨b, hb⟩ := hvalue.isStatement false
  refine .ite (fun _ => h.stmts _ hvalue) fun _ => ?_
  rw [hb, pure_bind]
  exact .ite (fun _ => .bind (h.stmts _ hvalue) fun _ => .pure _)
    fun _ => .bind (h.expr hvalue) fun _ => .pure _

/-- A closure of parts that are ready is lowered without an error. -/
theorem closure (params : List Ir.Ident) {body : Ir.Expr} (hbody : Ready k caught ctx body) :
    Succeeds caught (r.closure ctx params body) :=
  .bind (h.stmts _ hbody.withoutTailCall) fun _ => .pure _

/-- A function of parts that are ready is lowered without an error. -/
theorem function (name : Option String) (params : List Ir.Ident) {body : Ir.Expr}
    (hbody : Ready k caught ctx body) : Succeeds caught (r.function ctx name params body) := by
  unfold Parts.function
  dsimp only
  split
  · refine .bind (.allocateTailCall _ _) fun loop => ?_
    refine .bind (.inFunction (h.stmts _ (hbody.withTailCall loop))) fun _ => ?_
    exact .ite (fun _ => .pure _) fun _ => .pure _
  · exact .bind (h.stmts _ hbody.withoutTailCall) fun _ => .pure _

/-- A local function of parts that are ready is lowered without an error. -/
theorem localFunction (id : Ir.Ident) (params : List Ir.Ident) {body : Ir.Expr}
    (hbody : Ready k caught ctx body) : Succeeds caught (r.localFunction ctx id params body) :=
  .bind (h.function _ _ hbody) fun _ => .pure _

/-! ## Expressions -/

/-- A property list of parts that are ready is lowered without an error. -/
theorem properties (keys : List String) {values : List Ir.Expr}
    (hvalues : ∀ e ∈ values, Ready k caught ctx e) :
    Succeeds caught (r.properties ctx keys values) := by
  induction keys generalizing values with
  | nil => exact .pure _
  | cons key keys ih =>
    cases values with
    | nil => exact .pure _
    | cons value values =>
      obtain ⟨hvalue, hvalues⟩ := List.forall_mem_cons.1 hvalues
      exact .bind (h.expr hvalue) fun _ => .bind (ih hvalues) fun _ => .pure _

/-- An array, a tuple, a record or a case of a union of parts that are ready is lowered without an
error. -/
theorem aggregate {kind : Ir.Aggregate} {values : List Ir.Expr} {loc : Option Ir.Location}
    {w : Ir.Surroundings} (hfits : (Ir.Expr.aggregate kind values loc).Fits ctx.file.settings w)
    (hvalues : ∀ e ∈ values, Ready k caught ctx e) :
    Succeeds caught (r.aggregate ctx kind values) := by
  cases kind with
  | array | tuple => exact .bind (h.exprs hvalues) fun _ => .pure _
  | record =>
    exact .bind (className_succeeds hfits) fun _ => .bind (h.exprs hvalues) fun _ => .pure _
  | anonymous => exact .bind (h.properties _ hvalues) fun _ => .pure _
  | union =>
    exact .bind (h.exprs hvalues) fun _ => .bind (className_succeeds hfits) fun _ => .pure _

/-- The members of an object of parts that are ready are lowered without an error. -/
theorem objectMembers {ms : List Ir.ObjectMember} (hms : ∀ m ∈ ms, Ready k caught ctx m.body) :
    Succeeds caught (r.objectMembers ctx ms) := by
  induction ms with
  | nil => exact .pure _
  | cons m ms ih =>
    obtain ⟨hm, hms⟩ := List.forall_mem_cons.1 hms
    have hfirst : Succeeds caught (r.objectMember ctx m) := by
      unfold Parts.objectMember
      cases m.kind with
      | value => exact .bind (h.expr hm) fun _ => .pure _
      | method | getter | setter => exact .bind (h.function _ _ hm) fun _ => .pure _
    exact .bind hfirst fun _ => .bind (ih hms) fun _ => .pure _

/-- An application to curried arguments of parts that are ready is lowered without an error. -/
theorem applied (f : Expr) {args : List Ir.Expr} (hargs : ∀ e ∈ args, Ready k caught ctx e) :
    Succeeds caught (r.applied ctx f args) := by
  induction args generalizing f with
  | nil => exact .pure _
  | cons arg args ih =>
    obtain ⟨harg, hargs⟩ := List.forall_mem_cons.1 hargs
    exact .bind (h.expr harg) fun _ => ih _ hargs

/-- A binary operation of parts that are ready is lowered without an error. -/
theorem binary (op : Ir.BinaryOp) {left right : Ir.Expr} (ty : Ir.Ty)
    (hleft : Ready k caught ctx left) (hright : Ready k caught ctx right) :
    Succeeds caught (r.binary ctx op left right ty) := by
  refine .bind (h.expr hleft) fun _ => .bind (h.expr hright) fun _ => ?_
  cases op with
  | equal | notEqual =>
    exact .ite (fun _ => .pure _) fun _ => .bind (helper_succeeds _ _) fun _ => .pure _
  | _ => exact .pure _

/-- The element that an assignment writes to of parts that are ready is lowered without an error. -/
theorem element {target index : Ir.Expr} (htarget : Ready k caught ctx target)
    (hindex : Ready k caught ctx index) : Succeeds caught (r.element ctx target index) :=
  .bind (h.expr htarget) fun _ => .bind (h.expr hindex) fun _ => .pure _

/-- The place that an assignment writes to of parts that are ready is lowered without an error. -/
theorem place {target : Ir.Expr} (field : Option String) (htarget : Ready k caught ctx target) :
    Succeeds caught (r.place ctx target field) :=
  .bind (h.expr htarget) fun _ => .pure _

omit h in

/-- A test that fits the settings is lowered without an error. -/
theorem test_succeeds {e : Ir.Expr} {value : Expr} {kind : Ir.TestKind}
    {loc : Option Ir.Location} {w : Ir.Surroundings}
    (hfits : (Ir.Expr.test e kind loc).Fits ctx.file.settings w) :
    Succeeds caught (test ctx value kind loc) := by
  cases kind with
  | option | unionCase => exact .pure _
  | type ty =>
    cases ty with
    | declared => exact .bind (className_succeeds hfits) fun _ => .pure _
    | unit | option | param => exact hfits.elim
    | _ => exact .pure _

/-- A node that is an expression, and is not called at once, is lowered without an error when it is
ready. -/
theorem exprCore {e : Ir.Expr} (he : Ready (k + 1) caught ctx e)
    (hplain : isInvoked ctx e = pure false) : Succeeds caught (r.exprCore ctx e) := by
  cases e with
  | literal | ident => exact .pure _
  | option value =>
    cases value with
    | none => exact .pure _
    | some value => exact h.expr (he.child (fun _ => rfl) value (.head _))
  | aggregate kind values loc =>
    obtain ⟨w, -, hfits⟩ := he.fits
    exact h.aggregate hfits (he.child fun _ => rfl)
  | cast inner => exact h.expr (he.child (fun _ => rfl) inner (.head _))
  | imported =>
    exact .bind (.resolveImport _ _) fun _ => .bind (.importMember _ _) fun _ => .pure _
  | lambda arg body => exact h.closure _ (he.child (fun _ => rfl) body (.head _))
  | delegate args body => exact h.closure _ (he.child (fun _ => rfl) body (.head _))
  | object members ty base =>
    have hchild := he.child fun _ => rfl
    refine .bind (h.objectMembers fun m hm => ?_) fun _ => ?_
    · exact hchild m.body (List.mem_append_left _ (List.mem_map_of_mem hm))
    · cases base with
      | none => exact .pure _
      | some base =>
        have hbase := hchild base (List.mem_append_right _ (.head _))
        exact .bind (h.expr hbase) fun _ => .pure _
  | call callee receiver args =>
    have hchild := he.child fun _ => rfl
    refine .bind (h.expr (hchild callee (.head _))) fun _ => .bind (h.exprs fun x hx => ?_)
      fun _ => .pure _
    refine hchild x (.tail _ ?_)
    exact List.mem_append.2 ((List.mem_append.1 hx).imp_right mem_of_mem_discardUnitArg)
  | apply f args =>
    have hchild := he.child fun _ => rfl
    exact .bind (h.expr (hchild f (.head _))) fun _ =>
      h.applied _ fun x hx => hchild x (.tail _ hx)
  | unary op operand =>
    exact .bind (h.expr (he.child (fun _ => rfl) operand (.head _))) fun _ => .pure _
  | get obj => exact .bind (h.expr (he.child (fun _ => rfl) obj (.head _))) fun _ => .pure _
  | binary op left right =>
    have hchild := he.child fun _ => rfl
    exact h.binary _ _ (hchild left (.head _)) (hchild right (.tail _ (.head _)))
  | logical op left right =>
    have hchild := he.child fun _ => rfl
    exact .bind (h.expr (hchild left (.head _))) fun _ =>
      .bind (h.expr (hchild right (.tail _ (.head _)))) fun _ => .pure _
  | emit | sequence => exact .bind (h.exprs (he.child fun _ => rfl)) fun _ => .pure _
  | getIndex obj index =>
    have hchild := he.child fun _ => rfl
    exact h.element (hchild obj (.head _)) (hchild index (.tail _ (.head _)))
  | set target field value =>
    have hchild := he.child fun _ => rfl
    exact .bind (h.place _ (hchild target (.head _))) fun _ =>
      .bind (h.expr (hchild value (.tail _ (.head _)))) fun _ => .pure _
  | setIndex target index value =>
    have hchild := he.child fun _ => rfl
    exact .bind (h.element (hchild target (.head _)) (hchild index (.tail _ (.head _)))) fun _ =>
      .bind (h.expr (hchild value (.tail _ (.tail _ (.head _))))) fun _ => .pure _
  | test value kind loc =>
    obtain ⟨w, -, hfits⟩ := he.fits
    exact .bind (h.expr (he.child (fun _ => rfl) value (.head _))) fun _ => test_succeeds hfits
  | ifThenElse guard thenExpr elseExpr =>
    have hchild := he.child fun _ => rfl
    exact .bind (h.expr (hchild guard (.head _))) fun _ =>
      .bind (h.expr (hchild thenExpr (.tail _ (.head _)))) fun _ =>
        .bind (h.expr (hchild elseExpr (.tail _ (.tail _ (.head _))))) fun _ => .pure _
  | decisionTree => exact h.expr he.dispatcher
  | success index values ty =>
    obtain ⟨t, ht, hbody⟩ := he.selected
    have htarget : target ctx index = pure t := congrArg (Lower.ofOption _) ht
    unfold Parts.exprCore
    dsimp only
    rw [htarget, pure_bind]
    exact h.expr hbody
  | curry inner =>
    exact .bind (helper_succeeds _ _) fun _ =>
      .bind (h.expr (he.child (fun _ => rfl) inner (.head _))) fun _ => .pure _
  | throw | debugger | letIn | letRec | whileLoop | forLoop | tryCatch =>
    exact absurd (Lower.pure_injective hplain) nofun

omit h in
/-- Whether a node is invoked is clear. -/
theorem exists_isInvoked {e : Ir.Expr} (he : Ready (k + 1) caught ctx e) :
    ∃ b, isInvoked ctx e = pure b := by
  cases e with
  | decisionTree | success => exact he.isStatement false
  | sequence es =>
    exact anyM_pure fun x hx => (he.child (fun _ => rfl) x hx).isStatement false
  | _ => exact ⟨_, rfl⟩

omit h in
/-- Without inline functions nothing is expanded. -/
theorem expansion?_eq {e : Ir.Expr} (he : Ready (k + 1) caught ctx e) :
    expansion? ctx e = pure none := by
  unfold expansion?
  split
  · exact expandInline_eq he.inlines _ _
  · rfl

/-- A node in the place of an expression is lowered without an error when it is ready, if this holds
of the statements of one that is called at once. -/
theorem exprRule {e : Ir.Expr} (he : Ready (k + 1) caught ctx e)
    (hinvoked : isInvoked ctx e = pure true → ∀ strategy,
      Succeeds caught (r.stmts ctx.withoutTailCall strategy e)) :
    Succeeds caught (r.exprRule ctx e) := by
  obtain ⟨b, hb⟩ := exists_isInvoked he
  rw [Parts.exprRule, expansion?_eq he, pure_bind]
  dsimp only
  rw [hb, pure_bind]
  cases b with
  | true => exact .bind (hinvoked hb _) fun _ => .pure _
  | false => exact .bind (h.exprCore he hb) fun _ => .pure _

/-! ## Statements -/

/-- The writes to the slots of a loop of parts that are ready are lowered without an error. -/
theorem slotWrites (slots : List (Ir.Ident × String)) {args : List Ir.Expr}
    (hargs : ∀ e ∈ args, Ready k caught ctx e) :
    Succeeds caught (r.slotWrites ctx slots args) := by
  induction slots generalizing args with
  | nil => exact .pure _
  | cons slot slots ih =>
    cases args with
    | nil => exact .pure _
    | cons arg args =>
      obtain ⟨harg, hargs⟩ := List.forall_mem_cons.1 hargs
      refine .bind (h.expr harg.withoutTailCall) fun value => .bind (ih hargs) fun _ => ?_
      split <;> exact .pure _

/-- A recursive let of parts that are ready is lowered without an error. -/
theorem recursive {bs : List Ir.Binding} (hbs : ∀ b ∈ bs, Ready (k + 1) caught ctx b.value)
    (hvalues : ∀ b ∈ bs, Ready k caught ctx b.value) :
    Succeeds caught (r.recursive ctx bs) := by
  induction bs with
  | nil => exact .pure _
  | cons b bs ih =>
    obtain ⟨hb, hbs⟩ := List.forall_mem_cons.1 hbs
    obtain ⟨hvalue, hvalues⟩ := List.forall_mem_cons.1 hvalues
    have hrest : ∀ first : List Stmt,
        Succeeds caught (do let rest ← r.recursive ctx bs; return first ++ rest) :=
      fun _ => .bind (ih hbs hvalues) fun _ => .pure _
    have huncast := hb.uncast
    unfold Parts.recursive
    dsimp only
    split
    · rename_i arg body name heq
      rw [heq] at huncast
      have hbody := huncast.child (fun _ => rfl) body (.head _)
      exact .bind (h.localFunction _ _ hbody) fun _ => hrest _
    · rename_i args body name heq
      rw [heq] at huncast
      have hbody := huncast.child (fun _ => rfl) body (.head _)
      exact .bind (h.localFunction _ _ hbody) fun _ => hrest _
    · exact .bind (h.declare _ hvalue) fun _ => hrest _

/-- A sequence of parts that are ready is lowered without an error. -/
theorem sequence (strategy : Strategy Expr) {es : List Ir.Expr}
    (hes : ∀ e ∈ es, Ready k caught ctx e) : Succeeds caught (r.sequence ctx strategy es) := by
  induction es with
  | nil => exact .pure _
  | cons e es ih =>
    obtain ⟨he, hes⟩ := List.forall_mem_cons.1 hes
    cases es with
    | nil => exact h.stmts _ he
    | cons => exact .bind (h.stmts _ he.withoutTailCall) fun _ => .bind (ih hes) fun _ => .pure _

/-- An assignment of parts that are ready is lowered without an error. -/
theorem assignment (place : Expr) {value : Ir.Expr} (loc : Option Ir.Location)
    (hvalue : Ready k caught ctx value) : Succeeds caught (r.assignment ctx place value loc) := by
  obtain ⟨b, hb⟩ := hvalue.isStatement false
  rw [Parts.assignment, hb, pure_bind]
  exact .ite (fun _ => h.stmts _ hvalue) fun _ => .bind (h.expr hvalue) fun _ => .pure _

/-- A counting loop of parts that are ready is lowered without an error. -/
theorem forLoop (id : Ir.Ident) {start limit body : Ir.Expr} (isUp : Bool)
    (loc : Option Ir.Location) (hstart : Ready k caught ctx start)
    (hlimit : Ready k caught ctx limit) (hbody : Ready k caught ctx body) :
    Succeeds caught (r.forLoop ctx id start limit body isUp loc) := by
  refine .bind (h.expr hstart) fun _ => .bind (h.expr hlimit) fun limit => ?_
  dsimp only
  refine .ite (fun _ => .bind (.pure _) fun _ => .bind (h.stmts _ hbody) fun _ => .pure _)
    fun _ => ?_
  exact .bind (.allocateLocal _) fun _ => .bind (.pure _) fun _ =>
    .bind (h.stmts _ hbody) fun _ => .pure _

/-- The cases of targets of parts that are ready are lowered without an error. -/
theorem cases (strategy : Strategy Expr) (index : Nat) {ts : List Ir.Target}
    (hts : ∀ t ∈ ts, Ready k caught ctx t.body) :
    Succeeds caught (r.cases ctx strategy index ts) := by
  induction ts generalizing index with
  | nil => exact .pure _
  | cons t ts ih =>
    obtain ⟨ht, hts⟩ := List.forall_mem_cons.1 hts
    exact .bind (h.stmts _ ht) fun _ => .bind (ih _ hts) fun _ => .pure _

/-- A decision tree that is ready is lowered without an error. -/
theorem decisionTree (strategy : Strategy Expr) {dispatcher : Ir.Expr} {targets : List Ir.Target}
    (he : Ready (k + 1) caught ctx (.decisionTree dispatcher targets)) :
    Succeeds caught (r.decisionTree ctx strategy dispatcher targets) := by
  refine .ite (fun _ => h.stmts _ he.dispatcher) fun _ => .bind (.allocateLocal _) fun _ => ?_
  exact .bind (h.stmts _ he.dispatcher.withoutTailCall) fun _ =>
    .bind (h.cases _ _ fun t ht => he.target ht) fun _ => .pure _

/-- Declarations of what a target binds of parts that are ready are lowered without an error. -/
theorem bindings (ids : List Ir.Ident) {values : List Ir.Expr}
    (hvalues : ∀ e ∈ values, Ready k caught ctx e) :
    Succeeds caught (r.bindings ctx ids values) := by
  induction ids generalizing values with
  | nil => exact .pure _
  | cons id ids ih =>
    cases values with
    | nil => exact .pure _
    | cons value values =>
      obtain ⟨hvalue, hvalues⟩ := List.forall_mem_cons.1 hvalues
      exact .bind (h.declare _ hvalue) fun _ => .bind (ih hvalues) fun _ => .pure _

/-- Assignments to what a target binds of parts that are ready are lowered without an error. -/
theorem assignments (ids : List Ir.Ident) {values : List Ir.Expr}
    (hvalues : ∀ e ∈ values, Ready k caught ctx e) :
    Succeeds caught (r.assignments ctx ids values) := by
  induction ids generalizing values with
  | nil => exact .pure _
  | cons id ids ih =>
    cases values with
    | nil => exact .pure _
    | cons value values =>
      obtain ⟨hvalue, hvalues⟩ := List.forall_mem_cons.1 hvalues
      exact .bind (h.stmts _ hvalue.withoutTailCall) fun _ => .bind (ih hvalues) fun _ => .pure _

/-- A success node that is ready is lowered without an error: its target is there. -/
theorem success (strategy : Strategy Expr) {index : Nat} {values : List Ir.Expr} {ty : Ir.Ty}
    (he : Ready (k + 1) caught ctx (.success index values ty)) :
    Succeeds caught (r.success ctx strategy index values) := by
  obtain ⟨t, ht, hbody⟩ := he.selected
  have htarget : target ctx index = pure t := congrArg (Lower.ofOption _) ht
  have hvalues := he.child fun _ => rfl
  rw [Parts.success, htarget, pure_bind]
  cases strategy with
  | join => exact .bind (h.assignments _ hvalues) fun _ => .pure _
  | ret | effect | assign =>
    exact .bind (h.bindings _ hvalues) fun _ => .bind (h.stmts _ hbody) fun _ => .pure _

/-- A conditional of parts that are ready is lowered without an error. -/
theorem conditional (strategy : Strategy Expr) {guard thenExpr elseExpr : Ir.Expr}
    (loc : Option Ir.Location) (hguard : Ready k caught ctx guard)
    (hthen : Ready k caught ctx thenExpr) (helse : Ready k caught ctx elseExpr) :
    Succeeds caught (r.conditional ctx strategy guard thenExpr elseExpr loc) :=
  .bind (h.expr hguard.withoutTailCall) fun _ => .bind (h.stmts _ hthen) fun _ =>
    .bind (h.stmts _ helse) fun _ => .pure _

/-- A try statement that is ready is lowered without an error. -/
theorem tryCatch (strategy : Strategy Expr) {body : Ir.Expr} {handler : Option Ir.Handler}
    {finalizer : Option Ir.Expr} {loc : Option Ir.Location}
    (he : Ready (k + 1) caught ctx (.tryCatch body handler finalizer loc)) :
    Succeeds caught (r.stmtsRule ctx strategy (.tryCatch body handler finalizer loc)) := by
  have hbody : Ready k caught ctx body := he.part fun _ => List.mem_append_left _ (.head _)
  refine .bind (h.stmts _ hbody.withoutTailCall) fun _ => .bind ?_ fun _ =>
    .bind ?_ fun _ => .pure _
  · cases handler with
    | none => exact .pure _
    | some hd => exact .bind (.inHandler _ (h.stmts _ he.handler.withoutTailCall)) fun _ => .pure _
  · cases finalizer with
    | none => exact .pure _
    | some e =>
      have hfinal : Ready k caught ctx e := he.part fun _ => List.mem_append_right _ (.head _)
      exact .bind (h.stmts _ hfinal.withoutTailCall) fun _ => .pure _

/-- A node in the place of statements is lowered without an error when it is ready, if this holds of
it as an expression. -/
theorem stmtsRule (strategy : Strategy Expr) {e : Ir.Expr} (he : Ready (k + 1) caught ctx e)
    (hdelivered : (∀ ctx, isInvoked ctx e = pure false) →
      Succeeds caught (r.expr ctx.withoutTailCall e)) :
    Succeeds caught (r.stmtsRule ctx strategy e) := by
  have hplain : (∀ ctx, isInvoked ctx e = pure false) →
      Succeeds caught (r.delivered ctx strategy e) := fun hplain =>
    .bind (hdelivered hplain) fun _ => .pure _
  cases e with
  | cast inner => exact h.stmts _ (he.child (fun _ => rfl) inner (.head _))
  | call callee receiver args =>
    have hchild := he.child fun _ => rfl
    unfold Parts.stmtsRule
    dsimp only
    split
    · refine .bind .markLooped fun _ => .bind (h.slotWrites _ fun x hx => ?_) fun _ => .pure _
      exact hchild x (.tail _ (List.mem_append_right _ (mem_of_mem_discardUnitArg hx)))
    · exact hplain fun _ => rfl
  | ifThenElse guard thenExpr elseExpr loc =>
    have hchild := he.child fun _ => rfl
    obtain ⟨b, hb⟩ := he.isStatement (prefersStatement ctx strategy)
    unfold Parts.stmtsRule
    dsimp only
    rw [hb, pure_bind]
    refine .ite (fun _ => h.conditional _ _ ?_ ?_ ?_) fun _ => hplain fun _ => rfl
    · exact hchild guard (.head _)
    · exact hchild thenExpr (.tail _ (.head _))
    · exact hchild elseExpr (.tail _ (.tail _ (.head _)))
  | decisionTree => exact h.decisionTree _ he
  | success => exact h.success _ he
  | letIn id value body =>
    have hchild := he.child fun _ => rfl
    exact .bind (h.declare _ (hchild value (.head _))) fun _ =>
      .bind (h.stmts _ (hchild body (.tail _ (.head _)))) fun _ => .pure _
  | letRec bs body =>
    have hchild := he.child fun _ => rfl
    have hbs : ∀ b ∈ bs, Ready k caught ctx b.value := fun b hb =>
      hchild b.value (List.mem_append_left _ (List.mem_map_of_mem hb))
    exact .bind (h.recursive (fun b hb => (hbs b hb).mono (Nat.le_succ k)) hbs) fun _ =>
      .bind (h.stmts _ (hchild body (List.mem_append_right _ (.head _)))) fun _ => .pure _
  | sequence => exact h.sequence _ (he.child fun _ => rfl)
  | set target field value =>
    have hchild := he.withoutTailCall.child fun _ => rfl
    exact .bind (h.place _ (hchild target (.head _))) fun _ =>
      .bind (h.assignment _ _ (hchild value (.tail _ (.head _)))) fun _ => .pure _
  | setIndex target index value =>
    have hchild := he.withoutTailCall.child fun _ => rfl
    exact .bind (h.element (hchild target (.head _)) (hchild index (.tail _ (.head _)))) fun _ =>
      .bind (h.assignment _ _ (hchild value (.tail _ (.tail _ (.head _))))) fun _ => .pure _
  | whileLoop guard body =>
    have hchild := he.withoutTailCall.child fun _ => rfl
    exact .bind (h.expr (hchild guard (.head _))) fun _ =>
      .bind (h.stmts _ (hchild body (.tail _ (.head _)))) fun _ => .pure _
  | forLoop id start limit body =>
    have hchild := he.withoutTailCall.child fun _ => rfl
    exact .bind (h.forLoop _ _ _ (hchild start (.head _)) (hchild limit (.tail _ (.head _)))
      (hchild body (.tail _ (.tail _ (.head _))))) fun _ => .pure _
  | tryCatch => exact h.tryCatch _ he
  | throw error =>
    cases error with
    | some error =>
      have herror := he.withoutTailCall.child (fun _ => rfl) error (.head _)
      exact .bind (h.expr herror) fun _ => .pure _
    | none =>
      obtain ⟨w, rfl, hcaught⟩ := he.fits
      exact .rethrow hcaught fun _ => .pure _
  | debugger => exact .pure _
  | emit template args isStatement =>
    cases isStatement with
    | true => exact .bind (h.exprs (he.withoutTailCall.child fun _ => rfl)) fun _ => .pure _
    | false => exact hplain fun _ => rfl
  | literal | option | aggregate | ident | imported | lambda | delegate | object | apply | unary
  | binary | logical | get | getIndex | test | curry => exact hplain fun _ => rfl

end Parts.Work

/-! ## The rules -/

/-- Two rules for each node are enough. -/
theorem rules_work (k : Nat) : ∀ n, 2 * k ≤ n → (rules n).Work k := by
  induction k with
  | zero =>
    intro n _
    exact ⟨fun he => absurd he.pos (Nat.lt_irrefl 0), fun _ he => absurd he.pos (Nat.lt_irrefl 0)⟩
  | succ k ih =>
    intro n hn
    obtain ⟨m, rfl⟩ : ∃ m, n = m + 2 := ⟨n - 2, by omega⟩
    have hparts : (rules m).Work k := ih m (by omega)
    have hnode : (rules (m + 1)).Work k := ih (m + 1) (by omega)
    constructor
    · intro caught ctx e he
      refine hnode.exprRule he fun hinvoked strategy => ?_
      refine hparts.stmtsRule strategy he.withoutTailCall fun hplain => ?_
      exact absurd (Lower.pure_injective ((hplain ctx).symm.trans hinvoked)) nofun
    · intro caught ctx e strategy he
      refine hnode.stmtsRule strategy he fun hplain => ?_
      refine hparts.exprRule he.withoutTailCall fun hinvoked => ?_
      exact absurd (Lower.pure_injective ((hplain _).symm.trans hinvoked)) nofun

/-- An expression that is ready is lowered without an error. -/
theorem lowerExpr_succeeds {e : Ir.Expr} (he : Ready k caught ctx e) :
    Succeeds caught (lowerExpr ctx e) := by
  obtain ⟨n, hdepth, hn⟩ := he.exists_depth
  exact (rules_work n _ hdepth).expr hn

/-- A node that is ready is lowered to statements without an error. -/
theorem lowerStmts_succeeds (strategy : Strategy Expr) {e : Ir.Expr}
    (he : Ready k caught ctx e) : Succeeds caught (lowerStmts ctx strategy e) := by
  obtain ⟨n, hdepth, hn⟩ := he.exists_depth
  exact (rules_work n _ hdepth).stmts strategy hn

/-- A function with a body that is ready is lowered without an error. -/
theorem lowerFunction_succeeds (name : Option String) (params : List Ir.Ident) {body : Ir.Expr}
    (hbody : Ready k caught ctx body) : Succeeds caught (lowerFunction ctx name params body) := by
  obtain ⟨n, hdepth, hn⟩ := hbody.exists_depth
  exact (rules_work n _ hdepth).function name params hn

/-! ## Declarations -/

section Declarations
variable {file : SourceFile} (hinlines : file.settings.project.inlines = [])
include hinlines

/-- A function with a well-formed body is lowered without an error. -/
theorem lowerBody_succeeds (name : Option String) (params : List Ir.Ident) {body : Ir.Expr}
    (hbody : body.WellFormed file.settings .top) :
    Succeeds false (lowerFunction (.ofFile file) name params body) :=
  lowerFunction_succeeds _ _ (Ready.of_wellFormed hinlines hbody)

/-- Methods with well-formed bodies are lowered without an error. -/
theorem lowerMethods_succeeds {ms : List Ir.Member}
    (hms : ∀ m ∈ ms, m.body.WellFormed file.settings .top) :
    Succeeds false (lowerMethods (.ofFile file) ms) := by
  induction ms with
  | nil => exact .pure _
  | cons m ms ih =>
    obtain ⟨hm, hms⟩ := List.forall_mem_cons.1 hms
    exact .bind (lowerBody_succeeds hinlines _ _ hm) fun _ => .bind (ih hms) fun _ => .pure _

/-- A constructor with a well-formed body is lowered without an error, and so is the one that is
there by default. -/
theorem lowerConstructor_succeeds (entity : Entity) {constructor : Option Ir.Member}
    (h : ∀ m ∈ constructor, m.body.WellFormed file.settings .top) :
    Succeeds false (lowerConstructor (.ofFile file) entity constructor) := by
  unfold lowerConstructor
  split
  · exact .pure _
  · exact .pure _
  · cases constructor with
    | none => exact .pure _
    | some m => exact .bind (lowerBody_succeeds hinlines _ _ (h m rfl)) fun _ => .pure _

/-- A well-formed declaration of a file is lowered without an error. -/
theorem lowerLeaf_succeeds {leaf : Ir.Leaf} (h : leaf.WellFormed file.settings) :
    Succeeds false (lowerLeaf file leaf) := by
  cases leaf with
  | action a =>
    have hbody := h.bodies a.body (List.mem_singleton_self _)
    exact .inDeclaration _ (lowerStmts_succeeds _ (Ready.of_wellFormed hinlines hbody))
  | member m =>
    have hbody := h.bodies m.body (List.mem_singleton_self _)
    refine .inDeclaration _ (.bind (.ite (fun _ => ?_) fun _ => ?_) fun _ => .pure _)
    · exact .bind (lowerExpr_succeeds (Ready.of_wellFormed hinlines hbody)) fun _ => .pure _
    · exact .bind (lowerBody_succeeds hinlines _ _ hbody) fun _ => .pure _
  | classDecl c =>
    refine .inDeclaration _ (.bind (.bind (.ofOption (h.entity c rfl)) fun entity => ?_) fun _ =>
      .pure _)
    refine .bind (lowerConstructor_succeeds hinlines entity fun m hm => ?_) fun _ => .bind
      (lowerMethods_succeeds hinlines fun m hm => ?_) fun _ => .pure _
    · exact h.bodies m.body (List.mem_append_left _
        (List.mem_map_of_mem (Option.mem_toList.2 hm)))
    · exact h.bodies m.body (List.mem_append_right _ (List.mem_map_of_mem hm))

/-- Well-formed declarations of a file are lowered without an error. -/
theorem lowerLeaves_succeeds {leaves : List Ir.Leaf}
    (h : ∀ leaf ∈ leaves, leaf.WellFormed file.settings) (s : LowerState) :
    ∃ stmts t, lowerLeaves file leaves s = (.ok (), stmts, t) := by
  induction leaves generalizing s with
  | nil => exact ⟨[], s, rfl⟩
  | cons leaf leaves ih =>
    obtain ⟨hleaf, hleaves⟩ := List.forall_mem_cons.1 h
    obtain ⟨first, u, hfirst, -⟩ := lowerLeaf_succeeds hinlines hleaf s nofun
    obtain ⟨more, t, hmore⟩ := ih hleaves u
    refine ⟨first ++ more, t, ?_⟩
    rw [lowerLeaves, hfirst]
    dsimp only
    rw [hmore]

end Declarations

end TypedLowering.JavaScript
