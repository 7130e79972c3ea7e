import TypedLowering.Proofs.JavaScript.ExpressionForm
import TypedLowering.Proofs.JavaScript.Order
import TypedLowering.Proofs.Lowering.Uses

/-!
# Expressions are evaluated in order

Whoever watches none of the names that lowering makes up (`Unnoticed`) notices of the code for an
expression what evaluating the expression is to do, as long as the parts of nodes are lowered so
(`KeepsOrder`). This module has the rule for expressions.
-/

namespace TypedLowering

open Control

/-- Whether a use is of a variable that is not watched, if it is of a variable. -/
def Control.World.Hides (W : World) : Use → Prop
  | .name x => W.Overlooks x
  | _ => True

namespace JavaScript

open Lower

/-- What becomes of a value that is lowered with a strategy. Where a strategy leaves the function,
self calls go on with the loop around. -/
def delivery (W : World) (ctx : Context) : Strategy Expr → Delivery W.State
  | .ret => { Delivery.ret with loop := ctx.tailCall }
  | .effect => { Delivery.plain with loop := ctx.tailCall }
  | .assign place => .into (place.store W)
  | .join _ => .selecting

/-- Whether nobody notices where a strategy delivers to before it does. -/
def SilentPlace (W : World) : Strategy Expr → Prop
  | .ret | .effect => True
  | .assign place => place.locate W = .exit .normal
  | .join name => W.Overlooks name

/-- Whether nothing that lowering refers to on its own is watched, and what is in reach is orderly.
-/
structure Unnoticed (W : World) (ctx : Context) : Prop where
  builtins : ∀ x ∈ builtins, W.Overlooks x
  classes : ∀ fullName entity, ctx.file.settings.entity? fullName = some entity →
    W.Overlooks entity.displayName
  inlines : ∀ i ∈ ctx.file.settings.project.inlines, i.2.body.Orderly W []
  targets : ∀ t ∈ ctx.targets, t.body.Orderly W []
  loop : ∀ loop, ctx.tailCall = some loop → loop.params.length = loop.slots.length ∧
    ∀ b ∈ loop.bindings, W.Overlooks b.1.name ∧ W.Overlooks b.2

/-- Whether an expression can be lowered in a state without anybody noticing. -/
structure Suits (W : World) (ctx : Context) (e : Ir.Expr) (s : LowerState) : Prop where
  context : Unnoticed W ctx
  orderly : e.Orderly W (ctx.targets.map (·.bound.length))
  state : Open W.Hides s

/-- Whether code to some depth does what evaluating what it was lowered from is to do. -/
structure KeepsOrder (W : World) (n : Nat) : Prop where
  expr : ∀ {ctx : Context} {e : Ir.Expr} {code : Expr} {s t : LowerState}, Suits W ctx e s →
    (rules n).expr ctx e s = (.ok code, t) →
    Evaluates W ctx.file ctx.targets .plain e (code.run W)
  stmts : ∀ {ctx : Context} {strategy : Strategy Expr} {e : Ir.Expr} {stmts : List Stmt}
    {s t : LowerState}, Suits W ctx e s → SilentPlace W strategy →
    (rules n).stmts ctx strategy e s = (.ok stmts, t) →
    Evaluates W ctx.file ctx.targets (delivery W ctx strategy) e (runStmts W stmts)

variable {W : World} {n : Nat} {ctx : Context} {e : Ir.Expr} {es : List Ir.Expr} {code : Expr}
  {strategy : Strategy Expr} {s t u : LowerState}

namespace Unnoticed

/-- What goes unnoticed in a context does so without the loop around. -/
theorem withoutTailCall (h : Unnoticed W ctx) : Unnoticed W ctx.withoutTailCall :=
  ⟨h.builtins, h.classes, h.inlines, h.targets, nofun⟩

/-- What goes unnoticed in a context does so with other orderly targets around. -/
theorem withTargets (h : Unnoticed W ctx) {targets : List Ir.Target}
    (ht : ∀ t ∈ targets, t.body.Orderly W []) : Unnoticed W (ctx.withTargets targets) :=
  ⟨h.builtins, h.classes, h.inlines, ht, h.loop⟩

end Unnoticed

namespace Suits

/-- A node that suits a state suits a later one. -/
theorem grows (h : Suits W ctx e s) (hg : Grows s t) : Suits W ctx e t :=
  ⟨h.context, h.orderly, h.state.grows hg⟩

/-- A node that suits a context suits it without the loop around. -/
theorem withoutTailCall (h : Suits W ctx e s) : Suits W ctx.withoutTailCall e s :=
  ⟨h.context.withoutTailCall, h.orderly, h.state⟩

/-- The children of a node that is no tree. -/
theorem child (h : Suits W ctx e s)
    (harms : ∀ arities, e.arms arities = e.children.map (arities, ·)) {c : Ir.Expr}
    (hc : c ∈ e.children) : Suits W ctx c s :=
  ⟨h.context, h.orderly.child (harms _) hc, h.state⟩

/-- If a decision tree suits a context, its dispatcher does with the targets around. -/
theorem dispatcher {d : Ir.Expr} {targets : List Ir.Target}
    (h : Suits W ctx (.decisionTree d targets) s) : Suits W (ctx.withTargets targets) d s :=
  ⟨h.context.withTargets fun _ ht => h.orderly.target ht, h.orderly.dispatcher, h.state⟩

/-- If a decision tree suits a context, the bodies of its targets do. -/
theorem target {d : Ir.Expr} {targets : List Ir.Target}
    (h : Suits W ctx (.decisionTree d targets) s) {x : Ir.Target} (hx : x ∈ targets) :
    Suits W ctx x.body s :=
  ⟨h.context, (h.orderly.target hx).closed _, h.state⟩

/-- The body of a target in reach. -/
theorem selected (h : Suits W ctx e s) {x : Ir.Target} (hx : x ∈ ctx.targets) :
    Suits W ctx x.body s :=
  ⟨h.context, (h.context.targets x hx).closed _, h.state⟩

end Suits

/-- Lowering an expression only grows the state. -/
theorem grows_expr (h : (rules n).expr ctx e s = (.ok code, t)) : Grows s t :=
  ((rules_deepens (Nat.le_refl n)).expr ctx e).grows h

/-- Lowering statements only grows the state. -/
theorem grows_stmts {stmts : List Stmt} (h : (rules n).stmts ctx strategy e s = (.ok stmts, t)) :
    Grows s t :=
  ((rules_deepens (Nat.le_refl n)).stmts ctx strategy e).grows h

/-! ## Names that lowering makes up -/

/-- The world overlooks the name of a class. -/
theorem overlooks_className (hctx : Unnoticed W ctx) {entity name : String}
    (h : className ctx entity s = (.ok name, t)) : W.Overlooks name := by
  simp only [className, ofOption_eq_ok] at h
  obtain ⟨found, hfound, rfl⟩ := Option.map_eq_some_iff.1 h.1
  exact hctx.classes entity found hfound

/-- The world overlooks the alias of a member. -/
theorem overlooks_importMember (hs : Open W.Hides s) {path selector name : String}
    (h : Lower.importMember path selector s = (.ok name, t)) : W.Overlooks name := by
  obtain ⟨hname, -⟩ := Prod.mk.inj h
  obtain rfl := Except.ok.inj hname
  exact hs.imported (ImportTable.importMember_spec rfl)

/-- Reading a name that the world overlooks does nothing. -/
theorem run_ident_of_overlooks {x : String} (h : W.Overlooks x) :
    (Expr.ident x).run W = .exit .normal :=
  (run_ident x).trans (World.does_of_ignores h.read)

/-! ## Parts -/

section
variable (hn : KeepsOrder W n)
include hn

/-- The code for expressions evaluates each of them. -/
theorem exprs_evaluated {codes : List Expr} (h : ∀ e ∈ es, Suits W ctx e s)
    (hes : (rules n).exprs ctx es s = (.ok codes, t)) :
    EvaluatesAll W ctx.file ctx.targets es (codes.map (·.run W)) := by
  induction es generalizing s t codes with
  | nil =>
    obtain ⟨rfl, -⟩ := pure_eq_ok.1 hes
    exact .nil
  | cons e es ih =>
    simp only [Parts.exprs, bind_eq_ok, pure_eq_ok] at hes
    obtain ⟨code, u, hcode, rest, _, hrest, rfl, -⟩ := hes
    obtain ⟨he, hes⟩ := List.forall_mem_cons.1 h
    exact .cons (hn.expr he hcode) (ih (fun d hd => (hes d hd).grows (grows_expr hcode)) hrest)

/-- What is lowered to a function that is called at once. -/
theorem invoked_evaluated (h : Suits W ctx e s)
    (hcode : (rules n).invoked ctx e s = (.ok code, t)) :
    Evaluates W ctx.file ctx.targets .plain e (code.run W) := by
  obtain ⟨body, hbody, rfl⟩ := invoked_eq_ok hcode
  have hplace : ∀ isUnit, SilentPlace W (.ofType isUnit) := fun isUnit => by
    cases isUnit <;> trivial
  have heval := (hn.stmts h.withoutTailCall (hplace _) hbody).called
  have hcalled : (delivery W ctx.withoutTailCall (.ofType e.type.isUnit)).called = .plain := by
    cases e.type.isUnit with
    | true => exact Delivery.called_plain
    | false => exact Delivery.called_ret
  rw [hcalled] at heval
  rw [run_call_arrow]
  exact heval

/-- The code for a property list evaluates each of its values. -/
theorem properties_evaluated {keys : List String} {values : List Ir.Expr}
    {members : List ObjectMember} (hlen : keys.length = values.length)
    (h : ∀ e ∈ values, Suits W ctx e s)
    (hmembers : (rules n).properties ctx keys values s = (.ok members, t)) :
    EvaluatesAll W ctx.file ctx.targets values (runsOfMembers W members) := by
  induction keys generalizing values s t members with
  | nil =>
    obtain rfl := List.eq_nil_of_length_eq_zero hlen.symm
    obtain ⟨rfl, -⟩ := pure_eq_ok.1 hmembers
    rw [runsOfMembers]
    exact .nil
  | cons key keys ih =>
    cases values with
    | nil => cases hlen
    | cons value values =>
      simp only [Parts.properties, bind_eq_ok, pure_eq_ok] at hmembers
      obtain ⟨code, u, hcode, rest, _, hrest, rfl, -⟩ := hmembers
      obtain ⟨he, hes⟩ := List.forall_mem_cons.1 h
      rw [runsOfMembers]
      exact .cons (hn.expr he hcode)
        (ih (Nat.succ.inj hlen) (fun d hd => (hes d hd).grows (grows_expr hcode)) hrest)

/-- The code for the members of an object evaluates those that are values, in order. -/
theorem objectMembers_evaluated {ms : List Ir.ObjectMember} {members : List ObjectMember}
    (h : ∀ m ∈ ms, Suits W ctx m.body s)
    (hmembers : (rules n).objectMembers ctx ms s = (.ok members, t)) :
    EvaluatesAll W ctx.file ctx.targets ((ms.filter (·.kind == .value)).map (·.body))
      (runsOfMembers W members) := by
  induction ms generalizing s t members with
  | nil =>
    obtain ⟨rfl, -⟩ := pure_eq_ok.1 hmembers
    rw [runsOfMembers]
    exact .nil
  | cons m ms ih =>
    simp only [Parts.objectMembers, bind_eq_ok, pure_eq_ok] at hmembers
    obtain ⟨first, u, hfirst, rest, _, hrest, rfl, -⟩ := hmembers
    obtain ⟨hm, hms⟩ := List.forall_mem_cons.1 h
    have hsu : Grows s u := ((rules_deepens (Nat.le_refl n)).objectMember ctx m).grows hfirst
    have hrest := ih (fun d hd => (hms d hd).grows hsu) hrest
    obtain ⟨name, args, body, kind⟩ := m
    cases kind with
    | value =>
      simp only [Parts.objectMember, bind_eq_ok, pure_eq_ok] at hfirst
      obtain ⟨code, _, hcode, rfl, -⟩ := hfirst
      rw [runsOfMembers]
      exact .cons (hn.expr hm hcode) hrest
    | method | getter | setter =>
      simp only [Parts.objectMember, bind_eq_ok, pure_eq_ok] at hfirst
      obtain ⟨_, _, -, rfl, -⟩ := hfirst
      rw [runsOfMembers]
      · exact hrest
      · rintro _ _ ⟨⟩

/-! ## Nodes -/

/-- The code for an array, a tuple, a record or a case of a union evaluates its values in order. -/
theorem aggregate_evaluated {kind : Ir.Aggregate} {values : List Ir.Expr}
    {loc : Option Ir.Location} (h : Suits W ctx (.aggregate kind values loc) s)
    (hcode : (rules n).aggregate ctx kind values s = (.ok code, t)) :
    Evaluates W ctx.file ctx.targets .plain (.aggregate kind values loc) (code.run W) := by
  have hvalues : ∀ e ∈ values, Suits W ctx e s := fun e he => h.child (fun _ => rfl) he
  have hstrict : ∀ {ps}, EvaluatesAll W ctx.file ctx.targets values ps →
      Evaluates W ctx.file ctx.targets .plain (.aggregate kind values loc)
        (combine W (.aggregate kind values loc) ps) := fun hs => hs.strict rfl
  cases kind with
  | array ty =>
    simp only [Parts.aggregate, bind_eq_ok, pure_eq_ok] at hcode
    obtain ⟨codes, u, hcodes, rfl, -⟩ := hcode
    rw [run_of, ExprForm.run, runsOf_eq_map]
    exact hstrict (exprs_evaluated hn hvalues hcodes)
  | tuple =>
    simp only [Parts.aggregate, bind_eq_ok, pure_eq_ok] at hcode
    obtain ⟨codes, u, hcodes, rfl, -⟩ := hcode
    rw [run_of, ExprForm.run, runsOf_eq_map]
    exact hstrict (exprs_evaluated hn hvalues hcodes)
  | record entity generics =>
    simp only [Parts.aggregate, bind_eq_ok, pure_eq_ok] at hcode
    obtain ⟨name, u, hname, codes, v, hcodes, rfl, -⟩ := hcode
    have hsu : Grows s u := (below_className ctx entity).grows hname
    rw [run_construct, run_ident_of_overlooks (overlooks_className h.context hname),
      Runs.exit_normal_seq]
    exact hstrict (exprs_evaluated hn (fun e he => (hvalues e he).grows hsu) hcodes)
  | union tag entity generics =>
    simp only [Parts.aggregate, bind_eq_ok, pure_eq_ok] at hcode
    obtain ⟨codes, u, hcodes, name, v, hname, rfl, -⟩ := hcode
    rw [run_construct, run_ident_of_overlooks (overlooks_className h.context hname),
      Runs.exit_normal_seq, List.map_cons, List.map_singleton, run_number, run_of, ExprForm.run,
      runsOf_eq_map, Runs.all_cons, Runs.exit_normal_seq, Runs.all_cons, Runs.all_nil,
      Runs.seq_exit_normal]
    exact hstrict (exprs_evaluated hn hvalues hcodes)
  | anonymous fields =>
    simp only [Parts.aggregate, bind_eq_ok, pure_eq_ok] at hcode
    obtain ⟨members, u, hmembers, rfl, -⟩ := hcode
    rw [run_of, ExprForm.run]
    exact hstrict (properties_evaluated hn h.orderly.inOrder hvalues hmembers)

/-- The code for an object evaluates its base and its members in order. -/
theorem object_evaluated {members : List Ir.ObjectMember} {ty : Ir.Ty} {base : Option Ir.Expr}
    (h : Suits W ctx (.object members ty base) s)
    (hcode : (rules n).exprCore ctx (.object members ty base) s = (.ok code, t)) :
    Evaluates W ctx.file ctx.targets .plain (.object members ty base) (code.run W) := by
  simp only [Parts.exprCore, bind_eq_ok] at hcode
  obtain ⟨ms, u, hms, hcode⟩ := hcode
  have hsu : Grows s u := ((rules_deepens (Nat.le_refl n)).objectMembers ctx members).grows hms
  have hmembers := objectMembers_evaluated hn (fun m hm =>
    h.child (fun _ => rfl) (List.mem_append_left _ (List.mem_map_of_mem hm))) hms
  have hobject : (Expr.of (.object ms)).run W = .all (runsOfMembers W ms) := by
    rw [run_of, ExprForm.run]
  cases base with
  | none =>
    obtain ⟨rfl, -⟩ := pure_eq_ok.1 hcode
    rw [hobject]
    have hall := hmembers.append (.nil : EvaluatesAll W ctx.file ctx.targets [] [])
    rw [List.append_nil (runsOfMembers W ms)] at hall
    exact hall.strict (e := .object members ty none) rfl
  | some base =>
    simp only [bind_eq_ok, pure_eq_ok] at hcode
    obtain ⟨baseCode, v, hbase, rfl, -⟩ := hcode
    have hchild : Suits W ctx base s := h.child (fun _ => rfl)
      (List.mem_append_right _ List.mem_cons_self)
    have hall := hmembers.append (.single (hn.expr (hchild.grows hsu) hbase))
    have hsilent : baseCode.run W = .exit .normal := run_of_silent h.orderly.inOrder hbase
    have hobj : W.Overlooks "Object" := h.context.builtins "Object" (by simp [builtins])
    rw [run_call (.inr (List.cons_ne_nil _ _)), run_member, run_ident_of_overlooks hobj,
      Runs.exit_normal_seq, List.map_cons, List.map_singleton, hsilent, hobject, Runs.all_cons,
      Runs.exit_normal_seq, Runs.all_cons, Runs.all_nil, Runs.seq_exit_normal]
    have heval := hall.strict (e := .object members ty (some base)) rfl
    rw [hsilent, combine, Runs.all_append, Runs.all_cons, Runs.all_nil, Runs.seq_exit_normal,
      Runs.seq_exit_normal] at heval
    exact heval

omit hn in
/-- The callee of a call without arguments is no function. -/
theorem isFunction_callee {callee : Ir.Expr} {receiver : Option Ir.Expr} {args : List Ir.Expr}
    {ty : Ir.Ty} {loc : Option Ir.Location}
    (h : (Ir.Expr.call callee receiver args false ty loc).InOrder W)
    (hcode : (rules n).expr ctx callee s = (.ok code, t)) :
    code.isFunction = false ∨ receiver.toList ++ discardUnitArg args ≠ [] := by
  rcases h with h | h | h | h | h
  · cases h
  · cases receiver with
    | none => cases h
    | some => exact .inr (List.cons_ne_nil _ _)
  · exact .inr (List.append_ne_nil_of_right_ne_nil _ h)
  · exact .inl (isFunction_of_isReference h hcode)
  · exact .inl (isFunction_of_isOperation (isOperation_of_isComputed h hcode))

/-- The code for a call evaluates the callee and the arguments in order, and calls. -/
theorem call_evaluated {callee : Ir.Expr} {receiver : Option Ir.Expr} {args : List Ir.Expr}
    {isNew : Bool} {ty : Ir.Ty} {loc : Option Ir.Location}
    (h : Suits W ctx (.call callee receiver args isNew ty loc) s)
    (hcode : (rules n).call ctx callee receiver args isNew s = (.ok code, t)) :
    Evaluates W ctx.file ctx.targets .plain (.call callee receiver args isNew ty loc)
      (code.run W) := by
  simp only [Parts.call, bind_eq_ok, pure_eq_ok] at hcode
  obtain ⟨f, u, hf, codes, v, hcodes, rfl, -⟩ := hcode
  have hchild : ∀ c ∈ callee :: (receiver.toList ++ args), Suits W ctx c s :=
    fun c hc => h.child (fun _ => rfl) hc
  have hsu : Grows s u := grows_expr hf
  have hcallee := hn.expr (hchild callee List.mem_cons_self) hf
  have hpassed : EvaluatesAll W ctx.file ctx.targets (receiver.toList ++ discardUnitArg args)
      (codes.map (·.run W)) := by
    refine exprs_evaluated hn (fun c hc => (hchild c (List.mem_cons_of_mem _ ?_)).grows hsu) hcodes
    exact (List.mem_append.1 hc).elim (List.mem_append_left _)
      fun hc => List.mem_append_right _ (mem_of_mem_discardUnitArg hc)
  -- The arguments that are not passed on come last.
  obtain ⟨ps, hps, hall⟩ : ∃ ps, EvaluatesAll W ctx.file ctx.targets (receiver.toList ++ args) ps ∧
      Runs.all ps = .all (codes.map (·.run W)) := by
    cases receiver with
    | none => exact evaluates_discarded hpassed
    | some receiver =>
      obtain ⟨p, rest, heq, hp, hrest⟩ := hpassed.cons_inv
      obtain ⟨ps, hps, hall⟩ := evaluates_discarded hrest
      exact ⟨p :: ps, .cons hp hps, by rw [heq, Runs.all_cons, hall, Runs.all_cons]⟩
  have heval := (EvaluatesAll.cons hcallee hps).strict
    (e := .call callee receiver args isNew ty loc) rfl
  rw [combine, Runs.all_cons, hall, Runs.seq_assoc] at heval
  cases isNew with
  | true =>
    rw [if_pos rfl, run_construct]
    exact heval
  | false =>
    have hfunction : f.isFunction = false ∨ codes ≠ [] := by
      refine (isFunction_callee h.orderly.inOrder hf).imp_right fun hne hnil => hne ?_
      rw [hnil] at hpassed
      exact List.eq_nil_of_length_eq_zero hpassed.1.symm
    rw [if_neg Bool.false_ne_true]
    refine (run_call hfunction).symm ▸ heval

/-- The code for a curried application calls with one argument after the other. -/
theorem applied_run {f : Expr} {args : List Ir.Expr} (h : ∀ e ∈ args, Suits W ctx e s)
    (hcode : (rules n).applied ctx f args s = (.ok code, t)) :
    ∃ ps, EvaluatesAll W ctx.file ctx.targets args ps ∧ code.run W =
      ps.foldl (fun f arg => .seq f (.seq arg (W.does .call))) (f.run W) := by
  induction args generalizing f s with
  | nil =>
    obtain ⟨rfl, -⟩ := pure_eq_ok.1 hcode
    exact ⟨[], .nil, rfl⟩
  | cons arg args ih =>
    simp only [Parts.applied, bind_eq_ok] at hcode
    obtain ⟨value, u, hvalue, hcode⟩ := hcode
    obtain ⟨harg, hargs⟩ := List.forall_mem_cons.1 h
    obtain ⟨ps, hps, hrun⟩ := ih (fun d hd => (hargs d hd).grows (grows_expr hvalue)) hcode
    refine ⟨value.run W :: ps, .cons (hn.expr harg hvalue) hps, ?_⟩
    rw [hrun, run_call (.inr (List.cons_ne_nil _ _)), List.map_singleton, Runs.all_cons,
      Runs.all_nil, Runs.seq_exit_normal, List.foldl_cons]

/-- The code for a binary operation evaluates its operands in order. -/
theorem binary_evaluated {op : Ir.BinaryOp} {left right : Ir.Expr} {ty : Ir.Ty}
    {loc : Option Ir.Location} (h : Suits W ctx (.binary op left right ty loc) s)
    (hcode : (rules n).binary ctx op left right ty s = (.ok code, t)) :
    Evaluates W ctx.file ctx.targets .plain (.binary op left right ty loc) (code.run W) := by
  simp only [Parts.binary, bind_eq_ok] at hcode
  obtain ⟨a, u, ha, b, v, hb, hcode⟩ := hcode
  have hsu : Grows s u := grows_expr ha
  have hsv : Grows s v := hsu.trans (grows_expr hb)
  have hleft := hn.expr (h.child (fun _ => rfl) List.mem_cons_self) ha
  have hright := hn.expr ((h.child (fun _ => rfl) (.tail _ List.mem_cons_self)).grows hsu) hb
  have heval := (EvaluatesAll.cons hleft (.single hright)).strict
    (e := .binary op left right ty loc) rfl
  rw [combine, Runs.all_cons, Runs.all_cons, Runs.all_nil, Runs.seq_exit_normal] at heval
  -- An operator leaves it at the operands, and the helper is called with them.
  have hplain : comparesStructurally op left = false →
      Evaluates W ctx.file ctx.targets .plain (.binary op left right ty loc)
        ((Expr.binary (binaryOperator op) a b).run W) := by
    intro hop
    rw [run_binary a b (by cases op <;> decide)]
    rwa [hop, if_neg Bool.false_ne_true, Runs.seq_exit_normal] at heval
  have hhelper : ∀ {equals : String} {w : LowerState}, comparesStructurally op left = true →
      helper ctx "equals" v = (.ok equals, w) →
      Evaluates W ctx.file ctx.targets .plain (.binary op left right ty loc)
        ((Expr.call (.ident equals) [a, b]).run W) := by
    intro equals w hop hequals
    have hname := overlooks_importMember (h.state.grows hsv) hequals
    rw [run_call (.inr (List.cons_ne_nil _ _)), run_ident_of_overlooks hname,
      Runs.exit_normal_seq, List.map_cons, List.map_singleton, Runs.all_cons, Runs.all_cons,
      Runs.all_nil, Runs.seq_exit_normal]
    rwa [hop, if_pos rfl] at heval
  cases op with
  | equal =>
    dsimp only at hcode
    split at hcode
    · obtain ⟨rfl, -⟩ := pure_eq_ok.1 hcode
      exact hplain (by simp [comparesStructurally, *])
    · simp only [bind_eq_ok, pure_eq_ok] at hcode
      obtain ⟨equals, w, hequals, rfl, -⟩ := hcode
      exact hhelper (by simp [comparesStructurally, *]) hequals
  | notEqual =>
    dsimp only at hcode
    split at hcode
    · obtain ⟨rfl, -⟩ := pure_eq_ok.1 hcode
      exact hplain (by simp [comparesStructurally, *])
    · simp only [bind_eq_ok, pure_eq_ok] at hcode
      obtain ⟨equals, w, hequals, rfl, -⟩ := hcode
      rw [run_unary]
      exact hhelper (by simp [comparesStructurally, *]) hequals
  | divide =>
    obtain ⟨rfl, -⟩ := pure_eq_ok.1 hcode
    split
    · rw [run_binary _ _ (by decide), run_number, Runs.seq_exit_normal]
      exact hplain rfl
    · exact hplain rfl
  | _ =>
    obtain ⟨rfl, -⟩ := pure_eq_ok.1 hcode
    exact hplain rfl

omit hn in

/-- What is read from an object is read after the object is evaluated. -/
theorem access_run (obj : Expr) (access : Ir.Access) :
    (Parts.access obj access).run W = .seq (obj.run W) (accesses W access) := by
  cases access with
  | field name => exact run_member obj name
  | tupleItem i =>
    rw [Parts.access, run_index, run_number, Runs.exit_normal_seq]
    rfl
  | unionTag => exact run_member obj "tag"
  | unionField case field =>
    rw [Parts.access, run_index, run_member, run_number, Runs.exit_normal_seq, Runs.seq_assoc]
    rfl
  | optionValue => exact (Runs.seq_exit_normal _).symm

omit hn in

/-- A test does what its kind asks for, after the value is evaluated. -/
theorem test_run {value : Expr} {kind : Ir.TestKind} {loc : Option Ir.Location}
    (hctx : Unnoticed W ctx) (hany : kind = .type .any → value.run W = .exit .normal)
    (hcode : Parts.test ctx value kind loc s = (.ok code, t)) :
    code.run W = tests W kind (value.run W) := by
  have htypeOf : ∀ name, (hasTypeOf value name).run W = value.run W := fun name => by
    rw [hasTypeOf, run_binary _ _ (by decide), run_unary, run_string, Runs.seq_exit_normal]
  have harray : (Expr.call (.member (.ident "Array") "isArray") [value]).run W =
      .seq (W.does (.load (some "isArray"))) (.seq (value.run W) (W.does .call)) := by
    have hname : W.Overlooks "Array" := hctx.builtins "Array" (by simp [builtins])
    rw [run_call (.inr (List.cons_ne_nil _ _)), run_member, run_ident_of_overlooks hname,
      Runs.exit_normal_seq, List.map_singleton, Runs.all_cons, Runs.all_nil, Runs.seq_exit_normal]
  have hinstance : ∀ {x}, W.Overlooks x →
      (Expr.binary .instanceOf value (.ident x)).run W = value.run W := fun hx => by
    rw [run_binary _ _ (by decide), run_ident_of_overlooks hx, Runs.seq_exit_normal]
  cases kind with
  | option isSome =>
    obtain ⟨rfl, -⟩ := pure_eq_ok.1 hcode
    rw [run_binary _ _ (by cases isSome <;> decide), run_literal, Runs.seq_exit_normal]
    rfl
  | unionCase tag =>
    obtain ⟨rfl, -⟩ := pure_eq_ok.1 hcode
    rw [run_binary _ _ (by decide), run_member, run_number, Runs.seq_exit_normal]
    rfl
  | type ty =>
    cases ty with
    | any =>
      obtain ⟨rfl, -⟩ := pure_eq_ok.1 hcode
      rw [run_literal, hany rfl]
      rfl
    | boolean | char | string | number | lambda | delegate =>
      obtain ⟨rfl, -⟩ := pure_eq_ok.1 hcode
      exact htypeOf _
    | array | list | tuple =>
      obtain ⟨rfl, -⟩ := pure_eq_ok.1 hcode
      exact harray
    | regex =>
      obtain ⟨rfl, -⟩ := pure_eq_ok.1 hcode
      exact hinstance (hctx.builtins "RegExp" (by simp [builtins]))
    | declared entity generics =>
      simp only [Parts.test, bind_eq_ok, pure_eq_ok] at hcode
      obtain ⟨name, u, hname, rfl, -⟩ := hcode
      exact hinstance (overlooks_className hctx hname)
    | unit | option | param => exact absurd hcode fail_ne_ok

omit hn in
/-- Where an assignment goes to: a variable has nothing to evaluate. -/
theorem place_locate {target : Ir.Expr} {field : Option String} {place : Expr}
    {loc : Option Ir.Location} {value : Ir.Expr} (h : Suits W ctx (.set target field value loc) s)
    (hplace : (rules n).place ctx target field s = (.ok place, t)) :
    (field = none ∧ place.locate W = .exit .normal ∧
        ∃ id, target.uncast = .ident id ∧ place.store W = W.does (.write id.name)) ∨
      ∃ name obj, field = some name ∧ place = .member obj name ∧
        (rules n).expr ctx target s = (.ok obj, t) := by
  simp only [Parts.place, bind_eq_ok, pure_eq_ok] at hplace
  obtain ⟨obj, u, hobj, rfl, rfl⟩ := hplace
  cases field with
  | some name => exact .inr ⟨name, obj, rfl, rfl, hobj⟩
  | none =>
    have htarget : target.isVariable = true := h.orderly.inOrder
    rw [Ir.Expr.isVariable] at htarget
    cases hid : target.uncast with
    | ident id =>
      rw [hid, Bool.not_eq_true'] at htarget
      have hform := form_of_isVariable hid htarget hobj
      obtain ⟨objLoc, form⟩ := obj
      obtain rfl : form = _ := hform
      refine .inl ⟨rfl, ?_, id, rfl, rfl⟩
      rw [Expr.locate]
    | _ =>
      rw [hid] at htarget
      cases htarget

/-- The code that sets a field evaluates the target before the value. -/
theorem set_evaluated {target value : Ir.Expr} {field : Option String} {loc : Option Ir.Location}
    (h : Suits W ctx (.set target field value loc) s)
    (hcode : (rules n).exprCore ctx (.set target field value loc) s = (.ok code, t)) :
    Evaluates W ctx.file ctx.targets .plain (.set target field value loc) (code.run W) := by
  simp only [Parts.exprCore, bind_eq_ok, pure_eq_ok] at hcode
  obtain ⟨place, u, hplace, valueCode, v, hvalue, rfl, -⟩ := hcode
  have hsu : Grows s u := ((rules_deepens (Nat.le_refl n)).place ctx target field).grows hplace
  have hvalue := hn.expr ((h.child (fun _ => rfl) (.tail _ List.mem_cons_self)).grows hsu) hvalue
  rw [run_assign]
  rcases place_locate h hplace with ⟨rfl, hlocate, id, hid, hstore⟩ | ⟨name, obj, rfl, rfl, hobj⟩
  · rw [hlocate, Runs.exit_normal_seq, hstore, ← Runs.seq_exit_normal (.seq _ _)]
    exact .setVariable hid (.delivered hvalue)
  · have htarget := hn.expr (h.child (fun _ => rfl) List.mem_cons_self) hobj
    rw [locate_member, store_member, ← Runs.seq_exit_normal (.seq (obj.run W) _)]
    exact .setField htarget (.delivered hvalue)

/-- The code that sets an element evaluates the target and the index before the value. -/
theorem setIndex_evaluated {target index value : Ir.Expr} {loc : Option Ir.Location}
    (h : Suits W ctx (.setIndex target index value loc) s)
    (hcode : (rules n).exprCore ctx (.setIndex target index value loc) s = (.ok code, t)) :
    Evaluates W ctx.file ctx.targets .plain (.setIndex target index value loc) (code.run W) := by
  simp only [Parts.exprCore, Parts.element, bind_eq_ok, pure_eq_ok] at hcode
  obtain ⟨_, _, ⟨obj, v, hobj, i, u, hi, rfl, rfl⟩, valueCode, w, hvalue, rfl, -⟩ := hcode
  have hsv : Grows s v := grows_expr hobj
  have hsu : Grows s u := hsv.trans (grows_expr hi)
  have hchild : ∀ c ∈ [target, index, value], Suits W ctx c s :=
    fun c hc => h.child (fun _ => rfl) hc
  have htarget := hn.expr (hchild target (by simp)) hobj
  have hindex := hn.expr ((hchild index (by simp)).grows hsv) hi
  have hvalue := hn.expr ((hchild value (by simp)).grows hsu) hvalue
  rw [run_assign, locate_index, store_index, Runs.seq_assoc,
    ← Runs.seq_exit_normal (.seq (obj.run W) _)]
  exact .setIndex htarget hindex (.delivered hvalue)

/-- A comma expression. -/
theorem sequence_evaluated {codes : List Expr} (h : ∀ e ∈ es, Suits W ctx e s)
    (hcodes : (rules n).exprs ctx es s = (.ok codes, t)) :
    Evaluates W ctx.file ctx.targets .plain (.sequence es) ((sequenceOf codes).run W) := by
  have hall := exprs_evaluated hn h hcodes
  have hrun : (sequenceOf codes).run W = .all (codes.map (·.run W)) := by
    match codes with
    | [] => exact run_literal _
    | [item] =>
      rw [List.map_singleton, Runs.all_cons, Runs.all_nil, Runs.seq_exit_normal]
      rfl
    | _ :: _ :: _ =>
      rw [sequenceOf, run_of, ExprForm.run, runsOf_eq_map]
      · nofun
      · nofun
  rw [hrun]
  generalize codes.map (·.run W) = ps at hall
  rcases List.eq_nil_or_concat es with rfl | ⟨init, last, rfl⟩
  · obtain rfl := List.eq_nil_of_length_eq_zero hall.1
    exact .empty
  · obtain ⟨hlen, hs⟩ := hall
    rcases List.eq_nil_or_concat ps with rfl | ⟨ps, p, rfl⟩
    · rw [List.concat_eq_append, List.length_append] at hlen
      cases hlen
    · simp only [List.concat_eq_append, List.length_append, List.length_singleton,
        Nat.add_right_cancel_iff] at hlen
      rw [List.concat_eq_append, List.concat_eq_append, List.zip_append hlen.symm] at hs
      obtain ⟨hinit, hlast⟩ := List.forall_mem_append.1 hs
      rw [List.concat_eq_append, List.concat_eq_append, Runs.all_append, Runs.all_cons,
        Runs.all_nil, Runs.seq_exit_normal]
      exact .sequence hlen hinit (hlast (last, p) List.mem_cons_self)

omit hn in
/-- A success node that is an expression passes no values. -/
theorem eq_nil_of_isStatement {index : Nat} {values : List Ir.Expr} {ty : Ir.Ty}
    (h : isStatement ctx false (.success index values ty) = .ok false) : values = [] := by
  obtain ⟨k, hk⟩ : ∃ k, ctx.depth (.success index values ty) = k + 1 :=
    Nat.exists_eq_succ_of_ne_zero (by simp [Context.depth])
  rw [isStatement, hk, isStatementWithin] at h
  split at h
  · cases h
  · split at h
    · exact List.isEmpty_iff.1 ‹_›
    · cases h

/-- The code for a success node without values evaluates the selected target. -/
theorem success_evaluated {index : Nat} {values : List Ir.Expr} {ty : Ir.Ty}
    (h : Suits W ctx (.success index values ty) s)
    (hexpr : isStatement ctx false (.success index values ty) = .ok false)
    (hcode : (rules n).exprCore ctx (.success index values ty) s = (.ok code, t)) :
    Evaluates W ctx.file ctx.targets .plain (.success index values ty) (code.run W) := by
  obtain rfl := eq_nil_of_isStatement hexpr
  simp only [Parts.exprCore, Parts.target, bind_eq_ok, ofOption_eq_ok] at hcode
  obtain ⟨target, u, ⟨htarget, rfl⟩, hcode⟩ := hcode
  have hbound : ([] : List Ir.Expr).length = target.bound.length := by
    have harity := h.orderly.selects
    rw [List.getElem?_map, htarget] at harity
    exact (Option.some.inj harity).symm
  have hbody := hn.expr (h.selected (List.mem_of_getElem? htarget)) hcode
  have hnone : ([] : List (Runs W.State)).length = ([] : List Ir.Expr).length := rfl
  rw [← Runs.exit_normal_seq (code.run W)]
  refine .success rfl htarget hbound hnone (fun q hq => ?_) hbody
  rw [List.zip_nil_right] at hq
  cases hq

/-- A node that is neither expanded nor invoked. -/
theorem exprCore_evaluated (h : Suits W ctx e s)
    (hexpr : Parts.isInvoked ctx e u = (.ok false, s))
    (hcode : (rules n).exprCore ctx e s = (.ok code, t)) :
    Evaluates W ctx.file ctx.targets .plain e (code.run W) := by
  have hchild : (∀ arities, e.arms arities = e.children.map (arities, ·)) →
      ∀ c ∈ e.children, Suits W ctx c s := fun harms c hc => h.child harms hc
  have hnone : EvaluatesAll W ctx.file ctx.targets [] [] := .nil
  cases e with
  | literal value loc =>
    obtain ⟨rfl, -⟩ := pure_eq_ok.1 hcode
    have hrun : (Expr.of (literalForm value)).run W = .exit .normal := by
      rw [run_of]
      cases value <;> rw [literalForm, ExprForm.run]
    rw [hrun]
    exact hnone.strict (e := .literal value loc) rfl
  | option value ty loc =>
    cases value with
    | none =>
      obtain ⟨rfl, -⟩ := pure_eq_ok.1 hcode
      rw [run_literal]
      exact hnone.strict (e := .option none ty loc) rfl
    | some value =>
      have hvalue := hn.expr (hchild (fun _ => rfl) value List.mem_cons_self) hcode
      rw [← Runs.seq_exit_normal (code.run W)]
      exact (EvaluatesAll.single hvalue).strict (e := .option (some value) ty loc) rfl
  | aggregate => exact aggregate_evaluated hn h hcode
  | ident id =>
    obtain ⟨rfl, -⟩ := pure_eq_ok.1 hcode
    have hrun : (if id.isThis then Expr.of .this else .ident id.name).run W =
        combine W (.ident id) [] := by
      rw [combine]
      split
      · rw [run_of, ExprForm.run]
      · exact run_ident _
    rw [hrun]
    exact hnone.strict (e := .ident id) rfl
  | cast inner => exact .cast (hn.expr (hchild (fun _ => rfl) inner List.mem_cons_self) hcode)
  | imported ref ty loc =>
    simp only [Parts.exprCore, bind_eq_ok, pure_eq_ok] at hcode
    obtain ⟨⟨path, selector⟩, v, hresolve, name, w, hname, rfl, -⟩ := hcode
    have hsv : Grows s v := (Below.resolveImport _ _).grows hresolve
    rw [run_ident_of_overlooks (overlooks_importMember (h.state.grows hsv) hname)]
    exact hnone.strict (e := .imported ref ty loc) rfl
  | lambda arg body name =>
    simp only [Parts.exprCore, Parts.closure, bind_eq_ok, pure_eq_ok] at hcode
    obtain ⟨_, _, -, rfl, -⟩ := hcode
    rw [run_of, ExprForm.run]
    exact hnone.strict (e := .lambda arg body name) rfl
  | delegate args body name =>
    simp only [Parts.exprCore, Parts.closure, bind_eq_ok, pure_eq_ok] at hcode
    obtain ⟨_, _, -, rfl, -⟩ := hcode
    rw [run_of, ExprForm.run]
    exact hnone.strict (e := .delegate args body name) rfl
  | object => exact object_evaluated hn h hcode
  | call => exact call_evaluated hn h hcode
  | apply f args ty loc =>
    simp only [Parts.exprCore, bind_eq_ok] at hcode
    obtain ⟨g, v, hg, hcode⟩ := hcode
    have hf := hn.expr (hchild (fun _ => rfl) f List.mem_cons_self) hg
    obtain ⟨ps, hps, hrun⟩ := applied_run hn (fun c hc =>
      (hchild (fun _ => rfl) c (.tail _ hc)).grows (grows_expr hg)) hcode
    rw [hrun]
    exact (EvaluatesAll.cons hf hps).strict (e := .apply f args ty loc) rfl
  | unary op operand ty loc =>
    simp only [Parts.exprCore, bind_eq_ok, pure_eq_ok] at hcode
    obtain ⟨value, v, hvalue, rfl, -⟩ := hcode
    have hvalue := hn.expr (hchild (fun _ => rfl) operand List.mem_cons_self) hvalue
    rw [run_unary, ← Runs.seq_exit_normal (value.run W)]
    exact (EvaluatesAll.single hvalue).strict (e := .unary op operand ty loc) rfl
  | binary => exact binary_evaluated hn h hcode
  | logical op left right ty loc =>
    simp only [Parts.exprCore, bind_eq_ok, pure_eq_ok] at hcode
    obtain ⟨a, v, ha, b, w, hb, rfl, -⟩ := hcode
    have hleft := hn.expr (hchild (fun _ => rfl) left List.mem_cons_self) ha
    have hright := hn.expr ((hchild (fun _ => rfl) right (.tail _ List.mem_cons_self)).grows
      (grows_expr ha)) hb
    have hrun : (Expr.binary (logicalOperator op) a b).run W =
        shortCircuit W op (a.run W) (b.run W) := by
      cases op <;> rw [logicalOperator, Expr.binary, run_of, ExprForm.run, shortCircuit]
    rw [hrun]
    exact .logical hleft hright
  | emit template args isStatement ty loc =>
    obtain rfl : isStatement = false := (pure_eq_ok.1 hexpr).1
    simp only [Parts.exprCore, bind_eq_ok, pure_eq_ok] at hcode
    obtain ⟨codes, v, hcodes, rfl, -⟩ := hcode
    have hargs := exprs_evaluated hn (fun c hc => hchild (fun _ => rfl) c hc) hcodes
    rw [run_of, ExprForm.run, runsOf_eq_map]
    exact hargs.strict (e := .emit template args false ty loc) rfl
  | get obj access ty loc =>
    simp only [Parts.exprCore, bind_eq_ok, pure_eq_ok] at hcode
    obtain ⟨value, v, hvalue, rfl, -⟩ := hcode
    have hvalue := hn.expr (hchild (fun _ => rfl) obj List.mem_cons_self) hvalue
    have heval := (EvaluatesAll.single hvalue).strict (e := .get obj access ty loc) rfl
    rw [combine, Runs.all_cons, Runs.all_nil, Runs.seq_exit_normal] at heval
    rw [access_run]
    exact heval
  | getIndex obj index ty loc =>
    simp only [Parts.exprCore, Parts.element, bind_eq_ok, pure_eq_ok] at hcode
    obtain ⟨a, v, ha, b, w, hb, rfl, -⟩ := hcode
    have hobj := hn.expr (hchild (fun _ => rfl) obj List.mem_cons_self) ha
    have hindex := hn.expr ((hchild (fun _ => rfl) index (.tail _ List.mem_cons_self)).grows
      (grows_expr ha)) hb
    have heval := (EvaluatesAll.cons hobj (.single hindex)).strict
      (e := .getIndex obj index ty loc) rfl
    rw [combine, Runs.all_cons, Runs.all_cons, Runs.all_nil, Runs.seq_exit_normal,
      Runs.seq_assoc] at heval
    rw [run_index]
    exact heval
  | set => exact set_evaluated hn h hcode
  | setIndex => exact setIndex_evaluated hn h hcode
  | test value kind loc =>
    simp only [Parts.exprCore, bind_eq_ok] at hcode
    obtain ⟨a, v, ha, hcode⟩ := hcode
    have hvalue := hn.expr (hchild (fun _ => rfl) value List.mem_cons_self) ha
    have heval := (EvaluatesAll.single hvalue).strict (e := .test value kind loc) rfl
    rw [combine, Runs.all_cons, Runs.all_nil, Runs.seq_exit_normal] at heval
    rw [test_run h.context (by rintro rfl; exact run_of_silent h.orderly.inOrder ha) hcode]
    exact heval
  | ifThenElse guard thenExpr elseExpr loc =>
    simp only [Parts.exprCore, bind_eq_ok, pure_eq_ok] at hcode
    obtain ⟨a, v, ha, b, w, hb, c, x, hc, rfl, -⟩ := hcode
    have hsv : Grows s v := grows_expr ha
    have hsw : Grows s w := hsv.trans (grows_expr hb)
    have hchild := hchild fun _ => rfl
    have hguard := hn.expr (hchild guard (by simp [Ir.Expr.children])) ha
    have hthen := hn.expr ((hchild thenExpr (by simp [Ir.Expr.children])).grows hsv) hb
    have helse := hn.expr ((hchild elseExpr (by simp [Ir.Expr.children])).grows hsw) hc
    rw [run_of, ExprForm.run]
    exact .ifThenElse hguard hthen helse
  | decisionTree => exact .tree (hn.expr h.dispatcher hcode)
  | success => exact success_evaluated hn h (isStatement_eq_ok.1 hexpr).1 hcode
  | sequence exprs =>
    simp only [Parts.exprCore, bind_eq_ok, pure_eq_ok] at hcode
    obtain ⟨codes, v, hcodes, rfl, -⟩ := hcode
    exact sequence_evaluated hn (fun c hc => hchild (fun _ => rfl) c hc) hcodes
  | curry inner arity loc =>
    simp only [Parts.exprCore, bind_eq_ok, pure_eq_ok] at hcode
    obtain ⟨curry, v, hcurry, a, w, ha, rfl, -⟩ := hcode
    have hsv : Grows s v := (below_helper ctx _).grows hcurry
    have hinner := hn.expr ((hchild (fun _ => rfl) inner List.mem_cons_self).grows hsv) ha
    rw [run_call (.inr (List.cons_ne_nil _ _)),
      run_ident_of_overlooks (overlooks_importMember h.state hcurry), Runs.exit_normal_seq]
    exact (EvaluatesAll.single hinner).strict (e := .curry inner arity loc) rfl
  | throw | debugger | letIn | letRec | whileLoop | forLoop | tryCatch =>
    exact invoked_evaluated hn h hcode

/-! ## Expansions -/

omit hn in

/-- The expansion of a call is orderly if its arguments and its body are. -/
theorem orderly_bindParams {params : List Ir.Ident} {args : List Ir.Expr} {body : Ir.Expr}
    {arities : List Nat} (hargs : ∀ arg ∈ args, arg.Orderly W arities)
    (hbody : body.Orderly W arities) : (bindParams params args body).Orderly W arities := by
  induction params generalizing args with
  | nil => exact hbody
  | cons p params ih =>
    cases args with
    | nil => exact hbody
    | cons arg args =>
      obtain ⟨harg, hargs⟩ := List.forall_mem_cons.1 hargs
      refine .node trivial nofun fun q hq => ?_
      rcases List.mem_cons.1 hq with rfl | hq
      · exact harg
      · obtain rfl := List.mem_singleton.1 hq
        exact ih hargs

omit hn in
/-- The expansion of a call is orderly, since the new parameters are not watched. -/
theorem suits_expanded {callee expanded : Ir.Expr} {args : List Ir.Expr} {isNew : Bool}
    {ty : Ir.Ty} {loc : Option Ir.Location}
    (h : Suits W ctx (.call callee none args isNew ty loc) s)
    (hexpands : expandInline ctx.file callee args s = (.ok (some expanded), t)) :
    Suits W ctx expanded t := by
  obtain ⟨inline, fresh, hinline⟩ := expandInline_expands hexpands
  obtain ⟨name, hname⟩ := hinline.isInline
  obtain ⟨i, hi, rfl⟩ := mem_inlines hname
  obtain ⟨names, hfresh⟩ := hinline.isFresh
  have hg : Grows s t := (Below.expandInline _ _ _).grows hexpands
  refine ⟨h.context, hinline.eq ▸ orderly_bindParams (fun arg harg => ?_) ?_, h.state.grows hg⟩
  · exact h.orderly.child rfl (List.mem_cons_of_mem _ harg)
  · refine ((h.context.inlines i hi).closed _).rename fun p hp => ?_
    obtain ⟨q, hq, heq⟩ := exists_of_mem_paramRenaming hp
    have hnew := ((freshParams_spec hfresh).isNew q.name (List.mem_map_of_mem hq)).2
    exact heq ▸ (h.state.free q.name hnew).1

/-- The code for a node does what evaluating the node is to do. -/
theorem exprRule_evaluated (h : Suits W ctx e s)
    (hcode : (rules n).exprRule ctx e s = (.ok code, t)) :
    Evaluates W ctx.file ctx.targets .plain e (code.run W) := by
  cases exprRule_lowersBy hcode with
  | expansion call expands lowers =>
    subst call
    exact .expanded expands (hn.expr (suits_expanded h expands) lowers)
  | invoked grows _ lowers => exact invoked_evaluated hn (h.grows grows) lowers
  | core grows isInvoked lowers located =>
    rw [located, run_withLoc]
    exact exprCore_evaluated hn (h.grows grows) isInvoked lowers

end

end JavaScript

end TypedLowering
