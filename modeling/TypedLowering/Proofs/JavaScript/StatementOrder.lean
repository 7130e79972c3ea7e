import TypedLowering.Proofs.JavaScript.Control
import TypedLowering.Proofs.JavaScript.ExpressionOrder

/-!
# Statements are evaluated in order

The statements for a node do what evaluating the node and delivering its value is to do
(`stmtsRule_evaluated`), so by induction on the depth all code does (`rules_keepOrder`).
-/

namespace TypedLowering.JavaScript

open Control Lower

variable {W : World} {n : Nat} {ctx : Context} {e : Ir.Expr} {es : List Ir.Expr} {code : Expr}
  {strategy : Strategy Expr} {stmts : List Stmt} {s t u : LowerState} {loc : Option Ir.Location}

/-! ## Delivered values -/

/-- A value is delivered after its code is evaluated. -/
theorem deliver_run (hplace : SilentPlace W strategy) (ctx : Context) (code : Expr) :
    runStmts W (deliver strategy code) = .seq (code.run W) (delivery W ctx strategy).value := by
  cases strategy with
  | ret =>
    rw [deliver, runStmts_singleton, Stmt.of, Stmt.run, StmtForm.run, runOption]
    rfl
  | effect =>
    rw [deliver, runStmts_singleton, run_expr]
    exact (Runs.seq_exit_normal _).symm
  | assign place =>
    have hlocate : place.locate W = .exit .normal := hplace
    rw [deliver, runStmts_singleton, Stmt.of, Stmt.run, StmtForm.run, run_assign, hlocate,
      Runs.exit_normal_seq]
    rfl
  | join name =>
    rw [deliver, runStmts_singleton, Stmt.of, Stmt.run, StmtForm.run, run_assign, locate_ident,
      Runs.exit_normal_seq, store_ident, World.does_of_ignores hplace.write]
    rfl

/-- The end of a node without a value is that of the delivery. -/
theorem deliverUnit_run (ctx : Context) (strategy : Strategy Expr) :
    runStmts W (deliverUnit strategy) = (delivery W ctx strategy).unit := by
  cases strategy with
  | ret =>
    rw [deliverUnit, runStmts_singleton, Stmt.of, Stmt.run, StmtForm.run, runOption,
      Runs.exit_normal_seq]
    rfl
  | effect | assign | join => exact runStmts_nil

/-- A value that is not used has a silent place. -/
theorem silentPlace_effect : SilentPlace W .effect :=
  trivial

/-- An identifier is a silent place. -/
theorem silentPlace_ident (x : String) : SilentPlace W (.assign (.ident x)) :=
  locate_ident x

/-- Without the loop around, the delivery does not go on with it. -/
theorem delivery_withoutTailCall (W : World) (ctx : Context) (strategy : Strategy Expr) :
    delivery W ctx.withoutTailCall strategy = (delivery W ctx strategy).unlooped := by
  cases strategy <;> rfl

/-- Whatever is delivered leaves no switch. -/
theorem ends_delivery (ctx : Context) (strategy : Strategy Expr) :
    (delivery W ctx strategy).Ends fun x => x.leave = x := by
  have hplain : ∀ x : Exit, x.IsPlain → x.leave = x := fun _ => Exit.IsPlain.leave_eq
  cases strategy with
  | ret => exact ⟨Runs.ends_exit rfl, Runs.ends_exit rfl, nofun, fun _ _ => rfl, rfl⟩
  | effect => exact ⟨Runs.ends_exit rfl, Runs.ends_exit rfl, nofun, fun _ _ => rfl, rfl⟩
  | assign place =>
    refine ⟨Runs.Ends.mono ?_ hplain, Runs.ends_exit rfl, nofun, nofun, rfl⟩
    show (place.store W).Ends _
    unfold Expr.store
    split
    · exact ends_does _
    · exact ends_does _
    · exact ends_does _
    · exact ends_normal
  | join => exact ⟨Runs.ends_exit rfl, Runs.ends_exit rfl, fun _ => rfl, nofun, rfl⟩

/-- A value that is returned does not come to the end. -/
theorem ends_delivery_ret (ctx : Context) :
    (delivery W ctx .ret).Ends fun x => x ≠ .normal := by
  refine ⟨Runs.ends_exit ?_, Runs.ends_exit ?_, nofun, fun _ _ => ?_, ?_⟩ <;> nofun

section
variable (hn : KeepsOrder W n)
include hn

/-- Operands do not leave the function. -/
theorem KeepsOrder.exprInside (h : Suits W ctx e s)
    (hcode : (rules n).expr ctx.withoutTailCall e s = (.ok code, t)) :
    Evaluates W ctx.file ctx.targets .plain e (code.run W) :=
  have heval := hn.expr h.withoutTailCall hcode
  heval

/-- The statements inside another construct evaluate the node, without the loop around. -/
theorem KeepsOrder.stmtsInside (h : Suits W ctx e s) (hplace : SilentPlace W strategy)
    (hstmts : (rules n).stmts ctx.withoutTailCall strategy e s = (.ok stmts, t)) :
    Evaluates W ctx.file ctx.targets (delivery W ctx strategy).unlooped e (runStmts W stmts) :=
  have heval := hn.stmts h.withoutTailCall hplace hstmts
  delivery_withoutTailCall W ctx strategy ▸ heval

/-- The code that delivers a value evaluates its node. -/
theorem delivered_evaluated (h : Suits W ctx e s) (hplace : SilentPlace W strategy)
    (hstmts : (rules n).delivered ctx strategy e s = (.ok stmts, t)) :
    Evaluates W ctx.file ctx.targets (delivery W ctx strategy) e (runStmts W stmts) := by
  simp only [Parts.delivered, bind_eq_ok, pure_eq_ok] at hstmts
  obtain ⟨code, u, hcode, rfl, -⟩ := hstmts
  rw [deliver_run hplace ctx]
  exact .delivered (hn.exprInside h hcode)

/-! ## Bindings -/

/-- A declaration evaluates its value and binds it. -/
theorem declare_evaluated {id : Ir.Ident} (h : Suits W ctx e s)
    (hstmts : (rules n).declare ctx id e s = (.ok stmts, t)) :
    Evaluates W ctx.file ctx.targets (.bind W id) e (runStmts W stmts) := by
  rw [Parts.declare] at hstmts
  rw [Delivery.bind]
  split at hstmts
  · rw [if_pos ‹_›]
    exact hn.stmtsInside h silentPlace_effect hstmts
  · rw [if_neg ‹_›]
    simp only [bind_eq_ok, isStatement_eq_ok] at hstmts
    obtain ⟨isStatement, _, ⟨-, rfl⟩, hstmts⟩ := hstmts
    cases isStatement with
    | true =>
      simp only [if_true, bind_eq_ok, pure_eq_ok] at hstmts
      obtain ⟨own, v, hown, rfl, -⟩ := hstmts
      rw [runStmts_cons, run_declare_none, Runs.exit_normal_seq]
      exact hn.stmtsInside h (silentPlace_ident _) hown
    | false =>
      simp only [Bool.false_eq_true, if_false, bind_eq_ok, pure_eq_ok] at hstmts
      obtain ⟨code, v, hcode, rfl, -⟩ := hstmts
      rw [runStmts_singleton, run_declare]
      exact .delivered (hn.exprInside h hcode)

/-- Assignments to the identifiers that a target binds are made in order. -/
theorem assignments_evaluated {ids : List Ir.Ident} {values : List Ir.Expr}
    (hlen : values.length = ids.length) (h : ∀ e ∈ values, Suits W ctx e s)
    (hstmts : (rules n).assignments ctx ids values s = (.ok stmts, t)) :
    ∃ ps : List (Runs W.State), ps.length = values.length ∧
      (∀ q ∈ (ids.zip values).zip ps, Evaluates W ctx.file ctx.targets
        (.into (W.does (.write q.1.1.name))) q.1.2 q.2) ∧
      runStmts W stmts = .all ps := by
  induction ids generalizing values s t stmts with
  | nil =>
    obtain rfl := List.eq_nil_of_length_eq_zero hlen
    obtain ⟨rfl, -⟩ := pure_eq_ok.1 hstmts
    exact ⟨[], rfl, List.forall_mem_nil _, runStmts_nil⟩
  | cons id ids ih =>
    cases values with
    | nil => cases hlen
    | cons value values =>
      simp only [Parts.assignments, bind_eq_ok, pure_eq_ok] at hstmts
      obtain ⟨first, u, hfirst, rest, v, hrest, rfl, -⟩ := hstmts
      obtain ⟨hvalue, hvalues⟩ := List.forall_mem_cons.1 h
      obtain ⟨ps, hps, heval, hrun⟩ := ih (Nat.succ.inj hlen)
        (fun d hd => (hvalues d hd).grows (grows_stmts hfirst)) hrest
      have hfirst := hn.stmtsInside hvalue (silentPlace_ident _) hfirst
      refine ⟨runStmts W first :: ps, congrArg (· + 1) hps,
        List.forall_mem_cons.2 ⟨hfirst, heval⟩, ?_⟩
      rw [runStmts_append, hrun, Runs.all_cons]

/-- Declarations of the identifiers that a target binds are made in order. -/
theorem bindings_evaluated {ids : List Ir.Ident} {values : List Ir.Expr}
    (hlen : values.length = ids.length) (h : ∀ e ∈ values, Suits W ctx e s)
    (hstmts : (rules n).bindings ctx ids values s = (.ok stmts, t)) :
    ∃ ps : List (Runs W.State), ps.length = values.length ∧
      (∀ q ∈ (ids.zip values).zip ps, Evaluates W ctx.file ctx.targets (.bind W q.1.1) q.1.2 q.2) ∧
      runStmts W stmts = .all ps := by
  induction ids generalizing values s t stmts with
  | nil =>
    obtain rfl := List.eq_nil_of_length_eq_zero hlen
    obtain ⟨rfl, -⟩ := pure_eq_ok.1 hstmts
    exact ⟨[], rfl, List.forall_mem_nil _, runStmts_nil⟩
  | cons id ids ih =>
    cases values with
    | nil => cases hlen
    | cons value values =>
      simp only [Parts.bindings, bind_eq_ok, pure_eq_ok] at hstmts
      obtain ⟨first, u, hfirst, rest, v, hrest, rfl, -⟩ := hstmts
      obtain ⟨hvalue, hvalues⟩ := List.forall_mem_cons.1 h
      have hsu : Grows s u := ((rules_deepens (Nat.le_refl n)).declare ctx id value).grows hfirst
      obtain ⟨ps, hps, heval, hrun⟩ := ih (Nat.succ.inj hlen)
        (fun d hd => (hvalues d hd).grows hsu) hrest
      have hfirst := declare_evaluated hn hvalue hfirst
      refine ⟨runStmts W first :: ps, congrArg (· + 1) hps,
        List.forall_mem_cons.2 ⟨hfirst, heval⟩, ?_⟩
      rw [runStmts_append, hrun, Runs.all_cons]

omit hn in
/-- Functions are declared as such, and other values are bound. -/
theorem recursive_cons_of_isFunction (r : Parts) (ctx : Context) (b : Ir.Binding)
    (bs : List Ir.Binding) :
    (b.value.isFunction = true ∧ ∃ params body, r.recursive ctx (b :: bs) = do
      let first ← r.localFunction ctx b.ident params body
      let rest ← r.recursive ctx bs
      return first :: rest) ∨
    (b.value.isFunction = false ∧ r.recursive ctx (b :: bs) = do
      let first ← r.declare ctx b.ident b.value
      let rest ← r.recursive ctx bs
      return first ++ rest) := by
  rw [Ir.Expr.isFunction, Parts.recursive]
  cases b.value.uncast with
  | lambda arg body name => exact .inl ⟨rfl, [arg], body, rfl⟩
  | delegate args body name => exact .inl ⟨rfl, args, body, rfl⟩
  | _ => exact .inr ⟨rfl, rfl⟩

omit hn in

/-- The declaration of a function does nothing. -/
theorem localFunction_run {r : Parts} {id : Ir.Ident} {params : List Ir.Ident} {body : Ir.Expr}
    {own : Stmt} (h : r.localFunction ctx id params body s = (.ok own, t)) :
    own.run W [] = .exit .normal := by
  simp only [Parts.localFunction, bind_eq_ok, pure_eq_ok] at h
  obtain ⟨_, _, -, rfl, -⟩ := h
  rw [Stmt.of, Stmt.run, StmtForm.run]

/-- The bindings of a recursive let are made in order; functions are declared. -/
theorem recursive_evaluated {bs : List Ir.Binding} (h : ∀ b ∈ bs, Suits W ctx b.value s)
    (hstmts : (rules n).recursive ctx bs s = (.ok stmts, t)) :
    ∃ ps : List (Runs W.State), ps.length = bs.length ∧
      (∀ q ∈ bs.zip ps, q.1.value.isFunction = true → q.2 = .exit .normal) ∧
      (∀ q ∈ bs.zip ps, q.1.value.isFunction = false →
        Evaluates W ctx.file ctx.targets (.bind W q.1.ident) q.1.value q.2) ∧
      runStmts W stmts = .all ps := by
  induction bs generalizing s t stmts with
  | nil =>
    obtain ⟨rfl, -⟩ := pure_eq_ok.1 hstmts
    exact ⟨[], rfl, List.forall_mem_nil _, List.forall_mem_nil _, runStmts_nil⟩
  | cons b bs ih =>
    obtain ⟨hb, hbs⟩ := List.forall_mem_cons.1 h
    have hrest : ∀ {u v : LowerState} {rest : List Stmt} {p : Runs W.State}, Grows s u →
        (rules n).recursive ctx bs u = (.ok rest, v) →
        (b.value.isFunction = true → p = .exit .normal) →
        (b.value.isFunction = false →
          Evaluates W ctx.file ctx.targets (.bind W b.ident) b.value p) →
        ∃ ps : List (Runs W.State), ps.length = (b :: bs).length ∧
          (∀ q ∈ (b :: bs).zip ps, q.1.value.isFunction = true → q.2 = .exit .normal) ∧
          (∀ q ∈ (b :: bs).zip ps, q.1.value.isFunction = false →
            Evaluates W ctx.file ctx.targets (.bind W q.1.ident) q.1.value q.2) ∧
          Runs.seq p (runStmts W rest) = .all ps := by
      intro u v rest p hsu hrest hfunction hvalue
      obtain ⟨ps, hps, hfunctions, hvalues, hrun⟩ :=
        ih (fun c hc => (hbs c hc).grows hsu) hrest
      exact ⟨p :: ps, congrArg (· + 1) hps, List.forall_mem_cons.2 ⟨hfunction, hfunctions⟩,
        List.forall_mem_cons.2 ⟨hvalue, hvalues⟩, by rw [hrun, Runs.all_cons]⟩
    rcases recursive_cons_of_isFunction (rules n) ctx b bs with
      ⟨hfunction, params, body, heq⟩ | ⟨hfunction, heq⟩
    · simp only [heq, bind_eq_ok, pure_eq_ok] at hstmts
      obtain ⟨own, u, hown, rest, v, hrest', rfl, -⟩ := hstmts
      have hsu : Grows s u :=
        ((rules_deepens (Nat.le_refl n)).localFunction ctx _ _ _).grows hown
      rw [runStmts_cons]
      exact hrest hsu hrest' (fun _ => localFunction_run hown)
        fun hvalue => Bool.noConfusion (hfunction.symm.trans hvalue)
    · simp only [heq, bind_eq_ok, pure_eq_ok] at hstmts
      obtain ⟨first, u, hfirst, rest, v, hrest', rfl, -⟩ := hstmts
      have hsu : Grows s u := ((rules_deepens (Nat.le_refl n)).declare ctx _ _).grows hfirst
      rw [runStmts_append]
      exact hrest hsu hrest' (fun hvalue => Bool.noConfusion (hfunction.symm.trans hvalue))
        fun _ => declare_evaluated hn hb hfirst

/-! ## Sequences and self calls -/

/-- All but the last one are evaluated for their effects. -/
theorem sequenceStmts_evaluated (h : ∀ e ∈ es, Suits W ctx e s) (hplace : SilentPlace W strategy)
    (hstmts : (rules n).sequence ctx strategy es s = (.ok stmts, t)) :
    Evaluates W ctx.file ctx.targets (delivery W ctx strategy) (.sequence es)
      (runStmts W stmts) := by
  -- The induction is on what comes before the last one.
  have hcons : ∀ (e : Ir.Expr) (es : List Ir.Expr) {s t : LowerState} {stmts : List Stmt},
      (∀ d ∈ e :: es, Suits W ctx d s) →
      (rules n).sequence ctx strategy (e :: es) s = (.ok stmts, t) →
      ∃ init last ps p, e :: es = init ++ [last] ∧ EvaluatesAll W ctx.file ctx.targets init ps ∧
        Evaluates W ctx.file ctx.targets (delivery W ctx strategy) last p ∧
        runStmts W stmts = .seq (.all ps) p := by
    intro e es
    induction es generalizing e with
    | nil =>
      intro s t stmts h hstmts
      refine ⟨[], e, [], _, rfl, .nil, hn.stmts (h e List.mem_cons_self) hplace hstmts, ?_⟩
      rw [Runs.all_nil, Runs.exit_normal_seq]
    | cons d ds ih =>
      intro s t stmts h hstmts
      simp only [Parts.sequence, bind_eq_ok, pure_eq_ok] at hstmts
      obtain ⟨first, u, hfirst, rest, v, hrest, rfl, -⟩ := hstmts
      obtain ⟨he, hes⟩ := List.forall_mem_cons.1 h
      obtain ⟨init, last, ps, p, heq, hinit, hlast, hrun⟩ :=
        ih d (fun c hc => (hes c hc).grows (grows_stmts hfirst)) hrest
      have hfirst := hn.stmtsInside he silentPlace_effect hfirst
      refine ⟨e :: init, last, runStmts W first :: ps, p, by rw [heq, List.cons_append],
        .cons hfirst hinit, hlast, ?_⟩
      rw [runStmts_append, hrun, Runs.all_cons, Runs.seq_assoc]
  cases es with
  | nil =>
    obtain ⟨rfl, -⟩ := pure_eq_ok.1 hstmts
    rw [deliverUnit_run ctx]
    exact .empty
  | cons e es =>
    obtain ⟨init, last, ps, p, heq, hinit, hlast, hrun⟩ := hcons e es h hstmts
    rw [heq, hrun]
    exact .sequence hinit.1 hinit.2 hlast

omit hn in

/-- An argument that only passes a parameter on does nothing. -/
theorem run_of_passesOn {x : String} {value : Expr} (hx : W.Overlooks x)
    (h : passesOn x value = true) : value.run W = .exit .normal := by
  rw [passesOn] at h
  split at h
  · rename_i name hform
    obtain rfl := of_decide_eq_true h
    rw [run_eq, hform, ExprForm.run, World.does_of_ignores hx.read]
  · cases h

/-- The values for the slots are evaluated in order. A parameter that is passed on is read without
anybody noticing. -/
theorem slotWrites_evaluated {slots : List (Ir.Ident × String)} {args : List Ir.Expr}
    (hlen : args.length = slots.length)
    (hslots : ∀ b ∈ slots, W.Overlooks b.1.name ∧ W.Overlooks b.2)
    (h : ∀ e ∈ args, Suits W ctx e s)
    (hstmts : (rules n).slotWrites ctx slots args s = (.ok stmts, t)) :
    ∃ ps, EvaluatesAll W ctx.file ctx.targets args ps ∧ runStmts W stmts = .all ps := by
  induction slots generalizing args s t stmts with
  | nil =>
    obtain rfl := List.eq_nil_of_length_eq_zero hlen
    obtain ⟨rfl, -⟩ := pure_eq_ok.1 hstmts
    exact ⟨[], .nil, runStmts_nil⟩
  | cons b slots ih =>
    cases args with
    | nil => cases hlen
    | cons arg args =>
      obtain ⟨p, slot⟩ := b
      obtain ⟨⟨hp, hslot⟩, hslots⟩ := List.forall_mem_cons.1 hslots
      obtain ⟨harg, hargs⟩ := List.forall_mem_cons.1 h
      simp only [slotWrites_cons, bind_eq_ok, pure_eq_ok] at hstmts
      obtain ⟨value, u, hvalue, rest, v, hrest, rfl, -⟩ := hstmts
      have heval := hn.exprInside harg hvalue
      obtain ⟨ps, hps, hrun⟩ := ih (Nat.succ.inj hlen) hslots
        (fun d hd => (hargs d hd).grows (grows_expr hvalue)) hrest
      refine ⟨value.run W :: ps, .cons heval hps, ?_⟩
      have hwrite : runStmts W (.expr (.assign (.ident slot) value) :: rest) =
          .seq (value.run W) (.all ps) := by
        rw [runStmts_cons, run_expr, run_assign, locate_ident, store_ident,
          World.does_of_ignores hslot.write, Runs.exit_normal_seq, Runs.seq_exit_normal, hrun]
      rw [Runs.all_cons]
      split
      · rename_i hpasses
        rw [run_of_passesOn hp hpasses, Runs.exit_normal_seq, hrun]
      · exact hwrite

/-- A self tail call evaluates its arguments in order and goes on with the loop. -/
theorem tailCall_evaluated {callee : Ir.Expr} {receiver : Option Ir.Expr} {args : List Ir.Expr}
    {isNew : Bool} {ty : Ir.Ty} {loop : TailCall}
    (h : Suits W ctx (.call callee receiver args isNew ty loc) s)
    (hloop : ctx.selfTailCall? strategy callee receiver args isNew = some loop)
    (hstmts : (rules n).tailCall ctx loop args s = (.ok stmts, t)) :
    Evaluates W ctx.file ctx.targets (delivery W ctx strategy)
      (.call callee receiver args isNew ty loc) (runStmts W stmts) := by
  obtain ⟨hctx, hrecognized⟩ := Option.filter_eq_some_iff.1 hloop
  simp only [TailCall.recognizes, Bool.and_eq_true, beq_iff_eq, Option.isNone_iff_eq_none,
    Bool.not_eq_true'] at hrecognized
  obtain ⟨⟨⟨⟨htail, rfl⟩, rfl⟩, hself⟩, hlen⟩ := hrecognized
  obtain ⟨hparams, hslots⟩ := h.context.loop loop hctx
  simp only [Parts.tailCall, bind_eq_ok, pure_eq_ok] at hstmts
  obtain ⟨_, u, hu, writes, v, hwrites, rfl, -⟩ := hstmts
  have hcount : (discardUnitArg args).length = loop.bindings.length := by
    rw [TailCall.bindings, List.length_zip, hparams, Nat.min_self, hlen]
  have hargs : ∀ c ∈ discardUnitArg args, Suits W ctx c u := fun c hc =>
    (h.child (fun _ => rfl) (List.mem_cons_of_mem _ (mem_of_mem_discardUnitArg hc))).grows
      (Below.markLooped.grows hu)
  obtain ⟨ps, hps, hrun⟩ := slotWrites_evaluated hn hcount hslots hargs hwrites
  obtain ⟨ps', hps', hall⟩ := evaluates_discarded hps
  have hdelivery : (delivery W ctx strategy).loop = some loop := by
    cases strategy with
    | ret | effect => exact hctx
    | assign | join => cases htail
  rw [runStmts_append, hrun, runStmts_singleton, Stmt.of, Stmt.run, StmtForm.run, ← hall]
  exact .selfCall hdelivery hself hlen hps'.1 hps'.2

/-! ## Decision trees -/

/-- A case leaves the switch at its end. -/
theorem cases_evaluated {index : Nat} {targets : List Ir.Target} {cs : List SwitchCase}
    (h : ∀ x ∈ targets, Suits W ctx x.body s) (hplace : SilentPlace W strategy)
    (hcases : (rules n).cases ctx strategy index targets s = (.ok cs, t)) :
    ∃ ps : List (Runs W.State), ps.length = targets.length ∧
      (∀ q ∈ targets.zip ps,
        Evaluates W ctx.file ctx.targets (delivery W ctx strategy) q.1.body q.2) ∧
      List.Forall₂ (fun p c => ∀ rest, Runs.exitBy .leave (.seq c rest) = p) ps
        (runsOfCases W cs) := by
  induction targets generalizing index s t cs with
  | nil =>
    obtain ⟨rfl, -⟩ := pure_eq_ok.1 hcases
    rw [runsOfCases]
    exact ⟨[], rfl, List.forall_mem_nil _, .nil⟩
  | cons x targets ih =>
    simp only [Parts.cases, bind_eq_ok, pure_eq_ok] at hcases
    obtain ⟨body, u, hbody, rest, v, hrest, rfl, -⟩ := hcases
    obtain ⟨hx, hxs⟩ := List.forall_mem_cons.1 h
    obtain ⟨ps, hps, hevals, hleave⟩ := ih (fun d hd => (hxs d hd).grows (grows_stmts hbody)) hrest
    have heval := hn.stmts hx hplace hbody
    have hends := heval.ends (ends_delivery ctx strategy)
    refine ⟨runStmts W body :: ps, congrArg (· + 1) hps, List.forall_mem_cons.2 ⟨heval, hevals⟩, ?_⟩
    rw [runsOfCases]
    refine .cons (fun q => ?_) hleave
    have hbreak : ∀ a b, ¬ (Runs.exit (.broke none) : Runs W.State) a .normal b := by
      rintro _ _ ⟨⟨⟩, -⟩
    have hbroken : Runs.exitBy .leave (.seq (.seq (runStmts W body) (.exit (.broke none))) q) =
        runStmts W body := by
      rw [Runs.seq_assoc, Runs.seq_of_not_normal hbreak, Runs.exitBy_leave_seq_break hends]
    cases strategy with
    | ret =>
      have hreturned : ∀ a b, ¬ runStmts W body a .normal b :=
        fun a b hrun => heval.ends (ends_delivery_ret ctx) a .normal b hrun rfl
      rw [List.append_nil, Runs.seq_of_not_normal hreturned, Runs.exitBy_leave hends]
    | effect | assign | join =>
      rw [runStmts_append, runStmts_singleton, Stmt.of, Stmt.run, StmtForm.run]
      exact hbroken

omit hn in
/-- The last case is the default one. -/
theorem findIdx_cases {r : Parts} {index : Nat} {targets : List Ir.Target} {cs : List SwitchCase}
    (hcases : r.cases ctx strategy index targets s = (.ok cs, t)) :
    cs.length = targets.length ∧ cs.findIdx (·.test.isNone) = targets.length - 1 := by
  induction targets generalizing index s t cs with
  | nil =>
    obtain ⟨rfl, -⟩ := pure_eq_ok.1 hcases
    exact ⟨rfl, rfl⟩
  | cons x targets ih =>
    simp only [Parts.cases, bind_eq_ok, pure_eq_ok] at hcases
    obtain ⟨body, u, -, rest, v, hrest, rfl, -⟩ := hcases
    obtain ⟨hlen, hdefault⟩ := ih hrest
    refine ⟨congrArg (· + 1) hlen, ?_⟩
    cases targets with
    | nil => rfl
    | cons y ys =>
      rw [List.findIdx_cons, hdefault]
      rfl

omit hn in
/-- A switch chooses among its cases. -/
theorem switch_run {subject : Expr} {cs : List SwitchCase} {ps : List (Runs W.State)}
    (hsubject : subject.run W = .exit .normal) (hne : ps ≠ [])
    (hdefault : cs.findIdx (·.test.isNone) = ps.length - 1)
    (hleave : List.Forall₂ (fun p c => ∀ rest, Runs.exitBy .leave (.seq c rest) = p) ps
      (runsOfCases W cs)) :
    (Stmt.of (.switch subject cs)).run W [] = choose W ps := by
  have hlen : cs.length = ps.length := by
    rw [hleave.length_eq, runsOfCases_eq_map, List.length_map]
  have hpos : 0 < ps.length := List.length_pos_iff.2 hne
  have hcase : ∀ j (hj : j < ps.length),
      Runs.exitBy .leave (.all ((runsOfCases W cs).drop j)) = ps[j] := by
    intro j hj
    have hj' : j < (runsOfCases W cs).length := hleave.length_eq ▸ hj
    rw [List.drop_eq_getElem_cons hj', Runs.all_cons]
    exact hleave.get hj hj' _
  have hland : ∀ i, ∃ j, ∃ hj : j < ps.length, landing cs i = j ∧
      (ps[i]? <|> ps.getLast?) = some ps[j] := by
    intro i
    by_cases hi : i < ps.length
    · refine ⟨i, hi, if_pos (hlen ▸ hi), ?_⟩
      rw [List.getElem?_eq_getElem hi]
      rfl
    · refine ⟨ps.length - 1, Nat.sub_one_lt_of_lt hpos, ?_, ?_⟩
      · rw [landing, if_neg (hlen ▸ hi), hdefault]
      · rw [List.getElem?_eq_none (Nat.le_of_not_lt hi), List.getLast?_eq_getElem?,
          List.getElem?_eq_getElem (Nat.sub_one_lt_of_lt hpos)]
        rfl
  rw [Stmt.of, Stmt.run, StmtForm.run, hsubject, Runs.exit_normal_seq]
  funext a x b
  refine propext ⟨?_, ?_⟩
  · rintro ⟨i, m, hpick, hrun⟩
    obtain ⟨j, hj, hlanding, hp⟩ := hland i
    rw [hlanding, hcase j hj] at hrun
    exact ⟨i, m, _, hpick, hp, hrun⟩
  · rintro ⟨i, m, p, hpick, hp, hrun⟩
    obtain ⟨j, hj, hlanding, hp'⟩ := hland i
    obtain rfl := Option.some.inj (hp.symm.trans hp')
    refine ⟨i, m, hpick, ?_⟩
    rwa [hlanding, hcase j hj]

omit hn in

/-- Declarations of what targets bind do nothing. -/
theorem targetVariables_run (ctx : Context) (targets : List Ir.Target) :
    runStmts W (Parts.targetVariables ctx targets) = .exit .normal := by
  have hdeclared : ∀ {ids : List Ir.Ident},
      runStmts W (ids.map fun id => Stmt.declare .let id.name none) = .exit .normal := by
    intro ids
    induction ids with
    | nil => exact runStmts_nil
    | cons id ids ih => rw [List.map_cons, runStmts_cons, run_declare_none, ih,
      Runs.exit_normal_seq]
  rw [Parts.targetVariables]
  generalize targets.filter _ = ts
  induction ts with
  | nil => exact runStmts_nil
  | cons x xs ih => rw [List.flatMap_cons, runStmts_append, hdeclared, ih, Runs.exit_normal_seq]

/-- The code for a decision tree evaluates its dispatcher and the targets that it selects. -/
theorem decisionTree_evaluated {dispatcher : Ir.Expr} {targets : List Ir.Target}
    (h : Suits W ctx (.decisionTree dispatcher targets) s) (hplace : SilentPlace W strategy)
    (hstmts : (rules n).decisionTree ctx strategy dispatcher targets s = (.ok stmts, t)) :
    Evaluates W ctx.file ctx.targets (delivery W ctx strategy) (.decisionTree dispatcher targets)
      (runStmts W stmts) := by
  rw [Parts.decisionTree] at hstmts
  split at hstmts
  · have heval := hn.stmts h.dispatcher hplace hstmts
    have hdelivery : delivery W (ctx.withTargets targets) strategy = delivery W ctx strategy := by
      cases strategy <;> rfl
    exact .tree (hdelivery ▸ heval)
  · rename_i hshared
    simp only [bind_eq_ok, pure_eq_ok] at hstmts
    obtain ⟨join, u, hjoin, dispatch, v, hdispatch, cs, w, hcs, rfl, -⟩ := hstmts
    have hsu : Grows s u := (Below.allocateLocal _).grows hjoin
    have hname : W.Overlooks join := by
      obtain rfl := Except.ok.inj (congrArg Prod.fst hjoin)
      exact (h.state.free _ (s.names.allocateLocal_not_isTaken _)).1
    have hplaceJoin : SilentPlace W (.join join) := hname
    have hdispatched := hn.stmtsInside (h.dispatcher.grows hsu) hplaceJoin hdispatch
    have hsv : Grows s v := hsu.trans (grows_stmts hdispatch)
    obtain ⟨ps, hlen, hevals, hleave⟩ :=
      cases_evaluated hn (fun x hx => (h.target hx).grows hsv) hplace hcs
    have hne : ps ≠ [] := by
      rintro rfl
      obtain rfl := List.eq_nil_of_length_eq_zero hlen.symm
      exact hshared rfl
    have hswitch := switch_run (run_ident_of_overlooks hname) hne
      (hlen ▸ (findIdx_cases hcs).2) hleave
    rw [List.cons_append, List.cons_append, runStmts_cons, run_declare_none, Runs.exit_normal_seq,
      List.append_assoc, runStmts_append, targetVariables_run, Runs.exit_normal_seq,
      runStmts_append, runStmts_singleton, hswitch]
    exact .dispatched hdispatched hlen hevals

/-- The code for a success node binds its values in order and goes on with the target. -/
theorem successStmts_evaluated {index : Nat} {values : List Ir.Expr} {ty : Ir.Ty}
    (h : Suits W ctx (.success index values ty) s) (hplace : SilentPlace W strategy)
    (hstmts : (rules n).success ctx strategy index values s = (.ok stmts, t)) :
    Evaluates W ctx.file ctx.targets (delivery W ctx strategy) (.success index values ty)
      (runStmts W stmts) := by
  simp only [Parts.success, Parts.target, bind_eq_ok, ofOption_eq_ok] at hstmts
  obtain ⟨target, _, ⟨htarget, rfl⟩, hstmts⟩ := hstmts
  have hlen : values.length = target.bound.length := by
    have harity := h.orderly.selects
    rw [List.getElem?_map, htarget] at harity
    exact (Option.some.inj harity).symm
  have hvalues : ∀ e ∈ values, Suits W ctx e s := fun c hc => h.child (fun _ => rfl) hc
  have hbody : Suits W ctx target.body s := h.selected (List.mem_of_getElem? htarget)
  have hbound : ∀ {bound own : List Stmt} {u v w : LowerState},
      (delivery W ctx strategy).selects = false →
      (rules n).bindings ctx target.bound values s = (.ok bound, u) →
      (rules n).stmts ctx strategy target.body u = (.ok own, v) →
      Evaluates W ctx.file ctx.targets (delivery W ctx strategy) (.success index values ty)
        (runStmts W (bound ++ own)) := by
    intro bound own u v w hselects hbindings hown
    have hsu : Grows s u := ((rules_deepens (Nat.le_refl n)).bindings ctx _ _).grows hbindings
    obtain ⟨ps, hps, hevals, hrun⟩ := bindings_evaluated hn hlen hvalues hbindings
    rw [runStmts_append, hrun]
    exact .success hselects htarget hlen hps hevals (hn.stmts (hbody.grows hsu) hplace hown)
  cases strategy with
  | join name =>
    simp only [bind_eq_ok, pure_eq_ok] at hstmts
    obtain ⟨own, u, hown, rfl, -⟩ := hstmts
    obtain ⟨ps, hps, hevals, hrun⟩ := assignments_evaluated hn hlen hvalues hown
    rw [runStmts_append, hrun, runStmts_singleton, run_expr, run_assign, locate_ident, store_ident,
      run_number, World.does_of_ignores hplace.write, Runs.exit_normal_seq, Runs.exit_normal_seq,
      Runs.seq_exit_normal]
    exact .selection rfl htarget hlen hps hevals
  | ret | effect | assign =>
    simp only [bind_eq_ok, pure_eq_ok] at hstmts
    obtain ⟨bound, u, hbindings, own, v, hown, rfl, rfl⟩ := hstmts
    exact hbound (w := v) rfl hbindings hown

/-! ## Assignments -/

/-- A value that needs statements is stored at the end of each of its ways. Otherwise it is
evaluated when the place is. -/
theorem assignment_evaluated {place : Expr} (h : Suits W ctx e s)
    (hsilent : isStatement ctx.withoutTailCall false e = .ok true →
      place.locate W = .exit .normal)
    (hstmts : (rules n).assignment ctx.withoutTailCall place e loc s = (.ok stmts, t)) :
    ∃ p, Evaluates W ctx.file ctx.targets (.into (place.store W)) e p ∧
      runStmts W stmts = .seq (place.locate W) p := by
  simp only [Parts.assignment, bind_eq_ok, isStatement_eq_ok] at hstmts
  obtain ⟨isStatement, _, ⟨hcheck, rfl⟩, hstmts⟩ := hstmts
  cases isStatement with
  | true =>
    have hplace : SilentPlace W (.assign place) := hsilent hcheck
    refine ⟨_, hn.stmtsInside h hplace hstmts, ?_⟩
    rw [hsilent hcheck, Runs.exit_normal_seq]
  | false =>
    simp only [Bool.false_eq_true, if_false, bind_eq_ok, pure_eq_ok] at hstmts
    obtain ⟨code, u, hcode, rfl, -⟩ := hstmts
    refine ⟨_, .delivered (hn.exprInside h hcode), ?_⟩
    rw [runStmts_singleton, run_expr, run_withLoc, run_assign]
    rfl

/-- The statements that set a field evaluate the target before the value. -/
theorem setStmts_evaluated {target value : Ir.Expr} {field : Option String}
    (h : Suits W ctx (.set target field value loc) s)
    (hstmts : (rules n).stmtsRule ctx strategy (.set target field value loc) s = (.ok stmts, t)) :
    Evaluates W ctx.file ctx.targets (delivery W ctx strategy) (.set target field value loc)
      (runStmts W stmts) := by
  simp only [Parts.stmtsRule, bind_eq_ok, pure_eq_ok] at hstmts
  obtain ⟨place, u, hplace, own, v, hown, rfl, -⟩ := hstmts
  have hsu : Grows s u :=
    ((rules_deepens (Nat.le_refl n)).place ctx.withoutTailCall target field).grows hplace
  have hvalue : Suits W ctx value u :=
    (h.child (fun _ => rfl) (.tail _ List.mem_cons_self)).grows hsu
  rw [runStmts_append, deliverUnit_run ctx]
  rcases place_locate h.withoutTailCall hplace with
    ⟨rfl, hlocate, id, hid, hstore⟩ | ⟨name, obj, rfl, rfl, hobj⟩
  · obtain ⟨p, heval, hrun⟩ := assignment_evaluated hn hvalue (fun _ => hlocate) hown
    rw [hrun, hlocate, Runs.exit_normal_seq]
    exact .setVariable hid (hstore ▸ heval)
  · have hsilent : isStatement ctx.withoutTailCall false value = .ok true →
        (Expr.member obj name).locate W = .exit .normal := fun hcheck => by
      rw [locate_member]
      refine Or.elim h.orderly.inOrder (fun hsilent => run_of_silent hsilent hobj) fun hplain => ?_
      rw [isStatement_of_isPlain _ hplain.1, hplain.2] at hcheck
      cases hcheck
    obtain ⟨p, heval, hrun⟩ := assignment_evaluated hn hvalue hsilent hown
    have htarget := hn.exprInside (h.child (fun _ => rfl) List.mem_cons_self) hobj
    rw [hrun, locate_member]
    exact .setField htarget heval

/-- The statements that set an element evaluate the target and the index before the value. -/
theorem setIndexStmts_evaluated {target index value : Ir.Expr}
    (h : Suits W ctx (.setIndex target index value loc) s)
    (hstmts : (rules n).stmtsRule ctx strategy (.setIndex target index value loc) s =
      (.ok stmts, t)) :
    Evaluates W ctx.file ctx.targets (delivery W ctx strategy) (.setIndex target index value loc)
      (runStmts W stmts) := by
  simp only [Parts.stmtsRule, Parts.element, bind_eq_ok, pure_eq_ok] at hstmts
  obtain ⟨_, _, ⟨obj, v, hobj, i, u, hi, rfl, rfl⟩, own, w, hown, rfl, -⟩ := hstmts
  have hsv : Grows s v := grows_expr hobj
  have hsu : Grows s u := hsv.trans (grows_expr hi)
  have hchild : ∀ c ∈ [target, index, value], Suits W ctx c s :=
    fun c hc => h.child (fun _ => rfl) hc
  have htarget := hn.exprInside (hchild target (by simp)) hobj
  have hindex := hn.exprInside ((hchild index (by simp)).grows hsv) hi
  have hsilent : isStatement ctx.withoutTailCall false value = .ok true →
      (Expr.index obj i).locate W = .exit .normal := fun hcheck => by
    rw [locate_index]
    refine Or.elim h.orderly.inOrder (fun hsilent => ?_) fun hplain => ?_
    · rw [run_of_silent hsilent.1 hobj, run_of_silent hsilent.2 hi, Runs.exit_normal_seq]
    · rw [isStatement_of_isPlain _ hplain.1, hplain.2] at hcheck
      cases hcheck
  obtain ⟨p, heval, hrun⟩ :=
    assignment_evaluated hn ((hchild value (by simp)).grows hsu) hsilent hown
  rw [runStmts_append, deliverUnit_run ctx, hrun, locate_index, Runs.seq_assoc (obj.run W)]
  exact .setIndex htarget hindex heval

/-! ## Loops and handlers -/

omit hn in
/-- The iterations of a counting loop, whose counter and bound are not watched. -/
theorem forLoop_run {id : Ir.Ident} {start bound : Expr} {comparison step : Operator}
    {body : List Stmt} (hid : W.Overlooks id.name) (hbound : bound.run W = .exit .normal)
    (hcomparison : comparison = .lessOrEqual ∨ comparison = .greaterOrEqual)
    (hstep : step = .additionAssignment ∨ step = .subtractionAssignment)
    (hbody : (runStmts W body).Ends Exit.IsPlain) :
    (⟨loc, .forLoop (some ⟨.let, [⟨id.name, some start⟩]⟩)
      (some (.binary comparison (.ident id.name) bound))
      (some (.binary step (.ident id.name) (.number 1))) body⟩ : Stmt).run W [] =
      .seq (start.run W) (iterations W (.exit .normal) (runStmts W body)) := by
  have htest : (Expr.binary comparison (.ident id.name) bound).run W = .exit .normal := by
    rw [run_binary _ _ (by rcases hcomparison with rfl | rfl <;> decide),
      run_ident_of_overlooks hid, hbound, Runs.exit_normal_seq]
  have hupdate : (Expr.binary step (.ident id.name) (.number 1)).run W = .exit .normal := by
    have hwrite : W.does (.write id.name) = .exit .normal := World.does_of_ignores hid.write
    rcases hstep with rfl | rfl <;>
    · rw [Expr.binary, run_of, ExprForm.run, run_ident_of_overlooks hid, run_number, store_ident,
        hwrite, Runs.exit_normal_seq, Runs.exit_normal_seq]
  have hgoOn : Runs.exitBy (.goOn []) (runStmts W body) = runStmts W body :=
    Runs.exitBy_eq_self (hbody.mono fun _ h => h.goOn_eq [])
  rw [Stmt.run, StmtForm.run, runStart, VarDecl.run, runDeclarators, runDeclarators, runOption,
    runOption, htest, hupdate, hgoOn, Runs.seq_exit_normal, Runs.seq_exit_normal,
    World.does_of_ignores hid.write, Runs.seq_exit_normal]
  rfl

omit hn in

/-- The result of an operation is no constant bound. -/
theorem not_isConstantBound {limit : Expr} (h : limit.isOperation = true) :
    Parts.isConstantBound limit = false := by
  obtain ⟨_, form⟩ := limit
  cases form <;> first | rfl | cases h

/-- A counting loop evaluates its limit and its start, and then its body in each iteration. -/
theorem forLoop_evaluated {id : Ir.Ident} {start limit body : Ir.Expr} {isUp : Bool}
    (h : Suits W ctx (.forLoop id start limit body isUp loc) s)
    (hstmts : (rules n).forLoop ctx.withoutTailCall id start limit body isUp loc s =
      (.ok stmts, t)) :
    ∃ p q r, Evaluates W ctx.file ctx.targets .plain start p ∧
      Evaluates W ctx.file ctx.targets .plain limit q ∧
      Evaluates W ctx.file ctx.targets .plain body r ∧
      runStmts W stmts = .seq p (.seq q (iterations W (.exit .normal) r)) := by
  obtain ⟨hid, hbounds⟩ := h.orderly.inOrder
  have hchild : ∀ c ∈ [start, limit, body], Suits W ctx c s :=
    fun c hc => h.child (fun _ => rfl) hc
  simp only [Parts.forLoop, bind_eq_ok] at hstmts
  obtain ⟨startCode, u, hstart, limitCode, v, hlimit, hstmts⟩ := hstmts
  have hsu : Grows s u := grows_expr hstart
  have hsv : Grows s v := hsu.trans (grows_expr hlimit)
  have hbody : ∀ {w x : LowerState} {own : List Stmt}, Grows v w →
      (rules n).stmts ctx.withoutTailCall .effect body w = (.ok own, x) →
      Evaluates W ctx.file ctx.targets .plain body (runStmts W own) := fun hvw hown =>
    hn.stmtsInside ((hchild body (by simp)).grows (hsv.trans hvw)) silentPlace_effect hown
  refine ⟨startCode.run W, limitCode.run W, ?_⟩
  have hstarted := hn.exprInside (hchild start (by simp)) hstart
  have hlimited := hn.exprInside ((hchild limit (by simp)).grows hsu) hlimit
  split at hstmts
  · rename_i hconstant
    simp only [bind_eq_ok, pure_eq_ok] at hstmts
    obtain ⟨_, _, ⟨rfl, rfl⟩, own, w, hown, rfl, -⟩ := hstmts
    have hown := hbody (.refl v) hown
    -- A limit with effects is no constant.
    have hsilent : limitCode.run W = .exit .normal := by
      rcases hbounds with hlimitSilent | ⟨-, hcomputed⟩
      · exact run_of_silent hlimitSilent hlimit
      · have hoperation := isOperation_of_isComputed hcomputed hlimit
        rw [not_isConstantBound hoperation] at hconstant
        cases hconstant
    refine ⟨runStmts W own, hstarted, hlimited, hown, ?_⟩
    rw [hsilent, Runs.exit_normal_seq, List.nil_append, runStmts_singleton]
    exact forLoop_run hid hsilent (by cases isUp <;> simp) (by cases isUp <;> simp)
      (hown.ends Delivery.ends_plain)
  · simp only [bind_eq_ok, pure_eq_ok] at hstmts
    obtain ⟨name, w, hname, _, _, ⟨rfl, rfl⟩, own, x, hown, rfl, -⟩ := hstmts
    have hvw : Grows v w := (Below.allocateLocal _).grows hname
    have hown := hbody hvw hown
    have hfresh : W.Overlooks name := by
      obtain rfl := Except.ok.inj (congrArg Prod.fst hname)
      exact ((h.state.grows hsv).free _ (v.names.allocateLocal_not_isTaken _)).1
    refine ⟨runStmts W own, hstarted, hlimited, hown, ?_⟩
    rw [runStmts_append, runStmts_singleton, runStmts_singleton, run_declare,
      World.does_of_ignores hfresh.write, Runs.seq_exit_normal,
      forLoop_run hid (run_ident_of_overlooks hfresh) (by cases isUp <;> simp)
        (by cases isUp <;> simp) (hown.ends Delivery.ends_plain)]
    rcases hbounds with hlimitSilent | ⟨hstartSilent, -⟩
    · rw [run_of_silent hlimitSilent hlimit, Runs.exit_normal_seq, Runs.exit_normal_seq]
    · rw [run_of_silent hstartSilent hstart, Runs.exit_normal_seq, Runs.exit_normal_seq]

/-- The code for a handler evaluates its body. -/
theorem handler_evaluated {handler : Option Ir.Handler} {clause : Option CatchClause}
    (h : ∀ hd, handler = some hd → Suits W ctx hd.body s ∧ W.Overlooks hd.param.name)
    (hplace : SilentPlace W strategy)
    (hclause : (rules n).handler ctx.withoutTailCall strategy handler s = (.ok clause, t)) :
    ∃ q, (∀ hd, handler = some hd →
        Evaluates W ctx.file ctx.targets (delivery W ctx strategy).unlooped hd.body q) ∧
      runHandler W clause = handler.map fun _ => q := by
  cases handler with
  | none =>
    obtain ⟨rfl, -⟩ := pure_eq_ok.1 hclause
    refine ⟨.exit .normal, nofun, ?_⟩
    rw [runHandler]
    rfl
  | some hd =>
    obtain ⟨hbody, hparam⟩ := h hd rfl
    simp only [Parts.handler, bind_eq_ok, pure_eq_ok] at hclause
    obtain ⟨own, u, hown, rfl, -⟩ := hclause
    obtain ⟨v, hown, -⟩ := inHandler_eq_ok.1 hown
    have hcaught : ∀ x ∈ hd.param.name :: s.caught, W.Hides (.name x) :=
      List.forall_mem_cons.2 ⟨hparam, hbody.state.caught⟩
    have hinside : Suits W ctx hd.body { s with caught := hd.param.name :: s.caught } :=
      ⟨hbody.context, hbody.orderly, hbody.state.free, hbody.state.aliases, hcaught⟩
    refine ⟨runStmts W own, ?_, ?_⟩
    · rintro _ ⟨⟩
      exact hn.stmtsInside hinside hplace hown
    · rw [runHandler]
      rfl

/-- The code for a finalizer evaluates it for its effects. -/
theorem finalizer_evaluated {finalizer : Option Ir.Expr} {own : Option (List Stmt)}
    (h : ∀ f, finalizer = some f → Suits W ctx f s)
    (hown : (rules n).finalizer ctx.withoutTailCall finalizer s = (.ok own, t)) :
    ∃ r, (∀ f, finalizer = some f → Evaluates W ctx.file ctx.targets .plain f r) ∧
      runFinalizer W own = finalizer.map fun _ => r := by
  cases finalizer with
  | none =>
    obtain ⟨rfl, -⟩ := pure_eq_ok.1 hown
    refine ⟨.exit .normal, nofun, ?_⟩
    rw [runFinalizer]
    rfl
  | some f =>
    simp only [Parts.finalizer, bind_eq_ok, pure_eq_ok] at hown
    obtain ⟨stmts, u, hstmts, rfl, -⟩ := hown
    refine ⟨runStmts W stmts, ?_, ?_⟩
    · rintro _ ⟨⟩
      exact hn.stmtsInside (h f rfl) silentPlace_effect hstmts
    · rw [runFinalizer]
      rfl

/-- A try statement evaluates its body, with handler and finalizer. -/
theorem tryCatch_evaluated {body : Ir.Expr} {handler : Option Ir.Handler}
    {finalizer : Option Ir.Expr} (h : Suits W ctx (.tryCatch body handler finalizer loc) s)
    (hplace : SilentPlace W strategy)
    (hstmts : (rules n).stmtsRule ctx strategy (.tryCatch body handler finalizer loc) s =
      (.ok stmts, t)) :
    Evaluates W ctx.file ctx.targets (delivery W ctx strategy)
      (.tryCatch body handler finalizer loc) (runStmts W stmts) := by
  have hchild : ∀ c ∈ (Ir.Expr.tryCatch body handler finalizer loc).children, Suits W ctx c s :=
    fun c hc => h.child (fun _ => rfl) hc
  simp only [Parts.stmtsRule, bind_eq_ok, pure_eq_ok] at hstmts
  obtain ⟨block, u, hblock, clause, v, hclause, own, w, hown, rfl, -⟩ := hstmts
  have hsu : Grows s u := grows_stmts hblock
  have hsv : Grows s v := hsu.trans
    (((rules_deepens (Nat.le_refl n)).handler ctx.withoutTailCall _ _).grows hclause)
  have hbody := hn.stmtsInside (hchild body List.mem_cons_self) hplace hblock
  obtain ⟨q, hhandler, hq⟩ := handler_evaluated hn (fun hd hhd =>
    ⟨(hchild hd.body (by simp [Ir.Expr.children, hhd])).grows hsu, h.orderly.inOrder hd hhd⟩)
    hplace hclause
  obtain ⟨r, hfinalizer, hr⟩ := finalizer_evaluated hn (fun f hf =>
    (hchild f (by simp [Ir.Expr.children, hf])).grows hsv) hown
  rw [runStmts_singleton, Stmt.run, StmtForm.run, hq, hr]
  exact .tryCatch hbody hhandler hfinalizer

/-! ## The rule for statements -/

/-- A conditional statement evaluates its guard and one of its branches. -/
theorem conditional_evaluated {guard thenExpr elseExpr : Ir.Expr}
    (h : Suits W ctx (.ifThenElse guard thenExpr elseExpr loc) s) (hplace : SilentPlace W strategy)
    (hstmts : (rules n).conditional ctx strategy guard thenExpr elseExpr loc s = (.ok stmts, t)) :
    Evaluates W ctx.file ctx.targets (delivery W ctx strategy)
      (.ifThenElse guard thenExpr elseExpr loc) (runStmts W stmts) := by
  have hchild : ∀ c ∈ [guard, thenExpr, elseExpr], Suits W ctx c s :=
    fun c hc => h.child (fun _ => rfl) hc
  simp only [Parts.conditional, bind_eq_ok, pure_eq_ok] at hstmts
  obtain ⟨test, u, htest, thenStmts, v, hthen, elseStmts, w, helse, rfl, -⟩ := hstmts
  have hsu : Grows s u := grows_expr htest
  have hsv : Grows s v := hsu.trans (grows_stmts hthen)
  rw [runStmts_singleton, Stmt.run, StmtForm.run]
  exact .ifThenElse (hn.exprInside (hchild guard (by simp)) htest)
    (hn.stmts ((hchild thenExpr (by simp)).grows hsu) hplace hthen)
    (hn.stmts ((hchild elseExpr (by simp)).grows hsv) hplace helse)

/-- A throw evaluates the error and raises. -/
theorem throw_evaluated {error : Option Ir.Expr} {ty : Ir.Ty}
    (h : Suits W ctx (.throw error ty loc) s)
    (hstmts : (rules n).stmtsRule ctx strategy (.throw error ty loc) s = (.ok stmts, t)) :
    Evaluates W ctx.file ctx.targets (delivery W ctx strategy) (.throw error ty loc)
      (runStmts W stmts) := by
  cases error with
  | some error =>
    simp only [Parts.stmtsRule, bind_eq_ok, pure_eq_ok] at hstmts
    obtain ⟨code, u, hcode, rfl, -⟩ := hstmts
    rw [runStmts_singleton, Stmt.run, StmtForm.run]
    exact .throw (hn.exprInside (h.child (fun _ => rfl) List.mem_cons_self) hcode)
  | none =>
    simp only [Parts.stmtsRule, bind_eq_ok, pure_eq_ok, ofOption_eq_ok, caught?, read_eq_ok]
      at hstmts
    obtain ⟨_, _, ⟨rfl, rfl⟩, caught, _, ⟨hcaught, rfl⟩, rfl, -⟩ := hstmts
    have hname : W.Overlooks caught := h.state.caught caught (List.mem_of_head? hcaught)
    rw [runStmts_singleton, Stmt.run, StmtForm.run, run_ident_of_overlooks hname,
      Runs.exit_normal_seq]
    exact .rethrow

/-- The statements for a node do what evaluating the node is to do. -/
theorem stmtsRule_evaluated (h : Suits W ctx e s) (hplace : SilentPlace W strategy)
    (hstmts : (rules n).stmtsRule ctx strategy e s = (.ok stmts, t)) :
    Evaluates W ctx.file ctx.targets (delivery W ctx strategy) e (runStmts W stmts) := by
  have hchild : (∀ arities, e.arms arities = e.children.map (arities, ·)) →
      ∀ c ∈ e.children, Suits W ctx c s := fun harms c hc => h.child harms hc
  cases e with
  | cast inner =>
    exact .cast (hn.stmts (hchild (fun _ => rfl) inner List.mem_cons_self) hplace hstmts)
  | call callee receiver args isNew =>
    rw [Parts.stmtsRule] at hstmts
    cases hloop : ctx.selfTailCall? strategy callee receiver args isNew with
    | none =>
      rw [hloop] at hstmts
      exact delivered_evaluated hn h hplace hstmts
    | some loop =>
      rw [hloop] at hstmts
      exact tailCall_evaluated hn h hloop hstmts
  | ifThenElse guard thenExpr elseExpr loc =>
    simp only [Parts.stmtsRule, bind_eq_ok, isStatement_eq_ok] at hstmts
    obtain ⟨isStatement, _, ⟨-, rfl⟩, hstmts⟩ := hstmts
    cases isStatement with
    | true => exact conditional_evaluated hn h hplace hstmts
    | false => exact delivered_evaluated hn h hplace hstmts
  | decisionTree => exact decisionTree_evaluated hn h hplace hstmts
  | success => exact successStmts_evaluated hn h hplace hstmts
  | letIn id value body =>
    simp only [Parts.stmtsRule, bind_eq_ok, pure_eq_ok] at hstmts
    obtain ⟨bound, u, hbound, own, v, hown, rfl, -⟩ := hstmts
    have hsu : Grows s u := ((rules_deepens (Nat.le_refl n)).declare ctx _ _).grows hbound
    have hchild := hchild fun _ => rfl
    rw [runStmts_append]
    exact .letIn (declare_evaluated hn (hchild value (by simp [Ir.Expr.children])) hbound)
      (hn.stmts ((hchild body (by simp [Ir.Expr.children])).grows hsu) hplace hown)
  | letRec bindings body =>
    simp only [Parts.stmtsRule, bind_eq_ok, pure_eq_ok] at hstmts
    obtain ⟨bound, u, hbound, own, v, hown, rfl, -⟩ := hstmts
    have hsu : Grows s u := ((rules_deepens (Nat.le_refl n)).recursive ctx _).grows hbound
    have hchild := hchild fun _ => rfl
    obtain ⟨ps, hlen, hfunctions, hvalues, hrun⟩ := recursive_evaluated hn
      (fun b hb => hchild b.value (List.mem_append_left _ (List.mem_map_of_mem hb))) hbound
    rw [runStmts_append, hrun]
    exact .letRec hlen hfunctions hvalues
      (hn.stmts ((hchild body (by simp [Ir.Expr.children])).grows hsu) hplace hown)
  | sequence => exact sequenceStmts_evaluated hn (hchild fun _ => rfl) hplace hstmts
  | set => exact setStmts_evaluated hn h hstmts
  | setIndex => exact setIndexStmts_evaluated hn h hstmts
  | whileLoop guard body loc =>
    simp only [Parts.stmtsRule, bind_eq_ok, pure_eq_ok] at hstmts
    obtain ⟨test, u, htest, own, v, hown, rfl, -⟩ := hstmts
    have hchild := hchild fun _ => rfl
    have hguard := hn.exprInside (hchild guard (by simp [Ir.Expr.children])) htest
    have hbody := hn.stmtsInside ((hchild body (by simp [Ir.Expr.children])).grows
      (grows_expr htest)) silentPlace_effect hown
    rw [runStmts_cons, deliverUnit_run ctx, Stmt.run, StmtForm.run]
    exact .whileLoop hguard hbody
  | forLoop id start limit body isUp loc =>
    simp only [Parts.stmtsRule, bind_eq_ok, pure_eq_ok] at hstmts
    obtain ⟨own, u, hown, rfl, -⟩ := hstmts
    obtain ⟨p, q, r, hp, hq, hr, hrun⟩ := forLoop_evaluated hn h hown
    rw [runStmts_append, deliverUnit_run ctx, hrun]
    exact .forLoop hp hq hr
  | tryCatch => exact tryCatch_evaluated hn h hplace hstmts
  | throw => exact throw_evaluated hn h hstmts
  | debugger loc =>
    obtain ⟨rfl, -⟩ := pure_eq_ok.1 hstmts
    rw [runStmts_cons, deliverUnit_run ctx, Stmt.run, StmtForm.run]
    exact .debugger
  | emit template args isStatement ty loc =>
    cases isStatement with
    | false => exact delivered_evaluated hn h hplace hstmts
    | true =>
      simp only [Parts.stmtsRule, bind_eq_ok, pure_eq_ok] at hstmts
      obtain ⟨codes, u, hcodes, rfl, -⟩ := hstmts
      have hargs : ∀ c ∈ args, Suits W ctx.withoutTailCall c s :=
        fun c hc => (hchild (fun _ => rfl) c hc).withoutTailCall
      have hall := exprs_evaluated hn hargs hcodes
      rw [runStmts_cons, deliverUnit_run ctx, Stmt.expr, Stmt.run, StmtForm.run, run_eq,
        ExprForm.run, runsOf_eq_map]
      exact .emit hall.1 hall.2
  | literal | option | aggregate | ident | imported | lambda | delegate | object | apply | unary
  | binary | logical | get | getIndex | test | curry =>
    exact delivered_evaluated hn h hplace hstmts

end

/-- The code for an expression does what evaluating the expression is to do. -/
theorem rules_keepOrder (W : World) (n : Nat) : KeepsOrder W n := by
  induction n with
  | zero => exact ⟨fun _ h => absurd h fail_ne_ok, fun _ _ h => absurd h fail_ne_ok⟩
  | succ n ih =>
    exact ⟨fun h hcode => exprRule_evaluated ih h hcode,
      fun h hplace hstmts => stmtsRule_evaluated ih h hplace hstmts⟩

end TypedLowering.JavaScript
