import TypedLowering.Proofs.JavaScript.Depth
import TypedLowering.Proofs.JavaScript.Flow
import TypedLowering.Proofs.Lowering.Slots

/-!
# The discipline of lowered JavaScript

Statements obey the strategy that they are lowered with (`rules_obey`): they return where they have
to and only there, and each jump to the next iteration of a loop is a self tail call of the function
around. There is one lemma for each rule, about the rule with parts that obey.
-/

namespace TypedLowering.JavaScript

open Control Lower

/-- How the arguments of a self tail call are written to the slots. -/
def writes : SlotWrites StmtForm Expr := fun ctx loop args u v own =>
  ∃ n stmts, (rules n).slotWrites ctx loop.bindings (discardUnitArg args) u = (.ok stmts, v) ∧
    own = flows stmts

/-- The jumps that lowering a node with a strategy may give. -/
abbrev jumps (strategy : Strategy Expr) (ctx : Context) (e : Ir.Expr) (s t : LowerState) :
    Jumps StmtForm Expr :=
  selfCalls writes strategy.isTail ctx e s t

/-- Whether statements lowered to that depth obey their strategy. -/
def Disciplined (n : Nat) : Prop :=
  ∀ {ctx strategy e s stmts t}, (rules n).stmts ctx strategy e s = (.ok stmts, t) →
    Obeys strategy.returns (jumps strategy ctx e s t) (flows stmts)

/-! ## Rules without case distinctions -/

/-- Whether an expression only passes a parameter on. -/
def passesOn (param : String) (value : Expr) : Bool :=
  match value.form with
  | .ident name => name = param
  | _ => false

/-- The first argument is written to its slot unless it passes the parameter on, and then the others
are. -/
theorem slotWrites_cons (r : Parts) (ctx : Context) (p : Ir.Ident) (slot : String)
    (slots : List (Ir.Ident × String)) (arg : Ir.Expr) (args : List Ir.Expr) :
    r.slotWrites ctx ((p, slot) :: slots) (arg :: args) = (do
      let value ← r.expr ctx.withoutTailCall arg
      let rest ← r.slotWrites ctx slots args
      return if passesOn p.name value then rest
        else .expr (.assign (.ident slot) value) :: rest) := by
  rw [Parts.slotWrites]
  congr 1
  funext value
  congr 1
  funext rest
  split
  · rename_i name hform
    simp only [passesOn, hform, decide_eq_true_eq]
  · rename_i hform
    have hpasses : passesOn p.name value = false := by
      rw [passesOn]
      split
      · rename_i name hname
        exact (hform name hname).elim
      · rfl
    rw [hpasses]
    rfl

/-- A binding of a recursive let declares a function or a variable. -/
theorem recursive_cons (r : Parts) (ctx : Context) (b : Ir.Binding) (bs : List Ir.Binding) :
    (∃ params body name, (b.value.uncast = .delegate params body name ∨
        ∃ arg, params = [arg] ∧ b.value.uncast = .lambda arg body name) ∧
      r.recursive ctx (b :: bs) = (do
        let first ← r.localFunction ctx b.ident params body
        let rest ← r.recursive ctx bs
        return first :: rest)) ∨
    r.recursive ctx (b :: bs) = (do
      let first ← r.declare ctx b.ident b.value
      let rest ← r.recursive ctx bs
      return first ++ rest) := by
  simp only [Parts.recursive]
  split
  · rename_i arg body name hvalue
    exact .inl ⟨[arg], body, name, .inr ⟨arg, rfl, hvalue⟩, rfl⟩
  · rename_i params body name hvalue
    exact .inl ⟨params, body, name, .inl hvalue, rfl⟩
  · exact .inr rfl

section
variable {n : Nat} {ctx : Context} {strategy : Strategy Expr} {e : Ir.Expr} {s t : LowerState}
  {stmts : List Stmt}

/-- Lowering to any depth only grows the state. -/
theorem rules_grow (n : Nat) : (rules n).Deepens (rules n) :=
  rules_deepens (Nat.le_refl n)

/-! ## Values -/

/-- A value is put in its place by statements that obey the strategy. -/
theorem deliver_obeys {J : Jumps StmtForm Expr} (strategy : Strategy Expr) (value : Expr) :
    Obeys strategy.returns J (flows (deliver strategy value)) := by
  cases strategy with
  | ret => exact .returns _
  | effect | assign | join => exact .step _

/-- The end of a node without a value obeys the strategy. -/
theorem deliverUnit_obeys {J : Jumps StmtForm Expr} (strategy : Strategy Expr) :
    Obeys strategy.returns J (flows (deliverUnit strategy)) := by
  cases strategy with
  | ret => exact .returns _
  | effect | assign | join => exact .nil

/-- A value is delivered by statements that obey the strategy. -/
theorem delivered_obeys {J : Jumps StmtForm Expr} (n : Nat)
    (h : (rules n).delivered ctx strategy e s = (.ok stmts, t)) :
    Obeys strategy.returns J (flows stmts) := by
  simp only [Parts.delivered, bind_eq_ok, pure_eq_ok] at h
  obtain ⟨value, u, -, rfl, rfl⟩ := h
  exact deliver_obeys strategy value

/-! ## Statements without a jump -/

variable (ih : Disciplined n)
include ih

/-- Outside of tail position there are no jumps. -/
theorem plain_obeys (h : (rules n).stmts ctx.withoutTailCall strategy e s = (.ok stmts, t)) :
    Obeys strategy.returns noJumps (flows stmts) :=
  (ih h).mono fun _ _ hJ => not_selfCalls rfl hJ

/-- What is assigned is not in tail position. -/
theorem assigned_obeys {place : Expr}
    (h : (rules n).stmts ctx (.assign place) e s = (.ok stmts, t)) :
    Obeys false noJumps (flows stmts) :=
  (ih h).mono fun _ _ hJ => not_selfCalls_of_not_tail hJ

/-- A declaration neither returns nor jumps. -/
theorem declare_obeys {id : Ir.Ident} (h : (rules n).declare ctx id e s = (.ok stmts, t)) :
    Obeys false noJumps (flows stmts) := by
  rw [Parts.declare] at h
  split at h
  · exact plain_obeys ih h
  · simp only [bind_eq_ok, isStatement_eq_ok] at h
    obtain ⟨isStatement, u, ⟨-, rfl⟩, h⟩ := h
    cases isStatement with
    | true =>
      simp only [if_true, bind_eq_ok, pure_eq_ok] at h
      obtain ⟨stmts, u, h, rfl, rfl⟩ := h
      exact .cons (.step _) (plain_obeys ih h)
    | false =>
      simp only [Bool.false_eq_true, if_false, bind_eq_ok, pure_eq_ok] at h
      obtain ⟨value, u, -, rfl, rfl⟩ := h
      exact .step _

/-- An assignment neither returns nor jumps. -/
theorem assignment_obeys {place : Expr} {loc : Option Ir.Location}
    (h : (rules n).assignment ctx place e loc s = (.ok stmts, t)) :
    Obeys false noJumps (flows stmts) := by
  simp only [Parts.assignment, bind_eq_ok, isStatement_eq_ok] at h
  obtain ⟨isStatement, u, ⟨-, rfl⟩, h⟩ := h
  cases isStatement with
  | true =>
    rw [if_pos rfl] at h
    exact assigned_obeys ih h
  | false =>
    simp only [Bool.false_eq_true, if_false, bind_eq_ok, pure_eq_ok] at h
    obtain ⟨value, u, -, rfl, rfl⟩ := h
    exact .step _

/-- A recursive let neither returns nor jumps. -/
theorem recursive_obeys {bs : List Ir.Binding}
    (h : (rules n).recursive ctx bs s = (.ok stmts, t)) : Obeys false noJumps (flows stmts) := by
  induction bs generalizing s stmts with
  | nil =>
    obtain ⟨rfl, -⟩ := pure_eq_ok.1 h
    exact .nil
  | cons b bs ihs =>
    rcases recursive_cons (rules n) ctx b bs with ⟨params, body, name, -, heq⟩ | heq
    · rw [heq] at h
      simp only [Parts.localFunction, bind_eq_ok, pure_eq_ok] at h
      obtain ⟨_, _, ⟨_, _, -, rfl, rfl⟩, rest, _, hrest, rfl, rfl⟩ := h
      exact .cons (.step _) (ihs hrest)
    · rw [heq] at h
      simp only [bind_eq_ok, pure_eq_ok] at h
      obtain ⟨first, _, hfirst, rest, _, hrest, rfl, rfl⟩ := h
      rw [flows_append]
      exact (declare_obeys ih hfirst).append (ihs hrest)

/-- A counting loop neither returns nor jumps out. -/
theorem forLoop_obeys {id : Ir.Ident} {start limit body : Ir.Expr} {isUp : Bool}
    {loc : Option Ir.Location}
    (h : (rules n).forLoop ctx.withoutTailCall id start limit body isUp loc s = (.ok stmts, t)) :
    Obeys false noJumps (flows stmts) := by
  simp only [Parts.forLoop, bind_eq_ok] at h
  obtain ⟨_, _, -, limit, _, -, h⟩ := h
  split at h
  · simp only [bind_eq_ok, pure_eq_ok] at h
    obtain ⟨_, _, ⟨rfl, rfl⟩, body, _, hbody, rfl, rfl⟩ := h
    exact .loop (.of_obeys (plain_obeys ih hbody))
  · simp only [bind_eq_ok, pure_eq_ok] at h
    obtain ⟨name, _, -, _, _, ⟨rfl, rfl⟩, body, _, hbody, rfl, rfl⟩ := h
    exact .cons (.step _) (.loop (.of_obeys (plain_obeys ih hbody)))

/-- A handler obeys the strategy, without jumps. -/
theorem handler_obeys {hd : Option Ir.Handler} {clause : Option CatchClause}
    (h : (rules n).handler ctx.withoutTailCall strategy hd s = (.ok clause, t)) :
    ∀ hs, handlerFlows clause = some hs → Obeys strategy.returns noJumps hs := by
  cases hd with
  | none =>
    obtain ⟨rfl, -⟩ := pure_eq_ok.1 h
    nofun
  | some hd =>
    simp only [Parts.handler, bind_eq_ok, pure_eq_ok] at h
    obtain ⟨body, _, hinside, rfl, rfl⟩ := h
    obtain ⟨u, hbody, rfl⟩ := inHandler_eq_ok.1 hinside
    rintro _ ⟨⟩
    exact plain_obeys ih hbody

/-- A finalizer neither returns nor jumps. -/
theorem finalizer_obeys {fin : Option Ir.Expr} {block : Option (List Stmt)}
    (h : (rules n).finalizer ctx.withoutTailCall fin s = (.ok block, t)) :
    ∀ zs, finalizerFlows block = some zs → Obeys false noJumps zs := by
  cases fin with
  | none =>
    obtain ⟨rfl, -⟩ := pure_eq_ok.1 h
    nofun
  | some fin =>
    simp only [Parts.finalizer, bind_eq_ok, pure_eq_ok] at h
    obtain ⟨body, _, hbody, rfl, rfl⟩ := h
    rintro _ ⟨⟩
    exact plain_obeys ih hbody

/-- Declarations of what a target binds neither return nor jump. -/
theorem bindings_obeys {ids : List Ir.Ident} {values : List Ir.Expr}
    (h : (rules n).bindings ctx ids values s = (.ok stmts, t)) :
    Obeys false noJumps (flows stmts) := by
  induction ids generalizing values s stmts with
  | nil =>
    obtain ⟨rfl, -⟩ := pure_eq_ok.1 h
    exact .nil
  | cons id ids ihs =>
    cases values with
    | nil =>
      obtain ⟨rfl, -⟩ := pure_eq_ok.1 h
      exact .nil
    | cons value values =>
      simp only [Parts.bindings, bind_eq_ok, pure_eq_ok] at h
      obtain ⟨first, _, hfirst, rest, _, hrest, rfl, rfl⟩ := h
      rw [flows_append]
      exact (declare_obeys ih hfirst).append (ihs hrest)

/-- Assignments to what a target binds neither return nor jump. -/
theorem assignments_obeys {ids : List Ir.Ident} {values : List Ir.Expr}
    (h : (rules n).assignments ctx ids values s = (.ok stmts, t)) :
    Obeys false noJumps (flows stmts) := by
  induction ids generalizing values s stmts with
  | nil =>
    obtain ⟨rfl, -⟩ := pure_eq_ok.1 h
    exact .nil
  | cons id ids ihs =>
    cases values with
    | nil =>
      obtain ⟨rfl, -⟩ := pure_eq_ok.1 h
      exact .nil
    | cons value values =>
      simp only [Parts.assignments, bind_eq_ok, pure_eq_ok] at h
      obtain ⟨first, _, hfirst, rest, _, hrest, rfl, rfl⟩ := h
      rw [flows_append]
      exact (assigned_obeys ih hfirst).append (ihs hrest)

/-! ## Statements in tail position -/

omit ih in

/-- The writes to the slots of a loop neither return nor jump. -/
theorem slotWrites_obeys {slots : List (Ir.Ident × String)} {args : List Ir.Expr}
    (h : (rules n).slotWrites ctx slots args s = (.ok stmts, t)) :
    Obeys false noJumps (flows stmts) := by
  induction slots generalizing args s stmts with
  | nil =>
    obtain ⟨rfl, -⟩ := pure_eq_ok.1 h
    exact .nil
  | cons slot slots ihs =>
    cases args with
    | nil =>
      obtain ⟨rfl, -⟩ := pure_eq_ok.1 h
      exact .nil
    | cons arg args =>
      obtain ⟨p, slot⟩ := slot
      simp only [slotWrites_cons, bind_eq_ok, pure_eq_ok] at h
      obtain ⟨value, _, -, rest, _, hrest, rfl, rfl⟩ := h
      split
      · exact ihs hrest
      · exact .cons (.step _) (ihs hrest)

omit ih in
/-- A self tail call is a jump of the loop around. -/
theorem tailCall_obeys {loop : TailCall} {callee : Ir.Expr} {receiver : Option Ir.Expr}
    {args : List Ir.Expr} {isNew : Bool} {ty : Ir.Ty} {loc : Option Ir.Location}
    (hloop : ctx.selfTailCall? strategy callee receiver args isNew = some loop)
    (h : (rules n).tailCall ctx loop args s = (.ok stmts, t)) :
    Obeys strategy.returns (jumps strategy ctx (.call callee receiver args isNew ty loc) s t)
      (flows stmts) := by
  simp only [Parts.tailCall, bind_eq_ok, pure_eq_ok, markLooped_eq_ok] at h
  obtain ⟨_, u, rfl, writes, v, hwrites, rfl, rfl⟩ := h
  obtain ⟨hctx, hrec⟩ := Option.filter_eq_some_iff.1 hloop
  simp only [TailCall.recognizes, Bool.and_eq_true, beq_iff_eq] at hrec
  rw [flows_append]
  refine .continues (slotWrites_obeys hwrites) ?_
  have hg := ((rules_grow n).slotWrites _ _ _).grows hwrites
  exact ⟨hrec.1.1.1.1, loop, ctx, callee, receiver, args, isNew, ty, loc, _, _, hctx, rfl,
    .refl _ _, hrec.2, .of_looped, ⟨n, writes, hwrites, rfl⟩, hg.looped rfl, .refl _⟩

/-- The statements of a node inside. -/
theorem inner_obeys {ctx' : Context} {e' : Ir.Expr} {s' t' : LowerState}
    (h : (rules n).stmts ctx' strategy e' s' = (.ok stmts, t')) (hw : Within ctx e ctx' e')
    (hs : Grows s s') (ht : Grows t' t) :
    Obeys strategy.returns (jumps strategy ctx e s t) (flows stmts) :=
  (ih h).mono fun _ _ => selfCalls_mono hw hs ht

/-- A sequence obeys the strategy, as its last node does. -/
theorem sequence_obeys {es : List Ir.Expr} (hw : ∀ d ∈ es, Within ctx e ctx d)
    (h : (rules n).sequence ctx strategy es s = (.ok stmts, t)) :
    Obeys strategy.returns (jumps strategy ctx e s t) (flows stmts) := by
  induction es generalizing s stmts with
  | nil =>
    obtain ⟨rfl, -⟩ := pure_eq_ok.1 h
    exact deliverUnit_obeys strategy
  | cons d es ihs =>
    cases es with
    | nil => exact inner_obeys ih h (hw d List.mem_cons_self) (.refl _) (.refl _)
    | cons d' es =>
      simp only [Parts.sequence, bind_eq_ok, pure_eq_ok] at h
      obtain ⟨first, u, hfirst, rest, _, hrest, rfl, rfl⟩ := h
      rw [flows_append]
      refine (plain_obeys ih hfirst).append ?_
      refine (ihs (fun d hd => hw d (List.mem_cons_of_mem _ hd)) hrest).mono fun _ _ => ?_
      exact selfCalls_mono (.refl _ _) (((rules_grow n).stmts _ _ _).grows hfirst) (.refl _)

/-- The cases of the switch over the targets; the last one is the default case. -/
theorem cases_obey {index : Nat} {ts : List Ir.Target} {cs : List SwitchCase}
    (hw : ∀ t ∈ ts, Within ctx e ctx t.body)
    (h : (rules n).cases ctx strategy index ts s = (.ok cs, t)) :
    (∀ c ∈ caseFlows cs, Body strategy.returns (jumps strategy ctx e s t) c.body) ∧
      (ts ≠ [] → ∃ c ∈ caseFlows cs, c.tests = none) := by
  induction ts generalizing index s cs with
  | nil =>
    obtain ⟨rfl, -⟩ := pure_eq_ok.1 h
    exact ⟨nofun, fun hne => absurd rfl hne⟩
  | cons target ts ihs =>
    simp only [Parts.cases, bind_eq_ok, pure_eq_ok] at h
    obtain ⟨body, u, hbody, rest, v, hrest, rfl, rfl⟩ := h
    have hg := ((rules_grow n).stmts _ _ _).grows hbody
    have hg' := ((rules_grow n).cases _ _ _ _).grows hrest
    obtain ⟨hobey, hdefault⟩ := ihs (fun t ht => hw t (List.mem_cons_of_mem _ ht)) hrest
    refine ⟨fun c hc => ?_, fun _ => ?_⟩
    · rw [caseFlows, List.mem_cons] at hc
      rcases hc with rfl | hc
      · refine ⟨flows body, _, flows_append _ _, ?_, ?_⟩
        · exact inner_obeys ih hbody (hw target List.mem_cons_self) (.refl _) hg'
        · cases strategy with
          | ret => exact .inl rfl
          | effect | assign | join => exact .inr rfl
      · obtain ⟨fs, exit, hfs, hobeys, hexit⟩ := hobey c hc
        exact ⟨fs, exit, hfs, hobeys.mono fun _ _ => selfCalls_mono (.refl _ _) hg (.refl _), hexit⟩
    · cases ts with
      | nil => exact ⟨_, List.mem_cons_self, rfl⟩
      | cons t' ts =>
        obtain ⟨c, hc, hnone⟩ := hdefault (List.cons_ne_nil _ _)
        exact ⟨c, List.mem_cons_of_mem _ hc, hnone⟩

omit ih in

/-- Declarations of what targets bind neither return nor jump. -/
theorem targetVariables_obey (ctx : Context) (ts : List Ir.Target) :
    Obeys false noJumps (flows (Parts.targetVariables ctx ts)) := by
  have hsteps : ∀ stmts : List Stmt, (∀ s ∈ stmts, ∃ code, s.flow = .step code) →
      Obeys false noJumps (flows stmts) := by
    intro stmts h
    induction stmts with
    | nil => exact .nil
    | cons stmt stmts ihs =>
      obtain ⟨code, hcode⟩ := h stmt List.mem_cons_self
      rw [flows_cons, hcode]
      exact .cons (.step code) (ihs fun s hs => h s (List.mem_cons_of_mem _ hs))
  refine hsteps _ fun stmt hstmt => ?_
  obtain ⟨t, -, hstmt⟩ := List.mem_flatMap.1 hstmt
  obtain ⟨id, -, rfl⟩ := List.mem_map.1 hstmt
  exact ⟨_, rfl⟩

/-- A decision tree obeys the strategy. -/
theorem decisionTree_obeys {d : Ir.Expr} {ts : List Ir.Target}
    (h : (rules n).decisionTree ctx strategy d ts s = (.ok stmts, t)) :
    Obeys strategy.returns (jumps strategy ctx (.decisionTree d ts) s t) (flows stmts) := by
  rw [Parts.decisionTree] at h
  split at h
  · exact inner_obeys ih h .dispatcher (.refl _) (.refl _)
  · rename_i hshared
    simp only [bind_eq_ok, pure_eq_ok] at h
    obtain ⟨join, u, hjoin, dispatch, v, hdispatch, cs, _, hcases, rfl, rfl⟩ := h
    have hg : Grows s v := ((Below.allocateLocal _).grows hjoin).trans
      (((rules_grow n).stmts _ _ _).grows hdispatch)
    obtain ⟨hobey, hdefault⟩ := cases_obey ih (e := .decisionTree d ts) (fun _ => .target) hcases
    simp only [List.cons_append, flows_cons, flows_append, List.append_assoc]
    refine .cons (.step _) ((targetVariables_obey ctx ts).append
      ((plain_obeys ih hdispatch).append ?_))
    refine .switch (fun c hc => ?_) fun _ => hdefault ?_
    · obtain ⟨fs, exit, hfs, hobeys, hexit⟩ := hobey c hc
      exact ⟨fs, exit, hfs, hobeys.mono fun _ _ => selfCalls_mono (.refl _ _) hg (.refl _), hexit⟩
    · rintro rfl
      exact hshared rfl

/-- A success node obeys the strategy. -/
theorem success_obeys {index : Nat} {values : List Ir.Expr}
    (h : (rules n).success ctx strategy index values s = (.ok stmts, t)) :
    Obeys strategy.returns (jumps strategy ctx e s t) (flows stmts) := by
  simp only [Parts.success, bind_eq_ok, Parts.target, ofOption_eq_ok] at h
  obtain ⟨target, u, ⟨htarget, rfl⟩, h⟩ := h
  have hw : Within ctx e ctx target.body := .selected (List.mem_of_getElem? htarget)
  cases strategy with
  | join name =>
    simp only [bind_eq_ok, pure_eq_ok] at h
    obtain ⟨first, _, hfirst, rfl, rfl⟩ := h
    rw [flows_append]
    exact (assignments_obeys ih hfirst).append (.step _)
  | ret | effect | assign =>
    simp only [bind_eq_ok, pure_eq_ok] at h
    obtain ⟨first, u, hfirst, body, _, hbody, rfl, rfl⟩ := h
    rw [flows_append]
    refine (bindings_obeys ih hfirst).append (inner_obeys ih hbody hw ?_ (.refl _))
    exact ((rules_grow n).bindings _ _ _).grows hfirst

/-- A conditional statement obeys the strategy, as its branches do. -/
theorem conditional_obeys {guard thenExpr elseExpr : Ir.Expr} {loc : Option Ir.Location}
    (hthen : Within ctx e ctx thenExpr) (helse : Within ctx e ctx elseExpr)
    (h : (rules n).conditional ctx strategy guard thenExpr elseExpr loc s = (.ok stmts, t)) :
    Obeys strategy.returns (jumps strategy ctx e s t) (flows stmts) := by
  simp only [Parts.conditional, bind_eq_ok, pure_eq_ok] at h
  obtain ⟨test, u, htest, thenStmts, v, hthenStmts, elseStmts, w, helseStmts, rfl, rfl⟩ := h
  have hu : Grows s u := ((rules_grow n).expr _ _).grows htest
  have hv : Grows u v := ((rules_grow n).stmts _ _ _).grows hthenStmts
  have hw : Grows v w := ((rules_grow n).stmts _ _ _).grows helseStmts
  exact .choose (inner_obeys ih hthenStmts hthen hu hw)
    (inner_obeys ih helseStmts helse (hu.trans hv) (.refl _))

/-! ## The rules -/

/-- Any node in the place of statements obeys the strategy. -/
theorem stmtsRule_obeys (h : (rules n).stmtsRule ctx strategy e s = (.ok stmts, t)) :
    Obeys strategy.returns (jumps strategy ctx e s t) (flows stmts) := by
  have hchild : ∀ {c}, c ∈ e.children → Within ctx e ctx c := .of_child
  cases e with
  | cast inner => exact inner_obeys ih h (hchild (by simp [Ir.Expr.children])) (.refl _) (.refl _)
  | call callee receiver args isNew ty loc =>
    simp only [Parts.stmtsRule] at h
    cases hloop : ctx.selfTailCall? strategy callee receiver args isNew with
    | some loop =>
      rw [hloop] at h
      exact tailCall_obeys hloop h
    | none =>
      rw [hloop] at h
      exact delivered_obeys n h
  | ifThenElse guard thenExpr elseExpr loc =>
    simp only [Parts.stmtsRule, bind_eq_ok, isStatement_eq_ok] at h
    obtain ⟨isStatement, u, ⟨-, rfl⟩, h⟩ := h
    cases isStatement with
    | true =>
      exact conditional_obeys ih (hchild (by simp [Ir.Expr.children]))
        (hchild (by simp [Ir.Expr.children])) h
    | false => exact delivered_obeys n h
  | decisionTree dispatcher targets => exact decisionTree_obeys ih h
  | success index values ty => exact success_obeys ih h
  | letIn id value body =>
    simp only [Parts.stmtsRule, bind_eq_ok, pure_eq_ok] at h
    obtain ⟨first, u, hfirst, rest, _, hrest, rfl, rfl⟩ := h
    rw [flows_append]
    exact (declare_obeys ih hfirst).append (inner_obeys ih hrest
      (hchild (by simp [Ir.Expr.children])) (((rules_grow n).declare _ _ _).grows hfirst) (.refl _))
  | letRec bindings body =>
    simp only [Parts.stmtsRule, bind_eq_ok, pure_eq_ok] at h
    obtain ⟨first, u, hfirst, rest, _, hrest, rfl, rfl⟩ := h
    rw [flows_append]
    exact (recursive_obeys ih hfirst).append (inner_obeys ih hrest
      (hchild (by simp [Ir.Expr.children])) (((rules_grow n).recursive _ _).grows hfirst) (.refl _))
  | sequence exprs => exact sequence_obeys ih (fun _ => hchild) h
  | set target field value loc =>
    simp only [Parts.stmtsRule, bind_eq_ok, pure_eq_ok] at h
    obtain ⟨place, _, -, assigned, _, hassigned, rfl, rfl⟩ := h
    rw [flows_append]
    exact (assignment_obeys ih hassigned).append (deliverUnit_obeys strategy)
  | setIndex target index value loc =>
    simp only [Parts.stmtsRule, bind_eq_ok, pure_eq_ok] at h
    obtain ⟨place, _, -, assigned, _, hassigned, rfl, rfl⟩ := h
    rw [flows_append]
    exact (assignment_obeys ih hassigned).append (deliverUnit_obeys strategy)
  | whileLoop guard body loc =>
    simp only [Parts.stmtsRule, bind_eq_ok, pure_eq_ok] at h
    obtain ⟨test, _, -, body, _, hbody, rfl, rfl⟩ := h
    exact .cons (.loop (.of_obeys (plain_obeys ih hbody))) (deliverUnit_obeys strategy)
  | forLoop id start limit body isUp loc =>
    simp only [Parts.stmtsRule, bind_eq_ok, pure_eq_ok] at h
    obtain ⟨loop, _, hloop, rfl, rfl⟩ := h
    rw [flows_append]
    exact (forLoop_obeys ih hloop).append (deliverUnit_obeys strategy)
  | tryCatch body handler finalizer loc =>
    simp only [Parts.stmtsRule, bind_eq_ok, pure_eq_ok] at h
    obtain ⟨block, _, hblock, clause, _, hclause, fin, _, hfin, rfl, rfl⟩ := h
    exact .protect (plain_obeys ih hblock) (handler_obeys ih hclause) (finalizer_obeys ih hfin)
  | throw error ty loc =>
    cases error with
    | some error =>
      simp only [Parts.stmtsRule, bind_eq_ok, pure_eq_ok] at h
      obtain ⟨value, _, -, rfl, rfl⟩ := h
      exact .raises _
    | none =>
      simp only [Parts.stmtsRule, bind_eq_ok, pure_eq_ok] at h
      obtain ⟨param, _, -, caught, _, -, rfl, rfl⟩ := h
      exact .raises _
  | debugger loc =>
    obtain ⟨rfl, -⟩ := pure_eq_ok.1 h
    exact .cons (.step _) (deliverUnit_obeys strategy)
  | emit template args isStatement ty loc =>
    cases isStatement with
    | true =>
      simp only [Parts.stmtsRule, bind_eq_ok, pure_eq_ok] at h
      obtain ⟨args, _, -, rfl, rfl⟩ := h
      exact .cons (.step _) (deliverUnit_obeys strategy)
    | false => exact delivered_obeys n h
  | literal | option | aggregate | ident | imported | lambda | delegate | object | apply | unary
  | binary | logical | get | getIndex | test | curry => exact delivered_obeys n h

end

/-- Statements obey the strategy that they are lowered with. -/
theorem rules_obey (n : Nat) : Disciplined n := by
  induction n with
  | zero => exact fun h => absurd h fail_ne_ok
  | succ n ih => exact stmtsRule_obeys ih

end TypedLowering.JavaScript
