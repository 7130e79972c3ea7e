import TypedLowering.Proofs.JavaScript.TailElimination
import TypedLowering.Proofs.Ir.Binding

/-!
# Which function a jump calls

A jump comes from a call in tail position that is spelled like the function around (`rules_jump`).
Whether this function is meant depends on the binders between the function and the call, and on
whether the function is declared by its name: the name of a method is not in scope in its body. So
where each such call means the function, only self calls become jumps, and a method has none
(`genuineSelfCalls_jump`). Otherwise a call of something else becomes a jump
(`shadowedCallee_jumps`).
-/

namespace TypedLowering

namespace Ir.Expr

/-- A target with the binders around its body, outermost first. -/
abbrev ScopedTarget := Target × List Binders

/-- The nodes in tail position of the body of a function, each with the binders around it. Success
nodes select from these targets, those of the tree that was entered last. -/
inductive TailScope : List ScopedTarget → List Binders → Expr → List Binders → Expr → Prop
  | here {targets : List ScopedTarget} {gs : List Binders} {e : Expr} :
    TailScope targets gs e gs e
  | cast {targets : List ScopedTarget} {gs hs : List Binders} {inner d : Expr} {ty : Ty} :
    TailScope targets gs inner hs d → TailScope targets gs (.cast inner ty) hs d
  | thenBranch {targets : List ScopedTarget} {gs hs : List Binders}
      {guard thenExpr elseExpr d : Expr} {loc : Option Location} :
    TailScope targets gs thenExpr hs d →
      TailScope targets gs (.ifThenElse guard thenExpr elseExpr loc) hs d
  | elseBranch {targets : List ScopedTarget} {gs hs : List Binders}
      {guard thenExpr elseExpr d : Expr} {loc : Option Location} :
    TailScope targets gs elseExpr hs d →
      TailScope targets gs (.ifThenElse guard thenExpr elseExpr loc) hs d
  | letBody {targets : List ScopedTarget} {gs hs : List Binders} {id : Ident}
      {value body d : Expr} :
    TailScope targets (gs ++ [.of [id]]) body hs d →
      TailScope targets gs (.letIn id value body) hs d
  | letRecBody {targets : List ScopedTarget} {gs hs : List Binders}
      {bindings : List Binding} {body d : Expr} :
    TailScope targets (gs ++ [.of (bindings.map (·.ident))]) body hs d →
      TailScope targets gs (.letRec bindings body) hs d
  | lastItem {targets : List ScopedTarget} {gs hs : List Binders} {es : List Expr}
      {last d : Expr} :
    TailScope targets gs last hs d → TailScope targets gs (.sequence (es ++ [last])) hs d
  | dispatcher {targets : List ScopedTarget} {gs hs : List Binders}
      {inner : List Target} {dispatcher d : Expr} :
    dispatcher.sharedTargets inner.length = [] →
      TailScope (inner.map fun t => (t, gs ++ [.of t.bound])) gs dispatcher hs d →
      TailScope targets gs (.decisionTree dispatcher inner) hs d
  | target {targets : List ScopedTarget} {gs hs : List Binders}
      {inner : List Target} {dispatcher d : Expr} {t : Target} :
    dispatcher.sharedTargets inner.length ≠ [] → t ∈ inner →
      TailScope targets (gs ++ [.of t.bound]) t.body hs d →
      TailScope targets gs (.decisionTree dispatcher inner) hs d
  | selected {targets : List ScopedTarget} {gs hs ks : List Binders} {index : Nat}
      {values : List Expr} {ty : Ty} {d : Expr} {t : Target} :
    targets[index]? = some (t, ks) → TailScope targets ks t.body hs d →
      TailScope targets gs (.success index values ty) hs d

end Ir.Expr

open Control (blocks)
open Ir (Binders Target binder?)
open Ir.Expr (ScopedTarget TailScope)

/-- Whether a callee with the name of the function, in that scope of the body, denotes the function:
the name is that of a declaration, and neither a parameter nor a binder in the body has it. -/
def DenotesFunction (isMethod : Bool) (params : List Ir.Ident) (name : String)
    (scope : List Binders) : Prop :=
  isMethod = false ∧ binder? name (.of params :: scope) = none

namespace JavaScript

open Control Lower

/-- The jumps of a node with a loop around: each one is a self call in tail position, and the
statements that write its arguments to the slots stand right before it. -/
def jumpsOf (loop : TailCall) (targets : List ScopedTarget) (scope : List Binders)
    (e : Ir.Expr) : Jumps StmtForm Expr := fun own label =>
  label = some loop.label ∧ ∃ inner callee args ty loc stmts,
    TailScope targets scope e inner (.call callee none args false ty loc) ∧
    loop.IsSelfCall (.call callee none args false ty loc) ∧
    WritesSlots loop args stmts ∧ own = flows stmts

/-- Whether the jumps of nodes that are lowered to that depth come from tail positions. -/
def JumpsFromTail (n : Nat) : Prop :=
  ∀ {ctx : Context} {strategy : Strategy Expr} {e : Ir.Expr} {s t : LowerState} {stmts : List Stmt}
    {loop : TailCall} {targets : List ScopedTarget} {scope : List Binders},
    (rules n).stmts ctx strategy e s = (.ok stmts, t) → ctx.tailCall = some loop →
      targets.map (·.1) = ctx.targets →
        Obeys strategy.returns (jumpsOf loop targets scope e) (flows stmts)

section

variable {n : Nat} {ctx : Context} {strategy : Strategy Expr} {e d : Ir.Expr} {s t : LowerState}
  {stmts : List Stmt} {loop : TailCall} {targets targets' : List ScopedTarget}
  {scope scope' : List Binders}

/-- A part has no jumps but those of the node. -/
theorem jumpsOf_mono
    (h : ∀ {inner c}, TailScope targets' scope' d inner c →
      TailScope targets scope e inner c) (own : List (Flow StmtForm Expr))
    (label : Option String) (hJ : jumpsOf loop targets' scope' d own label) :
    jumpsOf loop targets scope e own label := by
  obtain ⟨hlabel, inner, callee, args, ty, loc, stmts, hd, hself, hwrites⟩ := hJ
  exact ⟨hlabel, inner, callee, args, ty, loc, stmts, h hd, hself, hwrites⟩

/-! ## One rule at a time -/

/-- The jump of a self tail call comes from that call. -/
theorem tailCall_jumps {callee : Ir.Expr} {receiver : Option Ir.Expr} {args : List Ir.Expr}
    {isNew : Bool} {ty : Ir.Ty} {loc : Option Ir.Location}
    (hself : loop.IsSelfCall (.call callee receiver args isNew ty loc))
    (h : (rules n).tailCall ctx loop args s = (.ok stmts, t)) :
    Obeys strategy.returns (jumpsOf loop targets scope (.call callee receiver args isNew ty loc))
      (flows stmts) := by
  simp only [Parts.tailCall, bind_eq_ok, pure_eq_ok, markLooped_eq_ok] at h
  obtain ⟨_, u, rfl, writes, v, hwrites, rfl, rfl⟩ := h
  cases receiver with
  | some => exact hself.elim
  | none =>
    cases isNew with
    | true => exact hself.elim
    | false =>
      rw [flows_append]
      exact .continues (slotWrites_obeys hwrites)
        ⟨rfl, scope, callee, args, ty, loc, writes, .here, hself, ⟨n, ctx, _, _, hwrites⟩, rfl⟩

/-- A node that is lowered as it is without a loop around has no jumps. -/
theorem other_jumps {J : Jumps StmtForm Expr}
    (heq : (rules n).stmtsRule ctx strategy e = (rules n).stmtsRule ctx.withoutTailCall strategy e)
    (h : (rules n).stmtsRule ctx strategy e s = (.ok stmts, t)) :
    Obeys strategy.returns J (flows stmts) :=
  (plain_obeys (rules_obey (n + 1)) (heq ▸ h)).mono fun _ _ => False.elim

variable (ih : JumpsFromTail n) (hctx : ctx.tailCall = some loop)
  (htargets : targets.map (·.1) = ctx.targets)
include ih hctx htargets

/-- The statements of a node in tail position inside. -/
theorem inner_jumps (h : (rules n).stmts ctx strategy d s = (.ok stmts, t))
    (hd : ∀ {inner c}, TailScope targets scope' d inner c →
      TailScope targets scope e inner c) :
    Obeys strategy.returns (jumpsOf loop targets scope e) (flows stmts) :=
  (ih h hctx htargets).mono (jumpsOf_mono hd)

/-- The jumps of a sequence come from its last item. -/
theorem sequence_jumps {es : List Ir.Expr} {last : Ir.Expr}
    (h : (rules n).sequence ctx strategy (es ++ [last]) s = (.ok stmts, t)) :
    Obeys strategy.returns (jumpsOf loop targets scope last) (flows stmts) := by
  induction es generalizing s stmts with
  | nil => exact ih h hctx htargets
  | cons e es ihs =>
    have hcons : (rules n).sequence ctx strategy (e :: (es ++ [last])) = (do
        let first ← (rules n).stmts ctx.withoutTailCall .effect e
        let rest ← (rules n).sequence ctx strategy (es ++ [last])
        return first ++ rest) := by
      cases es <;> rfl
    rw [List.cons_append, hcons] at h
    simp only [bind_eq_ok, pure_eq_ok] at h
    obtain ⟨first, u, hfirst, rest, _, hrest, rfl, rfl⟩ := h
    rw [flows_append]
    exact (plain_obeys (rules_obey n) hfirst).append (ihs hrest)

/-- The jumps of a conditional come from its branches. -/
theorem conditional_jumps {guard thenExpr elseExpr : Ir.Expr} {loc : Option Ir.Location}
    (h : (rules n).conditional ctx strategy guard thenExpr elseExpr loc s = (.ok stmts, t)) :
    Obeys strategy.returns (jumpsOf loop targets scope (.ifThenElse guard thenExpr elseExpr loc))
      (flows stmts) := by
  simp only [Parts.conditional, bind_eq_ok, pure_eq_ok] at h
  obtain ⟨test, u, -, thenStmts, v, hthen, elseStmts, w, helse, rfl, rfl⟩ := h
  exact .choose (inner_jumps ih hctx htargets hthen .thenBranch)
    (inner_jumps ih hctx htargets helse .elseBranch)

/-- The cases of the switch over the targets; the last one is the default case. -/
theorem cases_jump {index : Nat} {ts : List Target} {cs : List SwitchCase}
    (hts : ∀ target ∈ ts, ∀ {inner c},
      TailScope targets (scope ++ [.of target.bound]) target.body inner c →
        TailScope targets scope e inner c)
    (h : (rules n).cases ctx strategy index ts s = (.ok cs, t)) :
    (∀ c ∈ caseFlows cs, Body strategy.returns (jumpsOf loop targets scope e) c.body) ∧
      (ts ≠ [] → ∃ c ∈ caseFlows cs, c.tests = none) := by
  induction ts generalizing index s cs with
  | nil =>
    obtain ⟨rfl, -⟩ := pure_eq_ok.1 h
    exact ⟨nofun, fun hne => absurd rfl hne⟩
  | cons target ts ihs =>
    simp only [Parts.cases, bind_eq_ok, pure_eq_ok] at h
    obtain ⟨body, u, hbody, rest, v, hrest, rfl, rfl⟩ := h
    obtain ⟨hobey, hdefault⟩ := ihs (fun target ht => hts target (List.mem_cons_of_mem _ ht)) hrest
    refine ⟨fun c hc => ?_, fun _ => ?_⟩
    · rw [caseFlows, List.mem_cons] at hc
      rcases hc with rfl | hc
      · refine ⟨flows body, _, flows_append _ _, ?_, ?_⟩
        · exact inner_jumps ih hctx htargets hbody (hts target List.mem_cons_self)
        · cases strategy with
          | ret => exact .inl rfl
          | effect | assign | join => exact .inr rfl
      · exact hobey c hc
    · cases ts with
      | nil => exact ⟨_, List.mem_cons_self, rfl⟩
      | cons t' ts =>
        obtain ⟨c, hc, hnone⟩ := hdefault (List.cons_ne_nil _ _)
        exact ⟨c, List.mem_cons_of_mem _ hc, hnone⟩

/-- The jumps of a decision tree come from its dispatcher and its targets. -/
theorem decisionTree_jumps {dispatcher : Ir.Expr} {inner : List Target}
    (h : (rules n).decisionTree ctx strategy dispatcher inner s = (.ok stmts, t)) :
    Obeys strategy.returns (jumpsOf loop targets scope (.decisionTree dispatcher inner))
      (flows stmts) := by
  rw [Parts.decisionTree] at h
  split at h
  · rename_i hplain
    have hinner : (inner.map fun t => (t, scope ++ [Binders.of t.bound])).map (·.1) = inner := by
      simp [Function.comp_def]
    exact (ih h hctx hinner).mono (jumpsOf_mono (.dispatcher (List.isEmpty_iff.1 hplain)))
  · rename_i hshared
    have hshared := mt List.isEmpty_iff.2 hshared
    simp only [bind_eq_ok, pure_eq_ok] at h
    obtain ⟨join, u, -, dispatch, v, hdispatch, cs, _, hcases, rfl, rfl⟩ := h
    obtain ⟨hobey, hdefault⟩ : (∀ c ∈ caseFlows cs, Body strategy.returns
        (jumpsOf loop targets scope (.decisionTree dispatcher inner)) c.body) ∧ _ :=
      cases_jump ih hctx htargets (fun _ ht => .target hshared ht) hcases
    simp only [List.cons_append, flows_cons, flows_append, List.append_assoc]
    refine .cons (.step _) ((targetVariables_obey ctx inner).append
      ((plain_obeys (rules_obey n) hdispatch).append (.switch hobey fun _ => hdefault ?_)))
    rintro rfl
    exact hshared rfl

/-- The jumps of a success node come from the selected target. -/
theorem success_jumps {index : Nat} {values : List Ir.Expr} {ty : Ir.Ty}
    (h : (rules n).success ctx strategy index values s = (.ok stmts, t)) :
    Obeys strategy.returns (jumpsOf loop targets scope (.success index values ty))
      (flows stmts) := by
  simp only [Parts.success, bind_eq_ok, Parts.target, ofOption_eq_ok] at h
  obtain ⟨target, u, ⟨htarget, rfl⟩, h⟩ := h
  rw [← htargets, List.getElem?_map, Option.map_eq_some_iff] at htarget
  obtain ⟨⟨_, around⟩, htarget, rfl⟩ := htarget
  cases strategy with
  | join name =>
    simp only [bind_eq_ok, pure_eq_ok] at h
    obtain ⟨first, _, hfirst, rfl, rfl⟩ := h
    rw [flows_append]
    exact (assignments_obeys (rules_obey n) hfirst).append (.step _)
  | ret | effect | assign =>
    simp only [bind_eq_ok, pure_eq_ok] at h
    obtain ⟨first, u, hfirst, body, _, hbody, rfl, rfl⟩ := h
    rw [flows_append]
    exact (bindings_obeys (rules_obey n) hfirst).append
      (inner_jumps ih hctx htargets hbody (.selected htarget))

/-- The jumps of a node come from its tail positions if those of its parts do. -/
theorem stmtsRule_jumps (h : (rules n).stmtsRule ctx strategy e s = (.ok stmts, t)) :
    Obeys strategy.returns (jumpsOf loop targets scope e) (flows stmts) := by
  cases e with
  | cast inner ty => exact inner_jumps ih hctx htargets h .cast
  | call callee receiver args isNew ty loc =>
    cases hcall : ctx.selfTailCall? strategy callee receiver args isNew with
    | some loop' =>
      simp only [Parts.stmtsRule, hcall] at h
      obtain ⟨hloop, hrec⟩ := Option.filter_eq_some_iff.1 hcall
      obtain rfl := Option.some.inj (hctx.symm.trans hloop)
      have htail : strategy.isTail = true := by
        simp only [TailCall.recognizes, Bool.and_eq_true] at hrec
        exact hrec.1.1.1.1
      exact tailCall_jumps ((TailCall.recognizes_iff htail ty loc).1 hrec) h
    | none =>
      simp only [Parts.stmtsRule, hcall] at h
      exact delivered_obeys n h
  | ifThenElse guard thenExpr elseExpr loc =>
    simp only [Parts.stmtsRule, bind_eq_ok, isStatement_eq_ok] at h
    obtain ⟨isStatement, u, ⟨-, rfl⟩, h⟩ := h
    cases isStatement with
    | true => exact conditional_jumps ih hctx htargets h
    | false => exact delivered_obeys n h
  | decisionTree dispatcher targets => exact decisionTree_jumps ih hctx htargets h
  | success index values ty => exact success_jumps ih hctx htargets h
  | letIn id value body =>
    simp only [Parts.stmtsRule, bind_eq_ok, pure_eq_ok] at h
    obtain ⟨first, u, hfirst, rest, _, hrest, rfl, rfl⟩ := h
    rw [flows_append]
    exact (declare_obeys (rules_obey n) hfirst).append
      (inner_jumps ih hctx htargets hrest .letBody)
  | letRec bindings body =>
    simp only [Parts.stmtsRule, bind_eq_ok, pure_eq_ok] at h
    obtain ⟨first, u, hfirst, rest, _, hrest, rfl, rfl⟩ := h
    rw [flows_append]
    exact (recursive_obeys (rules_obey n) hfirst).append
      (inner_jumps ih hctx htargets hrest .letRecBody)
  | sequence exprs =>
    rcases List.eq_nil_or_concat' exprs with rfl | ⟨es, last, rfl⟩
    · exact other_jumps rfl h
    · exact (sequence_jumps ih hctx htargets h).mono (jumpsOf_mono .lastItem)
  | throw error => cases error <;> exact other_jumps rfl h
  | emit _ _ isStatement => cases isStatement <;> exact other_jumps rfl h
  | _ => exact other_jumps rfl h

end

/-- The jumps of a node with a loop around come from self calls in tail position. -/
theorem rules_jump (n : Nat) : JumpsFromTail n := by
  induction n with
  | zero => exact fun h => absurd h fail_ne_ok
  | succ n ih => exact fun h hctx htargets => stmtsRule_jumps ih hctx htargets h

/-! ## Functions -/

/-- Whether each jump of some statements is one of these. -/
def EachJump {σ ε : Type} (J : Jumps σ ε) (fs : List (Flow σ ε)) : Prop :=
  ∀ B ∈ Control.blocks false fs, ∀ pre label post, B.flows = pre ++ .continueTo label :: post →
    J.After pre label

/-- The only jumps of a loop with a label are those in its body. -/
theorem EachJump.loop {J : Jumps StmtForm Expr} {label : String} {test : Expr} {body : List Stmt}
    (h : EachJump J (flows body)) :
    EachJump J (flows [.of (.labeled label (.of (.whileLoop test body)))]) := by
  intro B hB pre target post he
  simp only [flows_cons, flows_nil, flow_of, StmtForm.flow, Control.blocks, innerAll, Flow.inner,
    List.append_nil, List.mem_cons] at hB
  have hmem : Flow.continueTo target ∈ B.flows := he ▸ List.mem_append_right _ List.mem_cons_self
  rcases hB with rfl | rfl | hB
  · cases List.mem_singleton.1 hmem
  · cases List.mem_singleton.1 hmem
  · obtain ⟨C, hC, heq⟩ := blocks_flows (List.mem_cons.2 hB)
    exact h C hC pre target post (heq.trans he)

/-- The jumps of a function that mean the function itself: each one comes from a self call in tail
position whose callee denotes the function, and the statements that write its arguments to the slots
stand right before it. -/
def genuineJumps (isMethod : Bool) (name : Option String) (params : List Ir.Ident)
    (outer : List ScopedTarget) (body : Ir.Expr) : Jumps StmtForm Expr :=
  fun own label => ∃ loop scope callee args ty loc stmts,
    IsLoopOf name params loop ∧ label = some loop.label ∧
    TailScope outer [] body scope (.call callee none args false ty loc) ∧
    loop.IsSelfCall (.call callee none args false ty loc) ∧
    DenotesFunction isMethod params loop.label scope ∧
    WritesSlots loop args stmts ∧ own = flows stmts

/-- Where each tail call that is spelled like the function means the function. -/
def CallsAreGenuine (isMethod : Bool) (name : Option String) (params : List Ir.Ident)
    (outer : List ScopedTarget) (body : Ir.Expr) : Prop :=
  ∀ loop scope d, IsLoopOf name params loop → TailScope outer [] body scope d →
    loop.IsSelfCall d → DenotesFunction isMethod params loop.label scope

/-- The jumps of a function come from the tail positions of its body. -/
theorem function_jumps {n : Nat} {ctx : Context} {name : Option String} {params : List Ir.Ident}
    {body : Ir.Expr} {s t : LowerState} {ps : List Param} {stmts : List Stmt} {isMethod : Bool}
    {outer : List ScopedTarget} (houter : outer.map (·.1) = ctx.targets)
    (hgenuine : CallsAreGenuine isMethod name params outer body)
    (h : (rules n).function ctx name params body s = (.ok (ps, stmts), t)) :
    EachJump (genuineJumps isMethod name params outer body) (flows stmts) := by
  rcases function_spec h with ⟨-, hobeys, -⟩ | ⟨loop, inner, hloop, rfl, -⟩
  · intro B hB pre label post he
    exact absurd (hobeys.jump_of_mem hB he).2.2 Jumps.not_after_noJumps
  · obtain ⟨label, u, v, rfl, -, hallocate, hinner, -⟩ := hloop
    have hof := IsLoopOf.of_allocate hallocate
    have hobeys : Obeys _ (jumpsOf loop outer [] body) (flows (copies loop ++ inner)) :=
      copies_append_obey loop (rules_jump n hinner rfl houter)
    rw [loopBody_eq]
    refine .loop fun B hB pre target post he => ?_
    rw [flows_iteration] at hB
    have hexit : (if !body.type.isUnit then [] else [(.breakTo none : Flow StmtForm Expr)]) = [] ∨
        (if !body.type.isUnit then [] else [(.breakTo none : Flow StmtForm Expr)]) =
          [.breakTo none] := by
      cases body.type.isUnit
      · exact .inl rfl
      · exact .inr rfl
    obtain ⟨-, -, hafter⟩ := Body.jump ⟨_, _, rfl, hobeys, hexit⟩ hB he
    refine hafter.mono fun own target hJ => ?_
    obtain ⟨rfl, scope, callee, args, ty, loc, writes, hd, hself, hwrites, rfl⟩ := hJ
    exact ⟨loop, scope, callee, args, ty, loc, writes, hof, rfl, hd, hself,
      hgenuine loop scope _ hof hd hself, hwrites, rfl⟩

/-- A call that is no self call of the loop around is delivered like any other value. -/
theorem rules_call {n : Nat} {ctx : Context} {strategy : Strategy Expr} {callee : Ir.Expr}
    {receiver : Option Ir.Expr} {args : List Ir.Expr} {isNew : Bool} {ty : Ir.Ty}
    {loc : Option Ir.Location}
    (h : ∀ loop, ctx.tailCall = some loop → strategy.isTail = true →
      ¬ loop.IsSelfCall (.call callee receiver args isNew ty loc)) :
    (rules (n + 1)).stmts ctx strategy (.call callee receiver args isNew ty loc) =
      deliver strategy <$>
        (rules n).expr ctx.withoutTailCall (.call callee receiver args isNew ty loc) := by
  have hnone : ctx.selfTailCall? strategy callee receiver args isNew = none := by
    refine Option.filter_eq_none_iff.2 fun loop hloop hrec => ?_
    have htail : strategy.isTail = true := by
      simp only [TailCall.recognizes, Bool.and_eq_true] at hrec
      exact hrec.1.1.1.1
    exact h loop hloop htail ((TailCall.recognizes_iff htail ty loc).1 hrec)
  simp only [rules, Parts.stmtsRule, hnone]
  rfl

/-- The code of an identifier that is called without a receiver is a call of that name. -/
theorem rules_callIdent (n : Nat) (ctx : Context) {id : Ir.Ident} (hid : id.isThis = false)
    (args : List Ir.Expr) (ty : Ir.Ty) (loc : Option Ir.Location) :
    (rules (n + 2)).expr ctx (.call (.ident id) none args false ty loc) =
      (fun args => (Expr.call ((Expr.ident id.name).withLoc id.loc) args).withLoc loc) <$>
        (rules (n + 1)).exprs ctx (discardUnitArg args) := by
  have hcallee : (rules (n + 1)).expr ctx (.ident id) =
      pure ((Expr.ident id.name).withLoc id.loc) := by
    simp [rules, Parts.exprRule, Parts.expansion?, Parts.isInvoked, Parts.exprCore, hid,
      Ir.Expr.location]
  have hplain : expandInline ctx.file (.ident id) args = pure none := rfl
  have hcall : (rules (n + 2)).expr ctx (.call (.ident id) none args false ty loc) =
      (Expr.withLoc · loc) <$> (rules (n + 1)).call ctx (.ident id) none args false := by
    show (rules (n + 1)).exprRule ctx (.call (.ident id) none args false ty loc) = _
    rw [Parts.exprRule, Parts.expansion?, hplain, pure_bind]
    simp [Parts.isInvoked, Parts.exprCore, Ir.Expr.location]
  rw [hcall, Parts.call, hcallee]
  simp [Expr.call]

end JavaScript

/-- Where each tail call that is spelled like the function means the function, only self calls of
the function become jumps, and a method has none. Any other call of an identifier is a call of that
name. -/
theorem genuineSelfCalls_jump {n : Nat} {ctx : Context} {name : Option String}
    {params : List Ir.Ident} {body : Ir.Expr} {s t : LowerState} {ps : List JavaScript.Param}
    {stmts : List JavaScript.Stmt} {isMethod : Bool} {outer : List ScopedTarget}
    (houter : outer.map (·.1) = ctx.targets)
    (hgenuine : JavaScript.CallsAreGenuine isMethod name params outer body)
    (h : (JavaScript.rules n).function ctx name params body s = (.ok (ps, stmts), t)) :
    JavaScript.EachJump (JavaScript.genuineJumps isMethod name params outer body)
      (JavaScript.flows stmts) ∧
    (isMethod = true → NeverContinues (JavaScript.flows stmts)) ∧
    ∀ (m : Nat) (ctx : Context) (strategy : Strategy JavaScript.Expr) (id : Ir.Ident)
      (args : List Ir.Expr) (ty : Ir.Ty) (loc : Option Ir.Location), id.isThis = false →
      (∀ loop, ctx.tailCall = some loop → strategy.isTail = true →
        ¬ loop.IsSelfCall (.call (.ident id) none args false ty loc)) →
      (JavaScript.rules (m + 3)).stmts ctx strategy (.call (.ident id) none args false ty loc) =
        (fun args => JavaScript.deliver strategy
          ((JavaScript.Expr.call ((JavaScript.Expr.ident id.name).withLoc id.loc) args).withLoc
            loc)) <$>
          (JavaScript.rules (m + 1)).exprs ctx.withoutTailCall (discardUnitArg args) := by
  have hjumps := JavaScript.function_jumps houter hgenuine h
  refine ⟨hjumps, fun hmethod B hB label hmem => ?_,
    fun m ctx strategy id args ty loc hid hno => ?_⟩
  · obtain ⟨pre, post, he⟩ := List.append_of_mem hmem
    obtain ⟨-, -, -, loop, scope, callee, args, ty, loc, writes, -, -, -, -, hdenotes, -⟩ :=
      hjumps B hB pre label post he
    exact Bool.false_ne_true (hdenotes.1.symm.trans hmethod)
  · rw [JavaScript.rules_call hno, JavaScript.rules_callIdent m _ hid, Functor.map_map]

/-! ## A function that calls itself -/

/-- The body of `f a b = let g = b in if a then f g b else g`. -/
def retryBody : Ir.Expr :=
  .letIn (flag "g") (.ident (flag "b"))
    (.ifThenElse (.ident (flag "a"))
      (.call (.ident (flag "f")) none [.ident (flag "g"), .ident (flag "b")] false .boolean none)
      (.ident (flag "g")) none)

/-- The call in the body calls the function itself. -/
theorem retryBody_isGenuine :
    JavaScript.CallsAreGenuine false (some "f") [flag "a", flag "b"] [] retryBody := by
  rintro loop scope d hof hd hself
  have hname : "f" = loop.label := Option.some.inj hof.name
  cases hd with
  | here => exact hself.elim
  | letBody hd =>
    cases hd with
    | here => exact hself.elim
    | thenBranch hd =>
      cases hd with
      | here => exact ⟨rfl, hname ▸ rfl⟩
    | elseBranch hd =>
      cases hd with
      | here => exact hself.elim

/-- The function is lowered, and its jump is a call of itself. -/
theorem retry_isGenuine : ∃ ps stmts t,
    (JavaScript.rules 8).function (.ofFile bareFile) (some "f") [flag "a", flag "b"] retryBody
      swapState = (.ok (ps, stmts), t) ∧
    JavaScript.CallsAreGenuine false (some "f") [flag "a", flag "b"] [] retryBody ∧
    (∃ B ∈ blocks false (JavaScript.flows stmts), .continueTo (some "f") ∈ B.flows) ∧
    JavaScript.EachJump
      (JavaScript.genuineJumps false (some "f") [flag "a", flag "b"] [] retryBody)
      (JavaScript.flows stmts) := by
  obtain ⟨ps, stmts, t, h, hjump⟩ : ∃ ps stmts t, (JavaScript.rules 8).function (.ofFile bareFile)
      (some "f") [flag "a", flag "b"] retryBody swapState = (.ok (ps, stmts), t) ∧
      ∃ B ∈ blocks false (JavaScript.flows stmts), .continueTo (some "f") ∈ B.flows :=
    ⟨_, _, _, rfl, _, .tail _ (.tail _ (.tail _ (.head _))), .tail _ (.head _)⟩
  exact ⟨ps, stmts, t, h, retryBody_isGenuine, hjump,
    (genuineSelfCalls_jump rfl retryBody_isGenuine h).1⟩

/-! ## A call of something else -/

/-- The body of `f x = let f = g in f x`. -/
def shadowingBody : Ir.Expr :=
  .letIn (flag "f") (.ident (flag "g"))
    (.call (.ident (flag "f")) none [.ident (flag "x")] false .boolean none)

/-- The body of a method `f x = f x`, which calls a function of the file. -/
def namesakeBody : Ir.Expr :=
  .call (.ident (flag "f")) none [.ident (flag "x")] false .boolean none

/-- The callee of the tail call is bound by a let, and the call becomes a jump. In the method, the
callee is free and denotes no method, and the call becomes a jump, too. -/
theorem shadowedCallee_jumps :
    shadowingBody.OccursAt [1, 0] (flag "f") (some 0) ∧
    (∃ ps stmts t, (JavaScript.rules 8).function (.ofFile bareFile) (some "f") [flag "x"]
        shadowingBody (.start .empty ["f", "g", "x"] []) = (.ok (ps, stmts), t) ∧
      ∃ B ∈ blocks false (JavaScript.flows stmts), .continueTo (some "f") ∈ B.flows) ∧
    namesakeBody.OccursAt [0] (flag "f") none ∧
    ∃ ps stmts t, JavaScript.lowerMethods (.ofFile bareFile)
        [⟨"f", [flag "x"], namesakeBody, false, true, false, [], none⟩]
        (.start .empty ["f", "x"] []) =
          (.ok [⟨"f", .method, false, .method ps stmts⟩], t) ∧
      ∃ B ∈ blocks false (JavaScript.flows stmts), .continueTo (some "f") ∈ B.flows := by
  refine ⟨⟨[.of [flag "f"], .empty], rfl, rfl⟩,
    ⟨_, _, _, rfl, _, .tail _ (.tail _ (.head _)), ?_⟩, ⟨[.empty], rfl, rfl⟩,
    ⟨_, _, _, rfl, _, .tail _ (.tail _ (.head _)), ?_⟩⟩
  · exact .tail _ (.tail _ (.head _))
  · exact .tail _ (.head _)

end TypedLowering
