import TypedLowering.Proofs.Control.Delivery
import TypedLowering.Proofs.Ir.TailPosition
import TypedLowering.Proofs.JavaScript.Control

/-!
# The delivery of values in lowered JavaScript

Statements lowered to store a value in a place do so at the end of each branch (`rules_deliver`).
There is one lemma for each rule that passes its strategy on, about the rule with parts that
deliver; what stands before the last statement of a branch only has to be in order.
-/

namespace TypedLowering.JavaScript

open Control Lower

/-- The assignments to a place. -/
def AssignsTo (place : Expr) (code : StmtForm) : Prop :=
  ∃ value, code = .expr (.assign place value)

/-- Whether statements lowered to that depth deliver what they are to store. -/
def Delivering (n : Nat) : Prop :=
  ∀ ctx {place e s stmts t}, e.IsValued ctx.targets →
    (rules n).stmts ctx (.assign place) e s = (.ok stmts, t) →
      Delivers (AssignsTo place) (flows stmts)

section
variable {n : Nat} {ctx : Context} {place : Expr} {e : Ir.Expr} {s t : LowerState}
  {stmts : List Stmt}

theorem delivered_delivers (n : Nat)
    (h : (rules n).delivered ctx (.assign place) e s = (.ok stmts, t)) :
    Delivers (AssignsTo place) (flows stmts) := by
  simp only [Parts.delivered, bind_eq_ok, pure_eq_ok] at h
  obtain ⟨value, u, -, rfl, rfl⟩ := h
  exact .step ⟨value, rfl⟩

variable (ih : Delivering n)
include ih

theorem conditional_delivers {guard thenExpr elseExpr : Ir.Expr} {loc : Option Ir.Location}
    (hv : (Ir.Expr.ifThenElse guard thenExpr elseExpr loc).IsValued ctx.targets)
    (h : (rules n).conditional ctx (.assign place) guard thenExpr elseExpr loc s = (.ok stmts, t)) :
    Delivers (AssignsTo place) (flows stmts) := by
  simp only [Parts.conditional, bind_eq_ok, pure_eq_ok] at h
  obtain ⟨test, _, -, thenStmts, _, hthen, elseStmts, _, helse, rfl, rfl⟩ := h
  exact .choose (ih ctx (hv.part .thenBranch) hthen) (ih ctx (hv.part .elseBranch) helse)

theorem sequence_delivers {es : List Ir.Expr} (hv : (Ir.Expr.sequence es).IsValued ctx.targets)
    (h : (rules n).sequence ctx (.assign place) es s = (.ok stmts, t)) :
    Delivers (AssignsTo place) (flows stmts) := by
  induction es generalizing s stmts with
  | nil => cases hv _ .self
  | cons d es ihs =>
    cases es with
    | nil => exact ih ctx hv.lastItem h
    | cons d' es =>
      simp only [Parts.sequence, bind_eq_ok, pure_eq_ok] at h
      obtain ⟨first, _, hfirst, rest, _, hrest, rfl, rfl⟩ := h
      rw [flows_append]
      exact .after (plain_obeys (rules_obey n) hfirst) (ihs hv.tail hrest)

/-- The cases of the switch over the targets end with breaks. -/
theorem cases_deliver {index : Nat} {ts : List Ir.Target} {cs : List SwitchCase}
    (hv : ∀ target ∈ ts, target.body.IsValued ctx.targets)
    (h : (rules n).cases ctx (.assign place) index ts s = (.ok cs, t)) :
    ∀ c ∈ caseFlows cs, ∃ fs, c.body = fs ++ [.breakTo none] ∧ Delivers (AssignsTo place) fs := by
  induction ts generalizing index s cs with
  | nil =>
    obtain ⟨rfl, -⟩ := pure_eq_ok.1 h
    exact nofun
  | cons target ts ihs =>
    simp only [Parts.cases, bind_eq_ok, pure_eq_ok] at h
    obtain ⟨body, _, hbody, rest, _, hrest, rfl, rfl⟩ := h
    obtain ⟨hv, hvs⟩ := List.forall_mem_cons.1 hv
    exact List.forall_mem_cons.2 ⟨⟨flows body, flows_append _ _, ih ctx hv hbody⟩, ihs hvs hrest⟩

theorem decisionTree_delivers {d : Ir.Expr} {ts : List Ir.Target}
    (hv : (Ir.Expr.decisionTree d ts).IsValued ctx.targets)
    (h : (rules n).decisionTree ctx (.assign place) d ts s = (.ok stmts, t)) :
    Delivers (AssignsTo place) (flows stmts) := by
  rw [Parts.decisionTree] at h
  split at h
  · exact ih (ctx.withTargets ts) (hv.part .dispatcher) h
  · rename_i hshared
    simp only [bind_eq_ok, pure_eq_ok] at h
    obtain ⟨join, _, -, dispatch, _, hdispatch, cs, _, hcases, rfl, rfl⟩ := h
    have hdefault :=
      (cases_obey (e := .decisionTree d ts) (rules_obey n) (fun _ => .target) hcases).2
    simp only [List.cons_append, flows_cons, flows_append, List.append_assoc]
    refine .cons (.step _) (.after (targetVariables_obey ctx ts)
      (.after (plain_obeys (rules_obey n) hdispatch) (.switch ?_ (hdefault ?_))))
    · exact cases_deliver ih (fun _ ht => hv.part (.target ht)) hcases
    · rintro rfl
      exact hshared rfl

theorem success_delivers {index : Nat} {values : List Ir.Expr} {ty : Ir.Ty}
    (hv : (Ir.Expr.success index values ty).IsValued ctx.targets)
    (h : (rules n).success ctx (.assign place) index values s = (.ok stmts, t)) :
    Delivers (AssignsTo place) (flows stmts) := by
  simp only [Parts.success, bind_eq_ok, pure_eq_ok, Parts.target, ofOption_eq_ok] at h
  obtain ⟨target, _, ⟨htarget, rfl⟩, first, _, hfirst, body, _, hbody, rfl, rfl⟩ := h
  rw [flows_append]
  exact .after (bindings_obeys (rules_obey n) hfirst) (ih ctx (hv.part (.selected htarget)) hbody)

theorem tryCatch_delivers {body : Ir.Expr} {hd : Option Ir.Handler} {fin : Option Ir.Expr}
    {loc : Option Ir.Location} (hv : (Ir.Expr.tryCatch body hd fin loc).IsValued ctx.targets)
    (h : (rules n).stmtsRule ctx (.assign place) (.tryCatch body hd fin loc) s = (.ok stmts, t)) :
    Delivers (AssignsTo place) (flows stmts) := by
  simp only [Parts.stmtsRule, bind_eq_ok, pure_eq_ok] at h
  obtain ⟨block, _, hblock, clause, _, hclause, fin, _, hfin, rfl, rfl⟩ := h
  refine .protect (ih ctx.withoutTailCall (hv.part .tryBody) hblock) ?_
    fun zs hzs => (finalizer_obeys (rules_obey n) hfin zs hzs).settles
  cases hd with
  | none =>
    obtain ⟨rfl, -⟩ := pure_eq_ok.1 hclause
    rintro _ ⟨⟩
  | some hd =>
    simp only [Parts.handler, bind_eq_ok, pure_eq_ok] at hclause
    obtain ⟨body, _, hinside, rfl, rfl⟩ := hclause
    obtain ⟨u, hbody, rfl⟩ := inHandler_eq_ok.1 hinside
    rintro _ ⟨⟩
    exact ih ctx.withoutTailCall (hv.part .handlerBody) hbody

theorem stmtsRule_delivers (hv : e.IsValued ctx.targets)
    (h : (rules n).stmtsRule ctx (.assign place) e s = (.ok stmts, t)) :
    Delivers (AssignsTo place) (flows stmts) := by
  cases e with
  | cast => exact ih ctx (hv.part .cast) h
  | call callee receiver args isNew ty loc =>
    simp only [Parts.stmtsRule, ctx.selfTailCall?_assign] at h
    exact delivered_delivers n h
  | ifThenElse guard thenExpr elseExpr loc =>
    simp only [Parts.stmtsRule, bind_eq_ok, isStatement_eq_ok] at h
    obtain ⟨isStatement, u, ⟨-, rfl⟩, h⟩ := h
    cases isStatement with
    | true => exact conditional_delivers ih hv h
    | false => exact delivered_delivers n h
  | decisionTree => exact decisionTree_delivers ih hv h
  | success => exact success_delivers ih hv h
  | letIn id value body =>
    simp only [Parts.stmtsRule, bind_eq_ok, pure_eq_ok] at h
    obtain ⟨first, _, hfirst, rest, _, hrest, rfl, rfl⟩ := h
    rw [flows_append]
    exact .after (declare_obeys (rules_obey n) hfirst) (ih ctx (hv.part .letBody) hrest)
  | letRec bindings body =>
    simp only [Parts.stmtsRule, bind_eq_ok, pure_eq_ok] at h
    obtain ⟨first, _, hfirst, rest, _, hrest, rfl, rfl⟩ := h
    rw [flows_append]
    exact .after (recursive_obeys (rules_obey n) hfirst) (ih ctx (hv.part .letRecBody) hrest)
  | sequence => exact sequence_delivers ih hv h
  | tryCatch => exact tryCatch_delivers ih hv h
  | throw error =>
    cases error with
    | some =>
      simp only [Parts.stmtsRule, bind_eq_ok, pure_eq_ok] at h
      obtain ⟨_, _, -, rfl, rfl⟩ := h
      exact .raises _
    | none =>
      simp only [Parts.stmtsRule, bind_eq_ok, pure_eq_ok] at h
      obtain ⟨_, _, -, _, _, -, rfl, rfl⟩ := h
      exact .raises _
  | set | setIndex | whileLoop | forLoop | debugger => cases hv _ .self
  | emit template args isStatement =>
    cases isStatement with
    | true => cases hv _ .self
    | false => exact delivered_delivers n h
  | literal | option | aggregate | ident | imported | lambda | delegate | object | apply | unary
  | binary | logical | get | getIndex | test | curry => exact delivered_delivers n h

end

/-- Statements deliver the value that they are to store. -/
theorem rules_deliver (n : Nat) : Delivering n := by
  induction n with
  | zero => exact fun _ _ _ _ _ _ _ h => absurd h fail_ne_ok
  | succ n ih => exact fun _ _ _ _ _ _ => stmtsRule_delivers ih

end TypedLowering.JavaScript
