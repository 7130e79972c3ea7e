import TypedLowering.Proofs.Control.Delivery
import TypedLowering.Proofs.Dart.Control
import TypedLowering.Proofs.Ir.TailPosition

/-!
# The delivery of values in lowered Dart

Statements lowered to store a value in a place do so at the end of each branch (`rules_deliver`).
Where the value of a branch is an expression that needs statements, these run before the last
statement of the branch.
-/

namespace TypedLowering.Dart

open Control Lower

/-- The assignments to a place. -/
def AssignsTo (place : Expr) (code : Stmt) : Prop :=
  ∃ value, code = .assign place value

/-- Whether statements lowered to that depth deliver what they are to store. -/
def Delivering (n : Nat) : Prop :=
  ∀ ctx {place e s stmts t}, e.IsValued ctx.targets →
    (rules n).stmts ctx (.assign place) e s = (.ok stmts, t) →
      Delivers (AssignsTo place) (flows stmts)

section
variable {n : Nat} {ctx : Context} {place : Expr} {e : Ir.Expr} {s t : LowerState}
  {stmts : List Stmt}

theorem delivered_delivers (n : Nat)
    (h : (rules n).delivered ctx (.assign place) e s = (.ok stmts, t)) :
    Delivers (AssignsTo place) (flows stmts) := by
  simp only [Parts.delivered, bind_eq_ok, pure_eq_ok] at h
  obtain ⟨value, _, hvalue, rfl, rfl⟩ := h
  rw [flows_append]
  exact .after ((rules_obey n).expr hvalue) (.step ⟨value.value, rfl⟩)

variable (ih : Delivering n)
include ih

theorem conditionalStmts_delivers {guard thenExpr elseExpr : Ir.Expr} {loc : Option Ir.Location}
    (hv : (Ir.Expr.ifThenElse guard thenExpr elseExpr loc).IsValued ctx.targets)
    (h : (rules n).conditionalStmts ctx (.assign place) guard thenExpr elseExpr s =
      (.ok stmts, t)) : Delivers (AssignsTo place) (flows stmts) := by
  simp only [Parts.conditionalStmts, bind_eq_ok, pure_eq_ok] at h
  obtain ⟨test, _, htest, thenStmts, _, hthen, elseStmts, _, helse, rfl, rfl⟩ := h
  rw [flows_append]
  exact .after ((rules_obey n).expr htest)
    (.choose (ih ctx (hv.part .thenBranch) hthen) (ih ctx (hv.part .elseBranch) helse))

theorem sequence_delivers {es : List Ir.Expr} (hv : (Ir.Expr.sequence es).IsValued ctx.targets)
    (h : (rules n).sequence ctx (.assign place) es s = (.ok stmts, t)) :
    Delivers (AssignsTo place) (flows stmts) := by
  induction es generalizing s stmts with
  | nil => cases hv _ .self
  | cons d es ihs =>
    cases es with
    | nil => exact ih ctx hv.lastItem h
    | cons d' es =>
      simp only [Parts.sequence, bind_eq_ok, pure_eq_ok] at h
      obtain ⟨first, _, hfirst, rest, _, hrest, rfl, rfl⟩ := h
      rw [flows_append]
      exact .after (plain_obeys (rules_obey n) hfirst) (ihs hv.tail hrest)

theorem targetBodies_deliver {ts : List Ir.Target} {bodies : List (List Stmt)}
    (hv : ∀ target ∈ ts, target.body.IsValued ctx.targets)
    (h : (rules n).targetBodies ctx (.assign place) ts s = (.ok bodies, t)) :
    ∀ body ∈ bodies, Delivers (AssignsTo place) (flows body) := by
  induction ts generalizing s bodies with
  | nil =>
    obtain ⟨rfl, -⟩ := pure_eq_ok.1 h
    exact nofun
  | cons target ts ihs =>
    simp only [Parts.targetBodies, bind_eq_ok, pure_eq_ok] at h
    obtain ⟨body, _, hbody, rest, _, hrest, rfl, rfl⟩ := h
    obtain ⟨hv, hvs⟩ := List.forall_mem_cons.1 hv
    exact List.forall_mem_cons.2 ⟨ih ctx hv hbody, ihs hvs hrest⟩

omit ih in
/-- The switch over the bodies; the last one is the default case. -/
theorem dispatch_delivers {D : Stmt → Prop} {join : String} {bodies : List (List Stmt)}
    (h : ∀ body ∈ bodies, Delivers D (flows body)) (hne : bodies ≠ []) :
    Delivers D [(Parts.dispatch join bodies).flow] := by
  refine .switch (fun c hc => ?_) ?_
  · rw [List.mem_append, caseFlows_eq_map, List.mem_map] at hc
    rcases hc with ⟨c, hc, rfl⟩ | hc
    · obtain ⟨⟨body, i⟩, hbody, rfl⟩ := List.mem_map.1 hc
      have hmem := List.dropLast_subset _ (List.fst_mem_of_mem_zipIdx hbody)
      exact ⟨flows body, rfl, h body hmem⟩
    · rw [List.getLast?_eq_some_getLast hne] at hc
      obtain rfl := List.mem_singleton.1 hc
      exact ⟨_, rfl, h _ (List.getLast_mem hne)⟩
  · rw [List.getLast?_eq_some_getLast hne]
    exact ⟨_, List.mem_append_right _ List.mem_cons_self, rfl⟩

theorem decisionTree_delivers {d : Ir.Expr} {ts : List Ir.Target}
    (hv : (Ir.Expr.decisionTree d ts).IsValued ctx.targets)
    (h : (rules n).decisionTree ctx (.assign place) d ts s = (.ok stmts, t)) :
    Delivers (AssignsTo place) (flows stmts) := by
  rw [Parts.decisionTree] at h
  split at h
  · exact ih (ctx.withTargets ts) (hv.part .dispatcher) h
  · rename_i hshared
    simp only [bind_eq_ok, pure_eq_ok] at h
    obtain ⟨join, _, -, declared, _, hdeclared, select, _, hselect, bodies, _, hbodies, rfl,
      rfl⟩ := h
    have hlen := (targetBodies_obey (e := .decisionTree d ts) (rules_obey n) (fun _ => .target)
      hbodies).2
    have hne : bodies ≠ [] := by
      rintro rfl
      obtain rfl := List.length_eq_zero_iff.1 hlen.symm
      exact hshared rfl
    have hdeliver := targetBodies_deliver ih (fun _ ht => hv.part (.target ht)) hbodies
    simp only [List.cons_append, flows_cons, flows_append, List.append_assoc]
    exact .cons (.step _) (.after (targetVariables_obey hdeclared)
      (.after (plain_obeys (rules_obey n) hselect) (dispatch_delivers hdeliver hne)))

theorem success_delivers {index : Nat} {values : List Ir.Expr} {ty : Ir.Ty}
    (hv : (Ir.Expr.success index values ty).IsValued ctx.targets)
    (h : (rules n).success ctx (.assign place) index values s = (.ok stmts, t)) :
    Delivers (AssignsTo place) (flows stmts) := by
  simp only [Parts.success, bind_eq_ok, pure_eq_ok, target, ofOption_eq_ok] at h
  obtain ⟨target, _, ⟨htarget, rfl⟩, first, _, hfirst, body, _, hbody, rfl, rfl⟩ := h
  rw [flows_append]
  exact .after (bindings_obeys (rules_obey n) hfirst) (ih ctx (hv.part (.selected htarget)) hbody)

theorem tryCatch_delivers {body : Ir.Expr} {hd : Option Ir.Handler} {fin : Option Ir.Expr}
    {loc : Option Ir.Location} (hv : (Ir.Expr.tryCatch body hd fin loc).IsValued ctx.targets)
    (h : (rules n).stmtsRule ctx (.assign place) (.tryCatch body hd fin loc) s = (.ok stmts, t)) :
    Delivers (AssignsTo place) (flows stmts) := by
  simp only [Parts.stmtsRule, bind_eq_ok, pure_eq_ok] at h
  obtain ⟨block, _, hblock, clause, _, hclause, fin, _, hfin, rfl, rfl⟩ := h
  refine .protect (ih ctx.withoutTailCall (hv.part .tryBody) hblock) ?_
    fun zs hzs => (finalizer_obeys (rules_obey n) hfin zs hzs).settles
  cases hd with
  | none =>
    obtain ⟨rfl, -⟩ := pure_eq_ok.1 hclause
    rintro _ ⟨⟩
  | some hd =>
    simp only [Parts.handler, bind_eq_ok, pure_eq_ok] at hclause
    obtain ⟨_, _, -, body, _, hbody, rfl, rfl⟩ := hclause
    rintro _ ⟨⟩
    exact ih ctx.withoutTailCall (hv.part .handlerBody) hbody

theorem stmtsRule_delivers (hv : e.IsValued ctx.targets)
    (h : (rules n).stmtsRule ctx (.assign place) e s = (.ok stmts, t)) :
    Delivers (AssignsTo place) (flows stmts) := by
  cases e with
  | cast inner ty =>
    simp only [Parts.stmtsRule, bind_eq_ok] at h
    obtain ⟨dropped, _, -, h⟩ := h
    split at h
    · exact ih ctx (hv.part .cast) h
    · exact delivered_delivers n h
  | call =>
    simp only [Parts.stmtsRule, ctx.selfTailCall?_assign] at h
    exact delivered_delivers n h
  | ifThenElse guard thenExpr elseExpr loc =>
    simp only [Parts.stmtsRule, bind_eq_ok, isStatement_eq_ok] at h
    obtain ⟨isStatement, _, ⟨-, rfl⟩, h⟩ := h
    cases isStatement with
    | true => exact conditionalStmts_delivers ih hv h
    | false => exact delivered_delivers n h
  | decisionTree => exact decisionTree_delivers ih hv h
  | success => exact success_delivers ih hv h
  | letIn id value body =>
    simp only [Parts.stmtsRule, bind_eq_ok, pure_eq_ok] at h
    obtain ⟨first, _, hfirst, rest, _, hrest, rfl, rfl⟩ := h
    rw [flows_append]
    exact .after (declare_obeys (rules_obey n) hfirst) (ih ctx (hv.part .letBody) hrest)
  | letRec bindings body =>
    simp only [Parts.stmtsRule, bind_eq_ok, pure_eq_ok] at h
    obtain ⟨first, _, hfirst, rest, _, hrest, rfl, rfl⟩ := h
    rw [flows_append]
    exact .after (recursive_obeys (rules_obey n) hfirst) (ih ctx (hv.part .letRecBody) hrest)
  | sequence => exact sequence_delivers ih hv h
  | tryCatch => exact tryCatch_delivers ih hv h
  | throw error =>
    cases error with
    | some error =>
      simp only [Parts.stmtsRule, bind_eq_ok, pure_eq_ok] at h
      obtain ⟨value, _, hvalue, rfl, rfl⟩ := h
      rw [flows_append]
      exact .after ((rules_obey n).expr hvalue) (.raises _)
    | none =>
      obtain ⟨rfl, -⟩ := pure_eq_ok.1 h
      exact .raises _
  | set | setIndex | whileLoop | forLoop | debugger => cases hv _ .self
  | emit template args isStatement =>
    cases isStatement with
    | true => cases hv _ .self
    | false => exact delivered_delivers n h
  | literal | option | aggregate | ident | imported | lambda | delegate | object | apply | unary
  | binary | logical | get | getIndex | test | curry => exact delivered_delivers n h

end

/-- Statements deliver the value that they are to store. -/
theorem rules_deliver (n : Nat) : Delivering n := by
  induction n with
  | zero => exact fun _ _ _ _ _ _ _ h => absurd h fail_ne_ok
  | succ n ih => exact fun _ _ _ _ _ _ => stmtsRule_delivers ih

end TypedLowering.Dart
