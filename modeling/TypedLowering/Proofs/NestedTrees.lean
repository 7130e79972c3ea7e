import TypedLowering.Proofs.Dart.Ownership
import TypedLowering.Proofs.Dart.Selection
import TypedLowering.Proofs.JavaScript.Ownership
import TypedLowering.Proofs.JavaScript.Selection
import TypedLowering.Proofs.TailCalls

/-!
# Nested trees own their success nodes

A success node selects a target of the innermost tree in whose dispatcher it stands, in the
classification and in both back ends: a tree is lowered in the same way wherever it stands, and the
body of a target is lowered as if it stood outside the tree (`successNodes_selectOwnTargets`). The
join variable of a tree with shared targets only gets indices of the success nodes of the tree, if
its dispatcher ends in these. Where it ends in a nested tree instead, the success nodes of the
nested tree write to the variable (`nestedEnd_fails`). -/

namespace TypedLowering

open Ir (Expr Target)

/-- Whether a node is lowered to the same with both lists of targets around. -/
structure LoweredAlike (n : Nat) (ctx : Context) (ts ts' : List Target) (e : Expr) : Prop where
  classified : ∀ prefer,
    isStatement (ctx.withTargets ts) prefer e = isStatement (ctx.withTargets ts') prefer e
  javaScript_expr :
    (JavaScript.rules n).expr (ctx.withTargets ts) e =
      (JavaScript.rules n).expr (ctx.withTargets ts') e
  javaScript_stmts : ∀ strategy,
    (JavaScript.rules n).stmts (ctx.withTargets ts) strategy e =
      (JavaScript.rules n).stmts (ctx.withTargets ts') strategy e
  dart_expr : ∀ hoists,
    (Dart.rules n).expr (ctx.withTargets ts) hoists e =
      (Dart.rules n).expr (ctx.withTargets ts') hoists e
  dart_stmts : ∀ strategy,
    (Dart.rules n).stmts (ctx.withTargets ts) strategy e =
      (Dart.rules n).stmts (ctx.withTargets ts') strategy e

/-- Whether a success node of a tree with these targets comes to the body of a target, as that would
be lowered outside the tree. -/
structure ComesTo (n : Nat) (ctx : Context) (ts : List Target) (index : Nat) (t : Target) :
    Prop where
  classified : ∀ prefer values ty,
    isStatement (ctx.withTargets ts) prefer (.success index values ty) =
      if values.isEmpty then isStatement ctx false t.body else .ok true
  javaScript_expr : isStatement ctx false t.body = .ok false → ∀ ty,
    (JavaScript.rules (n + 1)).expr (ctx.withTargets ts) (.success index [] ty) =
      (JavaScript.rules n).expr ctx t.body
  javaScript_stmts : ∀ strategy, strategy.joinVariable? = none → ∀ values ty,
    (JavaScript.rules (n + 1)).stmts (ctx.withTargets ts) strategy (.success index values ty) = do
      let binds ← (JavaScript.rules n).bindings (ctx.withTargets ts) t.bound values
      return binds ++ (← (JavaScript.rules n).stmts ctx strategy t.body)
  dart_expr : isStatement ctx false t.body = .ok false → ∀ hoists ty,
    (Dart.rules (n + 1)).expr (ctx.withTargets ts) hoists (.success index [] ty) =
      (Dart.rules n).expr ctx hoists t.body
  dart_stmts : ∀ strategy, strategy.joinVariable? = none → ∀ values ty,
    (Dart.rules (n + 1)).stmts (ctx.withTargets ts) strategy (.success index values ty) = do
      let binds ← (Dart.rules n).bindings (ctx.withTargets ts) t.bound values
      return binds ++ (← (Dart.rules n).stmts ctx strategy t.body)

/-- For nodes whose success nodes only choose from targets that come first in both lists, for
targets whose bodies have no success nodes of trees around, and for dispatchers that end in success
nodes of their own. -/
theorem successNodes_selectOwnTargets (n : Nat) (ctx : Context)
    (hinlines : ctx.file.HasClosedInlines) :
    (∀ ts ts' e, Indistinct ts ts' e → LoweredAlike n ctx ts ts' e) ∧
    (∀ ts index t, ts[index]? = some t → t.body.Scoped 0 → ComesTo n ctx ts index t) ∧
    ∀ inTemplate d ts s t, d.EndsInSuccess → d.sharedTargets ts.length ≠ [] →
      InUse inTemplate ctx [] (.decisionTree d ts) s →
      (∀ strategy stmts, (∀ x, ¬ s.names.IsTaken x → x ∉ builtins → strategy.AllUses
          (Use.Avoids inTemplate x) (JavaScript.Expr.AllUses (Use.Avoids inTemplate x))) →
        (JavaScript.rules (n + 1)).stmts ctx strategy (.decisionTree d ts) s = (.ok stmts, t) →
        ∃ join dispatch bodies, ¬ s.names.IsTaken join ∧
          JavaScript.Joined n ctx strategy ts stmts join dispatch bodies ∧
          JavaScript.StoresOnly (Use.Avoids inTemplate join) join
            (fun i => i ∈ d.selected ∧ i < ts.length) stmts) ∧
      ∀ strategy stmts, (∀ x, ¬ s.names.IsTaken x → x ∉ builtins → strategy.AllUses
          (Use.Avoids inTemplate x) (Dart.Expr.AllUses (Use.Avoids inTemplate x))) →
        (Dart.rules (n + 1)).stmts ctx strategy (.decisionTree d ts) s = (.ok stmts, t) →
        ∃ join dispatch bodies, ¬ s.names.IsTaken join ∧
          Dart.Joined n ctx strategy ts stmts join dispatch bodies ∧
          Dart.StoresOnly (Use.Avoids inTemplate join) join
            (fun i => i ∈ d.selected ∧ i < ts.length) stmts := by
  refine ⟨fun ts ts' e h => ?_, fun ts index t ht hbody => ?_,
    fun inTemplate d ts s t hends hshared hinUse => ⟨fun strategy stmts hstrategy h => ?_,
      fun strategy stmts hstrategy h => ?_⟩⟩
  · exact ⟨h.isStatement ctx, (JavaScript.rules_ignoreTargets n).expr ctx hinlines h,
      (JavaScript.rules_ignoreTargets n).stmts ctx hinlines h,
      (Dart.rules_ignoreTargets n).expr ctx hinlines h,
      (Dart.rules_ignoreTargets n).stmts ctx hinlines h⟩
  · exact ⟨Indistinct.isStatement_success ht hbody,
      JavaScript.expr_success hinlines ht hbody,
      fun _ => JavaScript.stmts_success hinlines ht hbody,
      Dart.expr_success hinlines ht hbody, fun _ => Dart.stmts_success hinlines ht hbody⟩
  · exact JavaScript.decisionTree_storesOnly hends hshared hinUse hstrategy h
  · exact Dart.decisionTree_storesOnly hends hshared hinUse hstrategy h

/-! ## A tree in the condition of a dispatcher -/

/-- The tree `if c then 0 else 1` with the targets `p` and `q`. -/
def conditionTree : Expr :=
  .decisionTree (.ifThenElse (.ident (flag "c")) (.success 0 [] .boolean) (.success 1 [] .boolean)
    none) [⟨[], .ident (flag "p")⟩, ⟨[], .ident (flag "q")⟩]

/-- A dispatcher that selects its first target twice. -/
def conditionDispatcher : Expr :=
  .ifThenElse conditionTree (.success 0 [] .boolean)
    (.ifThenElse (.ident (flag "b")) (.success 0 [] .boolean) (.success 1 [] .boolean) none) none

/-- The targets of the dispatcher. -/
def conditionTargets : List Target := [⟨[], .ident (flag "a")⟩, ⟨[], .ident (flag "b")⟩]

/-- The state in which the names of the trees are in use. -/
def conditionState : LowerState := .start .empty ["a", "b", "c", "p", "q"] []

theorem conditionTree_scoped : conditionTree.Scoped 0 := by
  have htest : (Expr.ifThenElse (.ident (flag "c")) (.success 0 [] .boolean)
      (.success 1 [] .boolean) none).Scoped 2 := by
    refine .node (by rintro _ _ _ ⟨⟩) (List.forall_mem_cons.2 ⟨.ident _ _, ?_⟩)
    exact List.forall_mem_cons.2 ⟨.success (by decide),
      List.forall_mem_singleton.2 (.success (by decide))⟩
  refine .node (by rintro _ _ _ ⟨⟩) (List.forall_mem_cons.2 ⟨htest, ?_⟩)
  exact List.forall_mem_cons.2 ⟨.ident _ _, List.forall_mem_singleton.2 (.ident _ _)⟩

/-- The tree in the condition selects its own targets, whatever targets are around. -/
theorem condition_selectsOwnTargets :
    LoweredAlike 7 (.ofFile bareFile) conditionTargets [] conditionTree ∧
    ComesTo 7 (.ofFile bareFile) conditionTargets 0 ⟨[], .ident (flag "a")⟩ ∧
    (∃ stmts t join dispatch bodies, (JavaScript.rules 8).stmts (.ofFile bareFile) .ret
        (.decisionTree conditionDispatcher conditionTargets) conditionState = (.ok stmts, t) ∧
      JavaScript.Joined 7 (.ofFile bareFile) .ret conditionTargets stmts join dispatch bodies ∧
      JavaScript.StoresOnly (Use.Avoids (fun _ _ => False) join) join
        (fun i => i ∈ conditionDispatcher.selected ∧ i < 2) stmts) ∧
    ∃ stmts t join dispatch bodies, (Dart.rules 8).stmts (.ofFile bareFile) .ret
        (.decisionTree conditionDispatcher conditionTargets) conditionState = (.ok stmts, t) ∧
      Dart.Joined 7 (.ofFile bareFile) .ret conditionTargets stmts join dispatch bodies ∧
      Dart.StoresOnly (Use.Avoids (fun _ _ => False) join) join
        (fun i => i ∈ conditionDispatcher.selected ∧ i < 2) stmts := by
  obtain ⟨halike, hcomes, htree⟩ := successNodes_selectOwnTargets 7 (.ofFile bareFile) nofun
  have hends : conditionDispatcher.EndsInSuccess :=
    .ifThenElse _ _ (.success _ _ _) (.ifThenElse _ _ (.success _ _ _) (.success _ _ _))
  have hshared : conditionDispatcher.sharedTargets conditionTargets.length ≠ [] := by decide
  have hinUse : InUse (fun _ _ => False) (.ofFile bareFile) []
      (.decisionTree conditionDispatcher conditionTargets) conditionState :=
    .of_bare _ nofun (by decide)
  have htree := fun t => htree (fun _ _ => False) conditionDispatcher conditionTargets
    conditionState t hends hshared hinUse
  obtain ⟨join, dispatch, bodies, -, hjoined, hstores⟩ :=
    (htree _).1 .ret _ (fun _ _ _ => trivial) rfl
  obtain ⟨join', dispatch', bodies', -, hjoined', hstores'⟩ :=
    (htree _).2 .ret _ (fun _ _ _ => trivial) rfl
  refine ⟨halike _ _ _ (.of_closed conditionTree_scoped _ _), hcomes _ _ _ rfl (.ident _ _),
    ⟨_, _, join, dispatch, bodies, rfl, hjoined, hstores⟩,
    ⟨_, _, join', dispatch', bodies', rfl, hjoined', hstores'⟩⟩

/-! ## A tree at the end of a dispatcher -/

/-- A tree whose targets select those of the tree around, the other way round. -/
def nestedEnd : Expr :=
  .decisionTree (.ifThenElse (.ident (flag "c")) (.success 0 [] .boolean) (.success 1 [] .boolean)
    none) [⟨[], .success 1 [] .boolean⟩, ⟨[], .success 0 [] .boolean⟩]

/-- The context of the dispatcher around. -/
def nestedEndContext : Context := (Context.ofFile bareFile).withTargets conditionTargets

/-- Where the success node of the nested tree selects its first target, the body of that target
selects the second target around. The code stores the index of the first one. -/
theorem nestedEnd_fails :
    (∃ t u v, (JavaScript.rules 8).stmts nestedEndContext (.join "j") nestedEnd conditionState =
        (.ok [.of (.ifElse (.ident "c") [JavaScript.select "j" 0] [JavaScript.select "j" 1])], t) ∧
      (JavaScript.rules 8).stmts nestedEndContext (.join "j") (.success 1 [] .boolean)
        conditionState = (.ok [JavaScript.select "j" 1], u) ∧
      (JavaScript.rules 8).stmts nestedEndContext (.join "j") (.success 0 [] .boolean)
        conditionState = (.ok [JavaScript.select "j" 0], v)) ∧
    (∃ t u v, (Dart.rules 8).stmts nestedEndContext (.join "j") nestedEnd conditionState =
        (.ok [.ifElse (.ident (.own "c" .boolean)) [Dart.select "j" 0] [Dart.select "j" 1]], t) ∧
      (Dart.rules 8).stmts nestedEndContext (.join "j") (.success 1 [] .boolean)
        conditionState = (.ok [Dart.select "j" 1], u) ∧
      (Dart.rules 8).stmts nestedEndContext (.join "j") (.success 0 [] .boolean)
        conditionState = (.ok [Dart.select "j" 0], v)) ∧
    JavaScript.select "j" 0 ≠ JavaScript.select "j" 1 ∧ Dart.select "j" 0 ≠ Dart.select "j" 1 := by
  refine ⟨⟨_, _, _, rfl, rfl, rfl⟩, ⟨_, _, _, rfl, rfl, rfl⟩, ?_, ?_⟩
  · intro h
    simp only [JavaScript.select, JavaScript.Stmt.expr, JavaScript.Expr.assign,
      JavaScript.Expr.binary, JavaScript.Expr.number, JavaScript.Expr.literal, JavaScript.Expr.of,
      JavaScript.Stmt.mk.injEq, JavaScript.StmtForm.expr.injEq, JavaScript.Expr.mk.injEq,
      JavaScript.ExprForm.binary.injEq, JavaScript.ExprForm.literal.injEq,
      JavaScript.Literal.number.injEq, true_and] at h
    exact absurd (Binary64.ofNat_injOn (by decide) (by decide) h) (by decide)
  · intro h
    simp [Dart.select, Dart.Expr.integer] at h

end TypedLowering
