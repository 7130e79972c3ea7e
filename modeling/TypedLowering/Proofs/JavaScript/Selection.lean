import TypedLowering.Proofs.Control.Switch
import TypedLowering.Proofs.JavaScript.Control
import TypedLowering.Proofs.JavaScript.Uses
import TypedLowering.Proofs.Lowering.Dispatcher
import TypedLowering.Proofs.Lowering.Temporaries
import TypedLowering.Proofs.Number.Nearest

/-!
# Decision trees with shared targets

If a target is shared, the success nodes store the index of their target, and a switch goes to it.
The code of the dispatcher then is that of a dispatcher with the targets in place, but for the ends
(`selection_of_stmts`), and together with the switch it runs like the code with the targets in place
(`Selection.run_eq`).
-/

namespace TypedLowering.JavaScript

open Control Lower

/-! ## Values for identifiers -/

/-- Code that stores values for declared identifiers, and the code that declares the identifiers
with these values. A value that needs statements is stored in both. -/
inductive Stores : List Ir.Ident → List Stmt → List Stmt → Prop
  | nil : Stores [] [] []
  | value {id : Ir.Ident} {ids : List Ir.Ident} {value value' : Expr} (mode : DeclMode)
      {stores binds : List Stmt} : value'.form = value.form → Stores ids stores binds →
      Stores (id :: ids) (.of (.expr (.assign (.ident id.name) value)) :: stores)
        (.declare mode id.name (some value') :: binds)
  | stmts {id : Ir.Ident} {ids : List Ir.Ident} (stmts : List Stmt) {stores binds : List Stmt} :
      Stores ids stores binds →
      Stores (id :: ids) (stmts ++ stores) (.declare .let id.name none :: stmts ++ binds)

variable {n : Nat} {ctx : Context} {u v : LowerState}

/-- A value that needs no statements is stored by one assignment. -/
theorem assign_of_isPlain {place : Expr} {e : Ir.Expr} {stmts : List Stmt} (hplain : e.IsPlain)
    (hneeds : e.needsStatements = false)
    (h : (rules n).stmts ctx.withoutTailCall (.assign place) e u = (.ok stmts, v)) :
    ∃ value value', stmts = [.of (.expr (.assign place value))] ∧ value'.form = value.form ∧
      (rules n).expr ctx.withoutTailCall e u = (.ok value', v) := by
  induction n generalizing e stmts with
  | zero => exact absurd h fail_ne_ok
  | succ n ih =>
    have hdelivered : (rules n).delivered ctx.withoutTailCall (.assign place) e u = (.ok stmts, v) →
        ∃ value value', stmts = [.of (.expr (.assign place value))] ∧ value'.form = value.form ∧
          (rules (n + 1)).expr ctx.withoutTailCall e u = (.ok value', v) := by
      intro h
      simp only [Parts.delivered, bind_eq_ok, pure_eq_ok] at h
      obtain ⟨value, _, hvalue, rfl, rfl⟩ := h
      exact ⟨value, value, rfl, rfl, ((rules_deepens (Nat.le_succ n)).expr _ _ _ _ _ hvalue).1⟩
    cases e with
    | cast inner ty =>
      obtain ⟨value, value', rfl, hform, hvalue⟩ :=
        ih (hplain.of_child List.mem_cons_self) hneeds h
      refine ⟨value, value'.withLoc (Ir.Expr.cast inner ty).location, rfl,
        (Expr.form_withLoc _ _).trans hform, ?_⟩
      exact bind_eq_ok.2 ⟨none, u, rfl, bind_eq_ok.2 ⟨false, u, rfl,
        bind_eq_ok.2 ⟨value', v, hvalue, rfl⟩⟩⟩
    | ifThenElse guard thenExpr elseExpr loc =>
      refine hdelivered ?_
      replace h : (rules n).stmtsRule ctx.withoutTailCall (.assign place)
        (.ifThenElse guard thenExpr elseExpr loc) u = (.ok stmts, v) := h
      simp only [Parts.stmtsRule, bind_eq_ok, isStatement_eq_ok] at h
      obtain ⟨isStatement, _, ⟨his, rfl⟩, h⟩ := h
      rw [show Parts.prefersStatement ctx.withoutTailCall (.assign place) = false from rfl,
        isStatement_of_isPlain _ hplain, hneeds] at his
      obtain rfl := Except.ok.inj his
      exact h
    | decisionTree dispatcher ts =>
      exact absurd rfl ((hplain _ (Ir.Expr.self_mem_subterms _)).1 _ _)
    | success index values ty => exact absurd rfl ((hplain _ (Ir.Expr.self_mem_subterms _)).2 _ _ _)
    | emit template args isStatement =>
      cases isStatement with
      | true => cases hneeds
      | false => exact hdelivered h
    | set | setIndex | sequence | letIn | letRec | whileLoop | forLoop | tryCatch | throw
    | debugger => cases hneeds
    | _ => exact hdelivered h

/-- The code that declares the identifiers a target binds, from the state in which the code that
stores their values was lowered. -/
theorem bindings_of_assignments {ids : List Ir.Ident} {values : List Ir.Expr} {stores : List Stmt}
    (hlen : values.length = ids.length) (hplain : ∀ value ∈ values, value.IsPlain)
    (hunit : ∀ id ∈ ids, id.ty.isUnit = false)
    (h : (rules n).assignments ctx.withoutTailCall ids values u = (.ok stores, v)) :
    ∃ binds, (rules n).bindings ctx ids values u = (.ok binds, v) ∧ Stores ids stores binds := by
  induction ids generalizing values u stores with
  | nil =>
    obtain rfl := List.eq_nil_of_length_eq_zero hlen
    obtain ⟨rfl, rfl⟩ := pure_eq_ok.1 h
    exact ⟨[], rfl, .nil⟩
  | cons id ids ih =>
    cases values with
    | nil => cases hlen
    | cons value values =>
      simp only [Parts.assignments, bind_eq_ok, pure_eq_ok] at h
      obtain ⟨first, w, hfirst, rest, v, hrest, rfl, rfl⟩ := h
      obtain ⟨binds, hbinds, hstores⟩ := ih (Nat.succ.inj hlen)
        (fun value hvalue => hplain value (List.mem_cons_of_mem _ hvalue))
        (fun id hid => hunit id (List.mem_cons_of_mem _ hid)) hrest
      have hvalue : value.IsPlain := hplain value List.mem_cons_self
      have hdeclare : ∀ {declares}, (rules n).declare ctx id value u = (.ok declares, w) →
          (rules n).bindings ctx (id :: ids) (value :: values) u =
            (.ok (declares ++ binds), v) := by
        intro declares hdeclares
        simp only [Parts.bindings, bind_eq_ok, pure_eq_ok]
        exact ⟨declares, w, hdeclares, binds, v, hbinds, rfl, rfl⟩
      have hcheck : Lower.isStatement ctx.withoutTailCall false value u =
          (.ok value.needsStatements, u) := by
        rw [Lower.isStatement, isStatement_of_isPlain _ hvalue]
        rfl
      cases hneeds : value.needsStatements with
      | true =>
        refine ⟨_, hdeclare ?_, .stmts first hstores⟩
        rw [Parts.declare, hunit id List.mem_cons_self, if_neg Bool.false_ne_true]
        rw [hneeds] at hcheck
        exact bind_eq_ok.2 ⟨true, u, hcheck, bind_eq_ok.2 ⟨first, w, hfirst, rfl⟩⟩
      | false =>
        obtain ⟨x, x', rfl, hform, hx'⟩ := assign_of_isPlain hvalue hneeds hfirst
        refine ⟨[.declare (if id.isMutable then .let else .const) id.name (some x')] ++ binds,
          hdeclare ?_, .value _ hform hstores⟩
        rw [Parts.declare, hunit id List.mem_cons_self, if_neg Bool.false_ne_true]
        rw [hneeds] at hcheck
        exact bind_eq_ok.2 ⟨false, u, hcheck, bind_eq_ok.2 ⟨x', w, hx', rfl⟩⟩

/-! ## Dispatchers -/

/-- The statement that stores which target is selected. -/
def select (join : String) (index : Nat) : Stmt :=
  .expr (.assign (.ident join) (.number index))

/-- The code of a dispatcher that stores values and the index of the target at each of its ends, the
code that also runs the target there, and the code that declares the identifiers of the target with
the values, as a success node does whose target is not shared. -/
inductive Selection (n : Nat) (ctx : Context) (join : String) (bodies : List (List Stmt)) :
    Ir.Expr → List Stmt → List Stmt → List Stmt → Prop
  | success {index : Nat} {values : List Ir.Expr} {ty : Ir.Ty} {t : Ir.Target}
      {body stores binds : List Stmt} {u v : LowerState} :
      ctx.targets[index]? = some t → bodies[index]? = some body →
      (rules n).assignments ctx.withoutTailCall t.bound values u = (.ok stores, v) →
      (rules n).bindings ctx t.bound values u = (.ok binds, v) → Stores t.bound stores binds →
      Selection n ctx join bodies (.success index values ty) (stores ++ [select join index])
        (stores ++ select join index :: body) (binds ++ select join index :: body)
  | ifThenElse {guard thenExpr elseExpr : Ir.Expr} {loc : Option Ir.Location} {test : Expr}
      {ss ss' ps ps' is is' : List Stmt} {u v : LowerState} :
      (rules n).expr ctx.withoutTailCall guard u = (.ok test, v) →
      Selection n ctx join bodies thenExpr ss ps is →
      Selection n ctx join bodies elseExpr ss' ps' is' →
      Selection n ctx join bodies (.ifThenElse guard thenExpr elseExpr loc)
        [⟨loc, .ifElse test ss ss'⟩] [⟨loc, .ifElse test ps ps'⟩] [⟨loc, .ifElse test is is'⟩]
  | letIn {id : Ir.Ident} {value body : Ir.Expr} {declares ss ps is : List Stmt}
    {u v : LowerState} :
      (rules n).declare ctx id value u = (.ok declares, v) →
      Selection n ctx join bodies body ss ps is →
      Selection n ctx join bodies (.letIn id value body) (declares ++ ss) (declares ++ ps)
        (declares ++ is)
  | cast {inner : Ir.Expr} {ty : Ir.Ty} {ss ps is : List Stmt} :
      Selection n ctx join bodies inner ss ps is →
      Selection n ctx join bodies (.cast inner ty) ss ps is

/-- The code for a dispatcher is a selection among its targets, with the index stored at each
end. -/
theorem selection_of_stmts {join : String} {bodies : List (List Stmt)} {e : Ir.Expr}
    {stmts : List Stmt} (he : e.IsDispatcher ctx.targets)
    (hunit : ∀ t ∈ ctx.targets, ∀ id ∈ t.bound, id.ty.isUnit = false)
    (hbodies : bodies.length = ctx.targets.length) {m : Nat} (hm : m ≤ n)
    (h : (rules m).stmts ctx.withoutTailCall (.join join) e u = (.ok stmts, v)) :
    ∃ ps is, Selection n ctx join bodies e stmts ps is := by
  have hdeep : ∀ {m}, m ≤ n → (rules m).Deepens (rules n) := rules_deepens
  induction he generalizing m u v stmts with
  | @success index values ty t ht hlen hplain =>
    cases m with
    | zero => exact absurd h fail_ne_ok
    | succ m =>
      replace h : (rules m).success ctx.withoutTailCall (.join join) index values u =
        (.ok stmts, v) := h
      simp only [Parts.success, Parts.target, bind_eq_ok, pure_eq_ok, ofOption_eq_ok] at h
      obtain ⟨t', _, ⟨ht', rfl⟩, stores, v, hstores, rfl, rfl⟩ := h
      obtain rfl := Option.some.inj (ht.symm.trans ht')
      have hindex := (List.getElem?_eq_some_iff.1 ht).1
      have hstores := ((hdeep (Nat.le_of_succ_le hm)).assignments _ _ _ _ _ _ hstores).1
      obtain ⟨binds, hbinds, hstored⟩ := bindings_of_assignments hlen hplain
        (hunit t (List.mem_of_getElem? ht)) hstores
      exact ⟨_, _, .success ht (List.getElem?_eq_getElem (hbodies ▸ hindex)) hstores hbinds hstored⟩
  | @ifThenElse guard thenExpr elseExpr loc hguard hthen helse ihthen ihelse =>
    cases m with
    | zero => exact absurd h fail_ne_ok
    | succ m =>
      have hm' := Nat.le_of_succ_le hm
      replace h : (rules m).stmtsRule ctx.withoutTailCall (.join join)
        (.ifThenElse guard thenExpr elseExpr loc) u = (.ok stmts, v) := h
      simp only [Parts.stmtsRule, bind_eq_ok, isStatement_eq_ok] at h
      obtain ⟨isStatement, _, ⟨his, rfl⟩, h⟩ := h
      rw [show Parts.prefersStatement ctx.withoutTailCall (.join join) = true from rfl,
        isStatement_of_prefers] at his
      obtain rfl := Except.ok.inj his
      simp only [if_true, Parts.conditional, bind_eq_ok, pure_eq_ok] at h
      obtain ⟨test, _, htest, _, _, hthen, _, _, helse, rfl, -⟩ := h
      obtain ⟨ps, is, hthen⟩ := ihthen hm' hthen
      obtain ⟨ps', is', helse⟩ := ihelse hm' helse
      exact ⟨_, _, .ifThenElse ((hdeep hm').expr _ _ _ _ _ htest).1 hthen helse⟩
  | @letIn id value body hvalue hbody ih =>
    cases m with
    | zero => exact absurd h fail_ne_ok
    | succ m =>
      have hm' := Nat.le_of_succ_le hm
      replace h : (rules m).stmtsRule ctx.withoutTailCall (.join join) (.letIn id value body) u =
        (.ok stmts, v) := h
      simp only [Parts.stmtsRule, bind_eq_ok, pure_eq_ok] at h
      obtain ⟨declares, _, hdeclares, _, _, hbody, rfl, -⟩ := h
      obtain ⟨ps, is, hbody⟩ := ih hm' hbody
      exact ⟨_, _, .letIn ((hdeep hm').declare _ _ _ _ _ _ hdeclares).1 hbody⟩
  | @cast inner ty hinner ih =>
    cases m with
    | zero => exact absurd h fail_ne_ok
    | succ m =>
      obtain ⟨ps, is, hinner⟩ := ih (Nat.le_of_succ_le hm) h
      exact ⟨ps, is, .cast hinner⟩

/-- The bodies of targets, each lowered with the strategy. -/
def AreBodies (n : Nat) (ctx : Context) (strategy : Strategy Expr) (targets : List Ir.Target)
    (bodies : List (List Stmt)) : Prop :=
  List.Forall₂ (fun t body => ∃ u v, (rules n).stmts ctx strategy t.body u = (.ok body, v))
    targets bodies

/-- The bodies of targets obey the strategy. -/
theorem AreBodies.obey {strategy : Strategy Expr} {targets : List Ir.Target}
    {bodies : List (List Stmt)} (h : AreBodies n ctx strategy targets bodies) :
    ∀ body ∈ bodies, ∃ J, Obeys strategy.returns J (flows body) := by
  induction h with
  | nil => nofun
  | cons hbody _ ih =>
    obtain ⟨_, _, hbody⟩ := hbody
    rintro body (_ | ⟨_, hmem⟩)
    · exact ⟨_, rules_obey n hbody⟩
    · exact ih body hmem

/-- What follows the body of a case: nothing if the body returns, else a break. -/
def caseExit : Strategy Expr → List Stmt
  | .ret => []
  | .effect | .assign _ | .join _ => [.of (.breakTo none)]

/-- The cases of the switch over the targets; the last one is the default. -/
def switchCases (strategy : Strategy Expr) (bodies : List (List Stmt)) : List SwitchCase :=
  bodies.zipIdx.map fun (body, i) =>
    ⟨if i + 1 < bodies.length then some (.number i) else none, body ++ caseExit strategy⟩

/-- The cases for targets whose first one has the index `k`. -/
theorem casesFrom_spec {strategy : Strategy Expr} {k : Nat} {targets : List Ir.Target}
    {cases : List SwitchCase} (h : (rules n).cases ctx strategy k targets u = (.ok cases, v)) :
    ∃ bodies, AreBodies n ctx strategy targets bodies ∧
      cases = (bodies.zipIdx k).map fun (body, i) =>
        ⟨if i + 1 < k + bodies.length then some (.number i) else none,
          body ++ caseExit strategy⟩ := by
  induction targets generalizing k u v cases with
  | nil =>
    obtain ⟨rfl, -⟩ := pure_eq_ok.1 h
    exact ⟨[], .nil, rfl⟩
  | cons t ts ih =>
    simp only [Parts.cases, bind_eq_ok, pure_eq_ok] at h
    obtain ⟨body, w, hbody, rest, _, hrest, rfl, -⟩ := h
    obtain ⟨bodies, hbodies, rfl⟩ := ih hrest
    refine ⟨body :: bodies, .cons ⟨_, _, hbody⟩ hbodies, ?_⟩
    have hlast : ts.isEmpty = bodies.isEmpty := by
      cases hbodies <;> rfl
    rw [List.zipIdx_cons, List.map_cons, List.length_cons, hlast]
    refine congrArg₂ List.cons ?_ ?_
    · cases strategy <;> cases bodies <;> simp [caseExit]
    · simp only [Nat.add_assoc, Nat.add_comm 1]

/-- The cases of targets are those of a switch over their bodies. -/
theorem cases_spec {strategy : Strategy Expr} {targets : List Ir.Target} {cases : List SwitchCase}
    (h : (rules n).cases ctx strategy 0 targets u = (.ok cases, v)) :
    ∃ bodies, AreBodies n ctx strategy targets bodies ∧ cases = switchCases strategy bodies := by
  obtain ⟨bodies, hbodies, rfl⟩ := casesFrom_spec h
  exact ⟨bodies, hbodies, by simp only [switchCases, Nat.zero_add]⟩

/-- The tests of the cases are the numbers of the targets, and the last one is the default. -/
theorem tests_switchCases (strategy : Strategy Expr) (bodies : List (List Stmt)) :
    (caseFlows (switchCases strategy bodies)).map (·.tests) =
      (caseNumbers bodies.length).map (·.map fun k => [.number k]) := by
  refine List.ext_getElem (by simp [switchCases, caseNumbers, caseFlows_eq_map]) fun i _ _ => ?_
  simp only [switchCases, caseNumbers, caseFlows_eq_map, List.getElem_map, List.getElem_zipIdx,
    List.getElem_range, Nat.zero_add]
  split <;> rfl

/-! ## Declarations -/

/-- A declaration without a value does nothing, and one with a value stores it. -/
structure DeclaresByStoring (M : Machine StmtForm Expr) : Prop where
  declared : ∀ {name a ok b},
    M.step (.declare ⟨.let, [⟨name, none⟩]⟩) a ok b ↔ ok = true ∧ b = a
  bound : ∀ {mode name} {value value' : Expr} {a ok b}, value'.form = value.form →
    (M.step (.declare ⟨mode, [⟨name, some value'⟩]⟩) a ok b ↔
      M.step (.expr (.assign (.ident name) value)) a ok b)

section
variable {M : Machine StmtForm Expr} (hM : DeclaresByStoring M)
include hM

/-- A declaration without a value does nothing. -/
theorem DeclaresByStoring.run_declared (name : String) :
    (Stmt.declare .let name none).flow.run M [] = .exit .normal := by
  funext a x b
  refine propext ⟨?_, fun ⟨hx, hb⟩ => .inl ⟨hM.declared.2 ⟨rfl, hb⟩, hx⟩⟩
  rintro (⟨hstep, rfl⟩ | ⟨hstep, -⟩)
  · exact ⟨rfl, (hM.declared.1 hstep).2⟩
  · cases (hM.declared.1 hstep).1

/-- A declaration with a value is an assignment of the value. -/
theorem DeclaresByStoring.run_bound {mode : DeclMode} {name : String} {value value' : Expr}
    (h : value'.form = value.form) : (Stmt.declare mode name (some value')).flow.run M [] =
      (Stmt.of (.expr (.assign (.ident name) value))).flow.run M [] := by
  funext a x b
  exact propext (or_congr (and_congr_left fun _ => hM.bound h) (and_congr_left fun _ => hM.bound h))

/-- Declarations without values do nothing. -/
theorem DeclaresByStoring.runAll_declarations (ids : List Ir.Ident) :
    runAll M (flows (ids.map fun id => .declare .let id.name none)) = .exit .normal := by
  induction ids with
  | nil => rfl
  | cons id ids ih =>
    rw [List.map_cons, flows_cons, runAll_cons, hM.run_declared, ih, Runs.exit_normal_seq]

/-- Declarations of what targets bind do nothing. -/
theorem DeclaresByStoring.runAll_targetVariables (ctx : Context) (targets : List Ir.Target) :
    runAll M (flows (Parts.targetVariables ctx targets)) = .exit .normal := by
  rw [Parts.targetVariables]
  induction targets.filter (!ctx.hoists ·.bound) with
  | nil => rfl
  | cons t ts ih =>
    rw [List.flatMap_cons, flows_append, runAll_append, ih, hM.runAll_declarations,
      Runs.exit_normal_seq]

/-- Storing values in declared identifiers runs like declaring the identifiers with them. -/
theorem Stores.run_eq {ids : List Ir.Ident} {stores binds : List Stmt}
    (h : Stores ids stores binds) : runAll M (flows stores) = runAll M (flows binds) := by
  induction h with
  | nil => rfl
  | value mode hform _ ih =>
    rw [flows_cons, flows_cons, runAll_cons, runAll_cons, ih, hM.run_bound hform]
  | stmts stmts _ ih =>
    rw [List.cons_append, flows_cons, runAll_cons, hM.run_declared, Runs.exit_normal_seq,
      flows_append, flows_append, runAll_append, runAll_append, ih]

/-- So the dispatcher that stores values runs like the one that declares identifiers. -/
theorem Selection.run_binds {join : String} {bodies : List (List Stmt)} {e : Ir.Expr}
    {ss ps is : List Stmt} (h : Selection n ctx join bodies e ss ps is) :
    runAll M (flows ps) = runAll M (flows is) := by
  induction h with
  | success _ _ _ _ hstores =>
    rw [flows_append, flows_append, runAll_append, runAll_append, hstores.run_eq hM]
  | ifThenElse _ _ _ ihthen ihelse =>
    simp only [flows_cons, flows_nil, Stmt.flow, StmtForm.flow, runAll_singleton, Flow.run, ihthen,
      ihelse]
  | letIn _ _ ih => rw [flows_append, flows_append, runAll_append, runAll_append, ih]
  | cast _ ih => exact ih

end

/-! ## The switch -/

/-- A switch over the variable finds the first case with the number that was stored right before,
compared as doubles. -/
structure SwitchesOn (M : Machine StmtForm Expr) (join : String) : Prop where
  pick : ∀ {i a m}, M.step (.expr (.assign (.ident join) (.number i))) a true m →
    ∀ (ks : List (Option Nat)) r b,
      M.pick (.ident join) (ks.map (·.map fun k => [.number k])) m r b ↔
        r = some (ks.findIdx? fun k => k.map Binary64.ofNat = some (.ofNat i)) ∧ b = m

/-- The code of the dispatcher and the switch run like the code that runs the target at the end of
the dispatcher. -/
theorem Selection.run_eq {M : Machine StmtForm Expr} {join : String} {strategy : Strategy Expr}
    {bodies : List (List Stmt)} {e : Ir.Expr} {ss ps is : List Stmt}
    (h : Selection n ctx join bodies e ss ps is) (hM : SwitchesOn M join)
    (hbodies : ∀ body ∈ bodies, ∃ J, Obeys strategy.returns J (flows body))
    (hlen : bodies.length ≤ 2 ^ 53) :
    runAll M (flows (ss ++ [.of (.switch (.ident join) (switchCases strategy bodies))])) =
      runAll M (flows ps) := by
  have hselects : Selects (fun fs gs => ∃ first i body, bodies[i]? = some body ∧
      fs = first ++ [(select join i).flow] ∧ gs = first ++ (select join i).flow :: flows body)
      (flows ss) (flows ps) := by
    induction h with
    | @success index _ _ _ body stores _ _ _ _ hbody _ _ _ =>
      exact .ends ⟨flows stores, index, body, hbody, flows_append _ _, flows_append _ _⟩
    | ifThenElse _ _ _ ihthen ihelse => exact .choose ihthen ihelse
    | letIn _ _ ih =>
      rw [flows_append, flows_append]
      exact .after _ ih
    | cast _ ih => exact ih
  rw [flows_append]
  refine hselects.run_eq ?_
  rintro _ _ ⟨first, i, body, hbody, rfl, rfl⟩
  obtain ⟨hi, hget⟩ := List.getElem?_eq_some_iff.1 hbody
  obtain ⟨J, hobeys⟩ := hbodies body (List.mem_of_getElem? hbody)
  have hkey : ∀ j < bodies.length, Binary64.ofNat j = Binary64.ofNat i → j = i := fun j hj =>
    Binary64.ofNat_injOn (Nat.lt_of_lt_of_le hj hlen) (Nat.lt_of_lt_of_le hi hlen)
  have hland := landing_caseNumbers hi hkey fun k => [Expr.number k]
  rw [← tests_switchCases strategy] at hland
  have hcase : (caseFlows (switchCases strategy bodies))[i]? =
      some ⟨if i + 1 < bodies.length then some [.number i] else none,
        flows body ++ flows (caseExit strategy)⟩ := by
    rw [List.getElem?_eq_getElem (by simpa [switchCases, caseFlows_eq_map] using hi)]
    simp only [switchCases, caseFlows_eq_map, List.getElem_map, List.getElem_zipIdx, Nat.zero_add,
      hget, flows_append]
    split <;> rfl
  have hexit : flows (caseExit strategy) = [.breakTo none] ∨
      strategy.returns = true ∧ flows (caseExit strategy) = [] := by
    cases strategy with
    | ret => exact .inr ⟨rfl, rfl⟩
    | effect | assign | join => exact .inl rfl
  have hend := runAll_store_switch (M := M) (fun hstep r b =>
    tests_switchCases strategy bodies ▸ hM.pick hstep (caseNumbers bodies.length) r b) hland hcase
    hobeys hexit
  rw [List.append_assoc, runAll_append, runAll_append M first]
  exact congrArg _ hend

/-! ## The tree -/

/-- The statements for a tree with shared targets: the variable for the index is new, each target
has one case with its body, lowered with the strategy of the tree, and the statements run like the
dispatcher with the targets in place. That each name stands for one variable is up to the names in
the tree and in the inline functions that it calls. -/
structure Switched (n : Nat) (ctx : Context) (strategy : Strategy Expr) (dispatcher : Ir.Expr)
    (targets : List Ir.Target) (s : LowerState) (stmts : List Stmt) (join : String)
    (bodies : List (List Stmt)) (ss ps is : List Stmt) : Prop where
  fresh : ¬ s.names.IsTaken join
  areBodies : AreBodies n ctx strategy targets bodies
  selection : Selection n (ctx.withTargets targets) join bodies dispatcher ss ps is
  eq : stmts = .declare .let join none :: Parts.targetVariables ctx targets ++
    (ss ++ [.of (.switch (.ident join) (switchCases strategy bodies))])
  run : RunAlike scoping language (SwitchesOn · join) (flows stmts)
    (flows (.declare .let join none :: Parts.targetVariables ctx targets ++ ps))
  run_inline : RunAlike scoping language (fun M => SwitchesOn M join ∧ DeclaresByStoring M)
    (flows stmts) (flows (.declare .let join none :: is))

/-- A tree with shared targets is lowered to its dispatcher and a switch over the bodies. -/
theorem decisionTree_switched {strategy : Strategy Expr} {dispatcher : Ir.Expr}
    {targets : List Ir.Target} {stmts : List Stmt}
    (hshared : dispatcher.sharedTargets targets.length ≠ [])
    (hdispatcher : dispatcher.IsDispatcher targets)
    (hunit : ∀ t ∈ targets, ∀ id ∈ t.bound, id.ty.isUnit = false)
    (hlen : targets.length ≤ 2 ^ 53)
    (h : (rules (n + 1)).stmts ctx strategy (.decisionTree dispatcher targets) u = (.ok stmts, v)) :
    ∃ join bodies ss ps is,
      Switched n ctx strategy dispatcher targets u stmts join bodies ss ps is := by
  replace h : (rules n).decisionTree ctx strategy dispatcher targets u = (.ok stmts, v) := h
  have hempty : (dispatcher.sharedTargets targets.length).isEmpty = false := by
    simpa using hshared
  simp only [Parts.decisionTree, hempty, Bool.false_eq_true, if_false, bind_eq_ok, pure_eq_ok] at h
  obtain ⟨join, _, hjoin, ss, _, hselect, cases, _, hcases, rfl, -⟩ := h
  obtain ⟨bodies, hbodies, rfl⟩ := cases_spec hcases
  have hselection : ∃ ps is,
      Selection n (ctx.withTargets targets) join bodies dispatcher ss ps is :=
    selection_of_stmts hdispatcher hunit hbodies.length_eq.symm (Nat.le_refl n) hselect
  obtain ⟨ps, is, hselection⟩ := hselection
  have hfresh : ¬ u.names.IsTaken join := by
    obtain rfl := Except.ok.inj (Prod.mk.inj hjoin).1
    exact u.names.allocateLocal_not_isTaken _
  have hrun : ∀ M, SwitchesOn M join →
      runAll M (flows (.declare .let join none :: Parts.targetVariables ctx targets ++
        (ss ++ [.of (.switch (.ident join) (switchCases strategy bodies))]))) =
      runAll M (flows (.declare .let join none :: Parts.targetVariables ctx targets ++ ps)) := by
    intro M hM
    have hend := hselection.run_eq hM hbodies.obey (hbodies.length_eq ▸ hlen)
    rw [flows_append _ (ss ++ _), runAll_append, hend, ← runAll_append, ← flows_append]
  rw [List.append_assoc]
  refine ⟨join, bodies, ss, ps, is, hfresh, hbodies, hselection, rfl, .of_runAll hrun,
    .of_runAll fun M hM => ?_⟩
  rw [hrun M hM.1, flows_append, runAll_append, flows_cons, flows_cons, runAll_cons, runAll_cons,
    hM.2.runAll_targetVariables, Runs.seq_exit_normal, hselection.run_binds hM.2]

end TypedLowering.JavaScript

/-!
## The join variable in JavaScript

If the dispatcher of a tree with shared targets ends in success nodes of the tree, then the code of
the tree stores nothing in the join variable but the indices that they select
(`decisionTree_storesOnly`).
-/

namespace TypedLowering.JavaScript

open Lower (Ensures bind_eq_ok pure_eq_ok)

variable {P : Use → Prop} {scope : Scope}

mutual

/-- If all uses are of a kind, then all names of that kind are in scope everywhere. -/
theorem Expr.AllUses.scoped {scope : Scope} :
    {e : Expr} → e.AllUses P → e.Scoped (.ofKind P) scope
  | ⟨_, _⟩, h => ExprForm.AllUses.scoped h

/-- If all names are of the kind, those in the form of an expression are in scope. -/
theorem ExprForm.AllUses.scoped {scope : Scope} :
    {form : ExprForm} → form.AllUses P → form.Scoped (.ofKind P) scope
  | .ident _, h => .inl h
  | .this, _ | .literal _, _ => trivial
  | .array _, h | .sequence _, h => AllUsesItems.scoped h
  | .object _, h => AllUsesMembers.scoped h
  | .unary _ _, h | .spread _, h | .member _ _, h => Expr.AllUses.scoped h
  | .binary _ _ _, h | .index _ _, h => ⟨Expr.AllUses.scoped h.1, Expr.AllUses.scoped h.2⟩
  | .conditional _ _ _, h =>
    ⟨Expr.AllUses.scoped h.1, Expr.AllUses.scoped h.2.1, Expr.AllUses.scoped h.2.2⟩
  | .call _ _, h | .construct _ _, h => ⟨Expr.AllUses.scoped h.1, AllUsesItems.scoped h.2⟩
  | .function _, h => Func.AllUses.scoped h
  | .emit _ _, h => ⟨h.1, AllUsesItems.scoped h.2⟩

/-- If all names are of the kind, those in expressions are in scope. -/
theorem AllUsesItems.scoped {scope : Scope} :
    {es : List Expr} → AllUsesItems P es → ScopedItems (.ofKind P) scope es
  | [], _ => trivial
  | _ :: _, h => ⟨Expr.AllUses.scoped h.1, AllUsesItems.scoped h.2⟩

/-- If all names are of the kind, those in the members of an object are in scope. -/
theorem AllUsesMembers.scoped {scope : Scope} :
    {ms : List ObjectMember} → AllUsesMembers P ms → ScopedMembers (.ofKind P) scope ms
  | [], _ => trivial
  | ⟨_, _⟩ :: _, h => ⟨MemberValue.AllUses.scoped h.1, AllUsesMembers.scoped h.2⟩

/-- If all names are of the kind, those in the value of a member are in scope. -/
theorem MemberValue.AllUses.scoped {scope : Scope} :
    {value : MemberValue} → value.AllUses P → value.Scoped (.ofKind P) scope
  | .value _, h => Expr.AllUses.scoped h
  | .method _, h | .getter _, h | .setter _, h => Func.AllUses.scoped h

/-- If all names are of the kind, those in a function are in scope. -/
theorem Func.AllUses.scoped : {func : Func} → func.AllUses P → func.Scoped (.ofKind P)
  | ⟨_, _, _, _⟩, h => ⟨h.1, fun p hp => .inl (h.2.1 p hp), FuncBody.AllUses.scoped h.2.2⟩

/-- If all names are of the kind, those in the body of a function are in scope. -/
theorem FuncBody.AllUses.scoped {scope : Scope} :
    {body : FuncBody} → body.AllUses P → body.Scoped (.ofKind P) scope
  | .block _, h => AllUsesStmts.scoped h
  | .value _, h => Expr.AllUses.scoped h

/-- If all names are of the kind, those in a statement are in scope. -/
theorem Stmt.AllUses.scoped {scope : Scope} :
    {s : Stmt} → s.AllUses P → s.Scoped (.ofKind P) scope
  | ⟨_, _⟩, h => StmtForm.AllUses.scoped h

/-- If all names are of the kind, those in the form of a statement are in scope. -/
theorem StmtForm.AllUses.scoped {scope : Scope} :
    {form : StmtForm} → form.AllUses P → form.Scoped (.ofKind P) scope
  | .expr _, h | .throw _, h => Expr.AllUses.scoped h
  | .block _, h => AllUsesStmts.scoped h
  | .declare ⟨_, _⟩, h => AllUsesDeclarators.scoped h
  | .ifElse _ _ _, h =>
    ⟨Expr.AllUses.scoped h.1, AllUsesStmts.scoped h.2.1, AllUsesStmts.scoped h.2.2⟩
  | .whileLoop _ _, h => ⟨Expr.AllUses.scoped h.1, AllUsesStmts.scoped h.2⟩
  | .forLoop _ _ _ _, h => ⟨AllUsesStart.scoped h.1, AllUsesOption.scoped h.2.1,
    AllUsesOption.scoped h.2.2.1, AllUsesStmts.scoped h.2.2.2⟩
  | .ret _, h => AllUsesOption.scoped h
  | .breakTo _, _ | .continueTo _, _ | .debugger, _ => trivial
  | .labeled _ _, h | .exported _, h => Stmt.AllUses.scoped h
  | .tryCatch _ _ _, h =>
    ⟨AllUsesStmts.scoped h.1, AllUsesHandler.scoped h.2.1, AllUsesFinalizer.scoped h.2.2⟩
  | .switch _ _, h => ⟨Expr.AllUses.scoped h.1, AllUsesCases.scoped h.2⟩
  | .function _, h => Func.AllUses.scoped h
  | .classDecl ⟨_, _, _⟩, h => ⟨h.1, AllUsesOption.scoped h.2.1, AllUsesMethods.scoped h.2.2⟩

/-- If all names are of the kind, those in statements are in scope. -/
theorem AllUsesStmts.scoped {scope : Scope} :
    {ss : List Stmt} → AllUsesStmts P ss → ScopedStmts (.ofKind P) scope ss
  | [], _ => trivial
  | _ :: _, h => ⟨Stmt.AllUses.scoped h.1, AllUsesStmts.scoped h.2⟩

/-- If all names are of the kind, those in an expression that may be missing are in scope. -/
theorem AllUsesOption.scoped {scope : Scope} :
    {o : Option Expr} → AllUsesOption P o → ScopedOption (.ofKind P) scope o
  | none, _ => trivial
  | some _, h => Expr.AllUses.scoped h

/-- If all names are of the kind, those in declarators are in scope. -/
theorem AllUsesDeclarators.scoped {scope : Scope} :
    {ds : List Declarator} → AllUsesDeclarators P ds → ScopedDeclarators (.ofKind P) scope ds
  | [], _ => trivial
  | ⟨_, _⟩ :: _, h => ⟨.inl h.1, AllUsesOption.scoped h.2.1, AllUsesDeclarators.scoped h.2.2⟩

/-- If all names are of the kind, those in the head of a loop are in scope. -/
theorem AllUsesStart.scoped {scope : Scope} :
    {o : Option VarDecl} → AllUsesStart P o → ScopedStart (.ofKind P) scope o
  | none, _ => trivial
  | some ⟨_, _⟩, h => AllUsesDeclarators.scoped h

/-- If all names are of the kind, those in a handler are in scope. -/
theorem AllUsesHandler.scoped {scope : Scope} :
    {o : Option CatchClause} → AllUsesHandler P o → ScopedHandler (.ofKind P) scope o
  | none, _ => trivial
  | some ⟨_, _⟩, h => ⟨h.1, AllUsesStmts.scoped h.2⟩

/-- If all names are of the kind, those in a finalizer are in scope. -/
theorem AllUsesFinalizer.scoped {scope : Scope} :
    {o : Option (List Stmt)} → AllUsesFinalizer P o → ScopedFinalizer (.ofKind P) scope o
  | none, _ => trivial
  | some _, h => AllUsesStmts.scoped h

/-- If all names are of the kind, those in the cases of a switch are in scope. -/
theorem AllUsesCases.scoped {scope : Scope} :
    {cs : List SwitchCase} → AllUsesCases P cs → ScopedCases (.ofKind P) scope cs
  | [], _ => trivial
  | ⟨_, _⟩ :: _, h =>
    ⟨AllUsesOption.scoped h.1, AllUsesStmts.scoped h.2.1, AllUsesCases.scoped h.2.2⟩

/-- If all names are of the kind, those in the members of a class are in scope. -/
theorem AllUsesMethods.scoped :
    {ms : List ClassMember} → AllUsesMethods P ms → ScopedMethods (.ofKind P) ms
  | [], _ => trivial
  | ⟨_, _, _, _⟩ :: _, h => ⟨Func.AllUses.scoped h.1, AllUsesMethods.scoped h.2⟩

end

/-! ## Names in parts of a tree -/

/-- What a strategy may write to in code of a kind. -/
theorem exists_reaches {ctx : Context} {strategy : Strategy Expr} (hctx : Sourced P ctx)
    (hstrategy : strategy.AllUses P (Expr.AllUses P)) :
    ∃ scope, Reaches (.ofKind P) true ctx strategy scope := by
  have hslots : ∀ loop, ctx.tailCall = some loop → ∀ slot ∈ loop.slots,
      P (.name slot) ∧ slot ∈ (ctx.tailCall.toList.flatMap TailCall.slots) := by
    intro loop hloop slot hslot
    exact ⟨hctx.slots loop hloop slot hslot,
      List.mem_flatMap.2 ⟨loop, Option.mem_toList.2 hloop, hslot⟩⟩
  refine ⟨⟨ctx.tailCall.toList.flatMap TailCall.slots, strategy.joinVariable?.toList⟩,
    fun _ => hslots, ?_⟩
  cases strategy with
  | ret | effect => trivial
  | assign place => exact fun _ => Expr.AllUses.scoped hstrategy
  | join name => exact ⟨hstrategy, List.mem_singleton_self name⟩

/-- Statements that are lowered from names of a kind mention names of that kind only. -/
theorem stmts_keepUses (n : Nat) {ctx : Context} {strategy : Strategy Expr} {e : Ir.Expr}
    (hctx : Sourced P ctx) (hstrategy : strategy.AllUses P (Expr.AllUses P)) (he : e.AllUses P) :
    Ensures P ((rules n).stmts ctx strategy e) (AllUsesStmts P) := by
  obtain ⟨scope, hreach⟩ := exists_reaches hctx hstrategy
  intro s code t hs h
  obtain ⟨ht, hcode⟩ := ((rules_keepScope n).stmts ctx strategy e).ensures P s code t hs h
  exact ⟨ht, (hcode hctx.withoutTailCall he scope hreach).allUses⟩

/-! ## Code that stores numbers -/

/-- Code of a kind that stores numbers in a variable and does nothing else with it, apart from
declaring it and switching over it. -/
inductive StoresOnly (P : Use → Prop) (join : String) (p : Nat → Prop) : List Stmt → Prop
  | other {ss : List Stmt} : AllUsesStmts P ss → StoresOnly P join p ss
  | declared : StoresOnly P join p [.declare .let join none]
  | select {i : Nat} : p i → StoresOnly P join p [select join i]
  | switch {cases : List SwitchCase} : AllUsesCases P cases →
      StoresOnly P join p [.of (.switch (.ident join) cases)]
  | ifElse {loc : Option Ir.Location} {test : Expr} {thenStmts elseStmts : List Stmt} :
      test.AllUses P → StoresOnly P join p thenStmts → StoresOnly P join p elseStmts →
      StoresOnly P join p [⟨loc, .ifElse test thenStmts elseStmts⟩]
  | tryCatch {loc : Option Ir.Location} {block : List Stmt} {handler : Option CatchClause}
      {finalizer : Option (List Stmt)} : StoresOnly P join p block →
      (∀ h ∈ handler, ∀ x ∈ h.param, P (.name x)) → (∀ h ∈ handler, StoresOnly P join p h.body) →
      AllUsesFinalizer P finalizer →
      StoresOnly P join p [⟨loc, .tryCatch block handler finalizer⟩]
  | append {as bs : List Stmt} :
      StoresOnly P join p as → StoresOnly P join p bs → StoresOnly P join p (as ++ bs)

variable {n : Nat} {ctx : Context} {join : String} {p : Nat → Prop}

/-- Nodes that are evaluated for their effects, and then one that stores. -/
theorem sequence_storesOnly {es : List Ir.Expr} (hctx : Sourced P ctx)
    (hes : ∀ e ∈ es, e.AllUses P)
    (hlast : ∀ last ∈ es.getLast?,
      Ensures P ((rules n).stmts ctx (.join join) last) (StoresOnly P join p)) :
    Ensures P ((rules n).sequence ctx (.join join) es) (StoresOnly P join p) := by
  induction es with
  | nil => exact .pure (.other trivial)
  | cons e es ih =>
    obtain ⟨he, hes⟩ := List.forall_mem_cons.1 hes
    cases es with
    | nil => exact hlast e rfl
    | cons e' es' =>
      refine .bind (stmts_keepUses n hctx.withoutTailCall trivial he) fun _ hfirst =>
        .bind (ih hes hlast) fun _ hrest => .pure (.append (.other hfirst) hrest)

/-- At its ends, a dispatcher stores indices of success nodes of its tree, and nowhere else. -/
theorem dispatcher_storesOnly {e : Ir.Expr} (he : e.EndsInSuccess) (hctx : Sourced P ctx)
    (huses : e.AllUses P) (hp : ∀ i ∈ e.selected, i < ctx.targets.length → p i) :
    Ensures P ((rules n).stmts ctx.withoutTailCall (.join join) e) (StoresOnly P join p) := by
  have hplain := hctx.withoutTailCall
  have hgrounds : (Naming.ofKind P).Grounds ctx.withoutTailCall := hplain
  induction n generalizing e with
  | zero => exact .fail _
  | succ n ih =>
    have hkeep := rules_keepScope n
    have hchild : ∀ {c}, c ∈ e.children → (∀ k, e.scopes k = e.children.map (k, ·)) →
        c.EndsInSuccess →
        Ensures P ((rules n).stmts ctx.withoutTailCall (.join join) c) (StoresOnly P join p) :=
      fun hc htree hends => ih hends (huses.of_child hc) fun i hi =>
        hp i (Ir.Expr.selected_subset_of_child htree hc hi)
    cases he with
    | success index values ty =>
      refine .bind (.ofOption _ fun t ht => ht) fun t ht => .bind
        ((hkeep.assignments _ t.bound values).ensures P) fun stmts hstmts => .pure ?_
      obtain ⟨hbound, -⟩ := hctx.targets t (List.mem_of_getElem? ht)
      have hnames : ∀ id ∈ t.bound, P (.name id.name) :=
        fun id hid => (Use.forall_binders.1 hbound id hid).1
      refine .append (.other (hstmts hgrounds hnames (fun v => huses.of_child) .outermost).allUses)
        (.select (hp index ?_ (List.getElem?_eq_some_iff.1 ht).1))
      rw [Ir.Expr.selected]
      exact List.mem_cons_self
    | @ifThenElse guard thenExpr elseExpr loc hthen helse =>
      -- a join strategy prefers statements
      have hrule : (rules (n + 1)).stmts ctx.withoutTailCall (.join join)
          (.ifThenElse guard thenExpr elseExpr loc) =
          (rules n).conditional ctx.withoutTailCall (.join join) guard thenExpr elseExpr loc := by
        show (Lower.isStatement ctx.withoutTailCall true _ >>= _) = _
        rw [Lower.isStatement, isStatement_of_prefers]
        rfl
      rw [hrule]
      exact .bind (expr_keepsUses n hplain.withoutTailCall (huses.of_child (.head _)))
        fun _ htest => .bind (hchild (.tail _ (.head _)) (fun _ => rfl) hthen) fun _ hthen =>
          .bind (hchild (.tail _ (.tail _ (.head _))) (fun _ => rfl) helse) fun _ helse =>
            .pure (.ifElse htest hthen helse)
    | letIn id value hbody =>
      have hid := (Use.forall_binders.1 huses.uses id List.mem_cons_self).1
      refine .bind ((hkeep.declare _ id value).ensures P) fun _ hfirst =>
        .bind (hchild (.tail _ (.head _)) (fun _ => rfl) hbody) fun _ hrest =>
          .pure (.append (.other ?_) hrest)
      exact (hfirst hgrounds hid (huses.of_child (.head _)) .outermost).allUses
    | letRec bs hbody =>
      have hids := Use.forall_binders.1 huses.uses
      refine .bind ((hkeep.recursive _ bs).ensures P) fun _ hfirst =>
        .bind (hchild (List.mem_append_right _ (.head _)) (fun _ => rfl) hbody) fun _ hrest =>
          .pure (.append (.other (hfirst hgrounds (fun b hb => ⟨?_, ?_⟩) .outermost).allUses) hrest)
      · exact (hids _ (List.mem_map_of_mem hb)).1
      · exact huses.of_child (List.mem_append_left _ (List.mem_map_of_mem hb))
    | sequence hlast =>
      exact sequence_storesOnly hplain (fun e => huses.of_child) fun last hmem =>
        hchild (List.mem_of_mem_getLast? hmem) (fun _ => rfl) (hlast last hmem)
    | cast ty hinner => exact hchild (.head _) (fun _ => rfl) hinner
    | @tryCatch body handler finalizer loc hbody hhandler =>
      refine .bind (hchild (.head _) (fun _ => rfl) hbody) fun block hblock => .bind
        (Q := fun o => (∀ h ∈ o, ∀ x ∈ h.param, P (.name x)) ∧
          ∀ h ∈ o, StoresOnly P join p h.body) ?_ fun o ho =>
        .bind ((hkeep.finalizer _ finalizer).ensures P) fun _ hfinalizer =>
          .pure (.tryCatch hblock ho.1 ho.2 (hfinalizer hgrounds ?_ .outermost).allUses)
      · cases handler with
        | none => exact .pure ⟨by rintro _ ⟨⟩, by rintro _ ⟨⟩⟩
        | some hd =>
          have hparam := (Use.forall_binders.1 huses.uses hd.param (.head _)).1
          refine .bind (.inHandler hparam (hchild (.tail _ (.head _)) (fun _ => rfl)
            (hhandler hd rfl)))
            fun body hbody => .pure ⟨fun h hh x hx => ?_, fun h hh => ?_⟩
          · obtain rfl := Option.some.inj hh
            obtain rfl := Option.some.inj hx
            exact hparam
          · obtain rfl := Option.some.inj hh
            exact hbody
      · rintro e he
        exact huses.of_child (by simp [Ir.Expr.children, Option.mem_def.1 he])
    | throw error ty loc =>
      cases error with
      | some error =>
        exact .bind (expr_keepsUses n hplain.withoutTailCall (huses.of_child (.head _)))
          fun _ herror => .pure (.other ⟨herror, trivial⟩)
      | none =>
        have hcode :
            Ensures P ((rules (n + 1)).stmts ctx.withoutTailCall .effect (.throw none ty loc))
              (AllUsesStmts P) := stmts_keepUses (n + 1) hplain trivial huses
        intro s code t hs h
        obtain ⟨ht, hcode⟩ := hcode s code t hs h
        exact ⟨ht, .other hcode⟩

/-- The code of a tree with shared targets: the dispatcher and a switch with the bodies of the
targets, which are lowered with the targets around. -/
structure Joined (n : Nat) (ctx : Context) (strategy : Strategy Expr) (targets : List Ir.Target)
    (stmts : List Stmt) (join : String) (dispatch : List Stmt) (bodies : List (List Stmt)) :
    Prop where
  areBodies : AreBodies n ctx strategy targets bodies
  eq : stmts = .declare .let join none :: Parts.targetVariables ctx targets ++ dispatch ++
    [.of (.switch (.ident join) (switchCases strategy bodies))]

/-- A tree with shared targets stores nothing in its join variable but the indices that the success
nodes of its dispatcher select, if the dispatcher ends in such nodes. -/
theorem decisionTree_storesOnly {inTemplate : String → String → Prop} {strategy : Strategy Expr}
    {d : Ir.Expr} {ts : List Ir.Target} {s t : LowerState} {stmts : List Stmt}
    (hends : d.EndsInSuccess) (hshared : d.sharedTargets ts.length ≠ [])
    (hinUse : InUse inTemplate ctx [] (.decisionTree d ts) s)
    (hstrategy : ∀ x, ¬ s.names.IsTaken x → x ∉ builtins →
      strategy.AllUses (Use.Avoids inTemplate x) (Expr.AllUses (Use.Avoids inTemplate x)))
    (h : (rules (n + 1)).stmts ctx strategy (.decisionTree d ts) s = (.ok stmts, t)) :
    ∃ join dispatch bodies, ¬ s.names.IsTaken join ∧
      Joined n ctx strategy ts stmts join dispatch bodies ∧
      StoresOnly (Use.Avoids inTemplate join) join (fun i => i ∈ d.selected ∧ i < ts.length)
        stmts := by
  replace h : (rules n).decisionTree ctx strategy d ts s = (.ok stmts, t) := h
  have hempty : (d.sharedTargets ts.length).isEmpty = false := by simpa using hshared
  simp only [Parts.decisionTree, hempty, Bool.false_eq_true, if_false, bind_eq_ok,
    pure_eq_ok] at h
  obtain ⟨join, u, hjoin, dispatch, v, hdispatch, cases, _, hcases, rfl, -⟩ := h
  obtain ⟨hnew, hbuiltin, hopen⟩ := hinUse.open_join hjoin
  have hsourced := hinUse.sourced_new hnew hbuiltin
  have huses : (Ir.Expr.decisionTree d ts).AllUses (Use.Avoids inTemplate join) :=
    fun d hd use huse => (hinUse.body d hd use huse).avoids hnew hbuiltin
  have htree := hsourced.tree huses
  obtain ⟨hv, hdispatched⟩ := dispatcher_storesOnly
    (p := fun i => i ∈ d.selected ∧ i < ts.length) hends htree (huses.of_child List.mem_cons_self)
    (fun i hi hlt => ⟨hi, hlt⟩) u dispatch v hopen hdispatch
  obtain ⟨scope, hreach⟩ := exists_reaches hsourced (hstrategy join hnew hbuiltin)
  obtain ⟨-, hused⟩ := ((rules_keepScope n).cases ctx strategy 0 ts).ensures
    (Use.Avoids inTemplate join) v cases _ hv hcases
  have hused := hused hsourced.withoutTailCall (fun t ht => (htree.targets t ht).2) scope hreach
  have hvariables := Parts.KeepsScope.scoped_targetVariables
    (N := .ofKind (Use.Avoids inTemplate join))
    ctx (fun t ht => (htree.targets t ht).1) .outermost
  obtain ⟨bodies, hbodies, rfl⟩ := cases_spec hcases
  refine ⟨join, dispatch, bodies, hnew, ⟨hbodies, rfl⟩, ?_⟩
  exact .append (.append (.append .declared (.other hvariables.allUses)) hdispatched)
    (.switch hused.allUses)

end TypedLowering.JavaScript
