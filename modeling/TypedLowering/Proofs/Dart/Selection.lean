import Mathlib.Algebra.Group.Nat.Defs
import TypedLowering.Proofs.Control.Switch
import TypedLowering.Proofs.Dart.Control
import TypedLowering.Proofs.Dart.Uses
import TypedLowering.Proofs.Lowering.Dispatcher
import TypedLowering.Proofs.Lowering.Temporaries

/-!
# Decision trees with shared targets

If a target is shared, the success nodes store the index of their target, and a switch goes to it.
The code of the dispatcher then is that of a dispatcher with the targets in place, but for the ends
(`selection_of_stmts`), and together with the switch it runs like the code with the targets in place
(`Selection.run_eq`).
-/

namespace TypedLowering.Dart

open Control Lower

/-! ## Values for identifiers -/

/-- Code that stores values for declared identifiers, and the code that declares the identifiers
with these values. A value that needs statements is stored in both. -/
inductive Stores : List Ir.Ident → List Stmt → List Stmt → Prop
  | nil : Stores [] [] []
  | value {id : Ir.Ident} {ids : List Ir.Ident} (before : List Stmt) (ty : Ty) (value : Expr)
      (kind : VarKind) {stores binds : List Stmt} : Stores ids stores binds →
      Stores (id :: ids) (before ++ [.assign (.ident (.own id.name ty)) value] ++ stores)
        (before ++ [.declare (.own id.name ty) kind (some value)] ++ binds)
  | stmts {id : Ir.Ident} {ids : List Ir.Ident} (stmts : List Stmt) (ty : Ty) (kind : VarKind)
      {stores binds : List Stmt} : Stores ids stores binds →
      Stores (id :: ids) (stmts ++ stores)
        (.declare (.own id.name ty) kind none :: stmts ++ binds)

variable {n : Nat} {ctx : Context} {u v : LowerState}

/-- A value that needs no statements of its own is stored by one assignment. -/
theorem assign_of_isPlain {place : Expr} {e : Ir.Expr} {stmts : List Stmt} (hplain : e.IsPlain)
    (hneeds : e.needsStatements = false)
    (h : (rules n).stmts ctx.withoutTailCall (.assign place) e u = (.ok stmts, v)) :
    ∃ value, stmts = value.before ++ [.assign place value.value] ∧
      (rules n).captured ctx.withoutTailCall e u = (.ok value, v) := by
  cases n with
  | zero => exact absurd h fail_ne_ok
  | succ n =>
    have hdelivered : (rules n).delivered ctx.withoutTailCall (.assign place) e u = (.ok stmts, v) →
        ∃ value, stmts = value.before ++ [.assign place value.value] ∧
          (rules (n + 1)).captured ctx.withoutTailCall e u = (.ok value, v) := by
      intro h
      simp only [Parts.delivered, bind_eq_ok, pure_eq_ok] at h
      obtain ⟨value, _, hvalue, rfl, rfl⟩ := h
      exact ⟨value, rfl, ((rules_deepens (Nat.le_succ n)).expr _ _ _ _ _ _ hvalue).1⟩
    cases e with
    | cast inner ty =>
      refine hdelivered ?_
      replace h : (rules n).stmtsRule ctx.withoutTailCall (.assign place) (.cast inner ty) u =
        (.ok stmts, v) := h
      simp only [Parts.stmtsRule, Parts.dropsCast, Strategy.joinVariable?, Option.isSome_none,
        Bool.false_eq_true, if_false, bind_eq_ok, isStatement_eq_ok] at h
      obtain ⟨drops, _, ⟨hdrops, rfl⟩, h⟩ := h
      rw [isStatement_of_isPlain _ (hplain.of_child List.mem_cons_self)] at hdrops
      obtain rfl : false = drops := hneeds.symm.trans (Except.ok.inj hdrops)
      exact h
    | ifThenElse guard thenExpr elseExpr loc =>
      refine hdelivered ?_
      replace h : (rules n).stmtsRule ctx.withoutTailCall (.assign place)
        (.ifThenElse guard thenExpr elseExpr loc) u = (.ok stmts, v) := h
      simp only [Parts.stmtsRule, bind_eq_ok, isStatement_eq_ok] at h
      obtain ⟨isStatement, _, ⟨his, rfl⟩, h⟩ := h
      rw [show Parts.prefersStatement ctx.withoutTailCall (.assign place) = false from rfl,
        isStatement_of_isPlain _ hplain, hneeds] at his
      obtain rfl := Except.ok.inj his
      exact h
    | decisionTree dispatcher ts =>
      exact absurd rfl ((hplain _ (Ir.Expr.self_mem_subterms _)).1 _ _)
    | success index values ty => exact absurd rfl ((hplain _ (Ir.Expr.self_mem_subterms _)).2 _ _ _)
    | emit template args isStatement =>
      cases isStatement with
      | true => cases hneeds
      | false => exact hdelivered h
    | set | setIndex | sequence | letIn | letRec | whileLoop | forLoop | tryCatch | throw
    | debugger => cases hneeds
    | _ => exact hdelivered h

/-- The code that declares the identifiers a target binds, from the state in which the code that
stores their values was lowered. -/
theorem bindings_of_assignments {ids : List Ir.Ident} {values : List Ir.Expr} {stores : List Stmt}
    (hlen : values.length = ids.length) (hplain : ∀ value ∈ values, value.IsPlain)
    (hunit : ∀ id ∈ ids, id.ty.isUnit = false)
    (h : (rules n).assignments ctx.withoutTailCall ids values u = (.ok stores, v)) :
    ∃ binds, (rules n).bindings ctx ids values u = (.ok binds, v) ∧ Stores ids stores binds := by
  induction ids generalizing values u stores with
  | nil =>
    obtain rfl := List.eq_nil_of_length_eq_zero hlen
    obtain ⟨rfl, rfl⟩ := pure_eq_ok.1 h
    exact ⟨[], rfl, .nil⟩
  | cons id ids ih =>
    cases values with
    | nil => cases hlen
    | cons value values =>
      simp only [Parts.assignments, lowerIdent, bind_eq_ok, pure_eq_ok] at h
      obtain ⟨_, _, ⟨ty, w, hty, rfl, rfl⟩, first, w', hfirst, rest, v, hrest, rfl, rfl⟩ := h
      obtain ⟨binds, hbinds, hstores⟩ := ih (Nat.succ.inj hlen)
        (fun value hvalue => hplain value (List.mem_cons_of_mem _ hvalue))
        (fun id hid => hunit id (List.mem_cons_of_mem _ hid)) hrest
      have hvalue : value.IsPlain := hplain value List.mem_cons_self
      have hplace : lowerIdent ctx.file id u = (.ok (.own id.name ty), w) :=
        bind_eq_ok.2 ⟨ty, w, hty, rfl⟩
      have hdeclare : ∀ {declares}, (rules n).declare ctx id value u = (.ok declares, w') →
          (rules n).bindings ctx (id :: ids) (value :: values) u =
            (.ok (declares ++ binds), v) := by
        intro declares hdeclares
        simp only [Parts.bindings, bind_eq_ok, pure_eq_ok]
        exact ⟨declares, w', hdeclares, binds, v, hbinds, rfl, rfl⟩
      have hcheck : Lower.isStatement ctx.withoutTailCall false value w =
          (.ok value.needsStatements, w) := by
        rw [Lower.isStatement, isStatement_of_isPlain _ hvalue]
        rfl
      cases hneeds : value.needsStatements with
      | true =>
        refine ⟨_, hdeclare ?_, .stmts first ty (if id.isMutable then .var else .late) hstores⟩
        rw [Parts.declare, hunit id List.mem_cons_self, if_neg Bool.false_ne_true]
        rw [hneeds] at hcheck
        exact bind_eq_ok.2 ⟨_, w, hplace, bind_eq_ok.2 ⟨true, w, hcheck,
          bind_eq_ok.2 ⟨first, w', hfirst, rfl⟩⟩⟩
      | false =>
        obtain ⟨x, rfl, hx⟩ := assign_of_isPlain hvalue hneeds hfirst
        refine ⟨_, hdeclare ?_,
          .value x.before ty x.value (if id.isMutable then .var else .final) hstores⟩
        rw [Parts.declare, hunit id List.mem_cons_self, if_neg Bool.false_ne_true]
        rw [hneeds] at hcheck
        exact bind_eq_ok.2 ⟨_, w, hplace, bind_eq_ok.2 ⟨false, w, hcheck,
          bind_eq_ok.2 ⟨x, w', hx, rfl⟩⟩⟩

/-! ## Dispatchers -/

/-- The statement that stores which target is selected. -/
def select (join : String) (index : Nat) : Stmt :=
  .assign (.ident (joinIdent join)) (.integer index)

/-- The code of a dispatcher that stores values and the index of the target at each of its ends, the
code that also runs the target there, and the code that declares the identifiers of the target with
the values, as a success node does whose target is not shared. -/
inductive Selection (n : Nat) (ctx : Context) (join : String) (bodies : List (List Stmt)) :
    Ir.Expr → List Stmt → List Stmt → List Stmt → Prop
  | success {index : Nat} {values : List Ir.Expr} {ty : Ir.Ty} {t : Ir.Target}
      {body stores binds : List Stmt} {u v : LowerState} :
      ctx.targets[index]? = some t → bodies[index]? = some body →
      (rules n).assignments ctx.withoutTailCall t.bound values u = (.ok stores, v) →
      (rules n).bindings ctx t.bound values u = (.ok binds, v) → Stores t.bound stores binds →
      Selection n ctx join bodies (.success index values ty) (stores ++ [select join index])
        (stores ++ select join index :: body) (binds ++ select join index :: body)
  | ifThenElse {guard thenExpr elseExpr : Ir.Expr} {loc : Option Ir.Location} {test : Hoisted Expr}
      {ss ss' ps ps' is is' : List Stmt} {u v : LowerState} :
      (rules n).captured ctx.withoutTailCall guard u = (.ok test, v) →
      Selection n ctx join bodies thenExpr ss ps is →
      Selection n ctx join bodies elseExpr ss' ps' is' →
      Selection n ctx join bodies (.ifThenElse guard thenExpr elseExpr loc)
        (test.before ++ [.ifElse test.value ss ss']) (test.before ++ [.ifElse test.value ps ps'])
        (test.before ++ [.ifElse test.value is is'])
  | letIn {id : Ir.Ident} {value body : Ir.Expr} {declares ss ps is : List Stmt}
    {u v : LowerState} :
      (rules n).declare ctx id value u = (.ok declares, v) →
      Selection n ctx join bodies body ss ps is →
      Selection n ctx join bodies (.letIn id value body) (declares ++ ss) (declares ++ ps)
        (declares ++ is)
  | cast {inner : Ir.Expr} {ty : Ir.Ty} {ss ps is : List Stmt} :
      Selection n ctx join bodies inner ss ps is →
      Selection n ctx join bodies (.cast inner ty) ss ps is

/-- The code for a dispatcher is a selection among its targets, with the index stored at each
end. -/
theorem selection_of_stmts {join : String} {bodies : List (List Stmt)} {e : Ir.Expr}
    {stmts : List Stmt} (he : e.IsDispatcher ctx.targets)
    (hunit : ∀ t ∈ ctx.targets, ∀ id ∈ t.bound, id.ty.isUnit = false)
    (hbodies : bodies.length = ctx.targets.length) {m : Nat} (hm : m ≤ n)
    (h : (rules m).stmts ctx.withoutTailCall (.join join) e u = (.ok stmts, v)) :
    ∃ ps is, Selection n ctx join bodies e stmts ps is := by
  have hdeep : ∀ {m}, m ≤ n → (rules m).Deepens (rules n) := rules_deepens
  induction he generalizing m u v stmts with
  | @success index values ty t ht hlen hplain =>
    cases m with
    | zero => exact absurd h fail_ne_ok
    | succ m =>
      replace h : (rules m).success ctx.withoutTailCall (.join join) index values u =
        (.ok stmts, v) := h
      simp only [Parts.success, target, bind_eq_ok, pure_eq_ok, ofOption_eq_ok] at h
      obtain ⟨t', _, ⟨ht', rfl⟩, stores, v, hstores, rfl, rfl⟩ := h
      obtain rfl := Option.some.inj (ht.symm.trans ht')
      have hindex := (List.getElem?_eq_some_iff.1 ht).1
      have hstores := ((hdeep (Nat.le_of_succ_le hm)).assignments _ _ _ _ _ _ hstores).1
      obtain ⟨binds, hbinds, hstored⟩ := bindings_of_assignments hlen hplain
        (hunit t (List.mem_of_getElem? ht)) hstores
      exact ⟨_, _, .success ht (List.getElem?_eq_getElem (hbodies ▸ hindex)) hstores hbinds hstored⟩
  | @ifThenElse guard thenExpr elseExpr loc hguard hthen helse ihthen ihelse =>
    cases m with
    | zero => exact absurd h fail_ne_ok
    | succ m =>
      have hm' := Nat.le_of_succ_le hm
      replace h : (rules m).stmtsRule ctx.withoutTailCall (.join join)
        (.ifThenElse guard thenExpr elseExpr loc) u = (.ok stmts, v) := h
      simp only [Parts.stmtsRule, bind_eq_ok, isStatement_eq_ok] at h
      obtain ⟨isStatement, _, ⟨his, rfl⟩, h⟩ := h
      rw [show Parts.prefersStatement ctx.withoutTailCall (.join join) = true from rfl,
        isStatement_of_prefers] at his
      obtain rfl := Except.ok.inj his
      simp only [if_true, Parts.conditionalStmts, bind_eq_ok, pure_eq_ok] at h
      obtain ⟨test, _, htest, _, _, hthen, _, _, helse, rfl, -⟩ := h
      obtain ⟨ps, is, hthen⟩ := ihthen hm' hthen
      obtain ⟨ps', is', helse⟩ := ihelse hm' helse
      exact ⟨_, _, .ifThenElse ((hdeep hm').expr _ _ _ _ _ _ htest).1 hthen helse⟩
  | @letIn id value body hvalue hbody ih =>
    cases m with
    | zero => exact absurd h fail_ne_ok
    | succ m =>
      have hm' := Nat.le_of_succ_le hm
      replace h : (rules m).stmtsRule ctx.withoutTailCall (.join join) (.letIn id value body) u =
        (.ok stmts, v) := h
      simp only [Parts.stmtsRule, bind_eq_ok, pure_eq_ok] at h
      obtain ⟨declares, _, hdeclares, _, _, hbody, rfl, -⟩ := h
      obtain ⟨ps, is, hbody⟩ := ih hm' hbody
      exact ⟨_, _, .letIn ((hdeep hm').declare _ _ _ _ _ _ hdeclares).1 hbody⟩
  | @cast inner ty hinner ih =>
    cases m with
    | zero => exact absurd h fail_ne_ok
    | succ m =>
      obtain ⟨ps, is, hinner⟩ := ih (Nat.le_of_succ_le hm) h
      exact ⟨ps, is, .cast hinner⟩

/-- The bodies of targets, each lowered with the strategy. -/
def AreBodies (n : Nat) (ctx : Context) (strategy : Strategy Expr) (targets : List Ir.Target)
    (bodies : List (List Stmt)) : Prop :=
  List.Forall₂ (fun t body => ∃ u v, (rules n).stmts ctx strategy t.body u = (.ok body, v))
    targets bodies

/-- The bodies of targets obey the strategy. -/
theorem AreBodies.obey {strategy : Strategy Expr} {targets : List Ir.Target}
    {bodies : List (List Stmt)} (h : AreBodies n ctx strategy targets bodies) :
    ∀ body ∈ bodies, ∃ J, Obeys strategy.returns J (flows body) := by
  induction h with
  | nil => nofun
  | cons hbody _ ih =>
    obtain ⟨_, _, hbody⟩ := hbody
    rintro body (_ | ⟨_, hmem⟩)
    · exact ⟨_, (rules_obey n).stmts hbody⟩
    · exact ih body hmem

/-- Targets are lowered to their bodies one by one. -/
theorem targetBodies_spec {strategy : Strategy Expr} {targets : List Ir.Target}
    {bodies : List (List Stmt)}
    (h : (rules n).targetBodies ctx strategy targets u = (.ok bodies, v)) :
    AreBodies n ctx strategy targets bodies := by
  induction targets generalizing u v bodies with
  | nil =>
    obtain ⟨rfl, -⟩ := pure_eq_ok.1 h
    exact .nil
  | cons t ts ih =>
    simp only [Parts.targetBodies, bind_eq_ok, pure_eq_ok] at h
    obtain ⟨body, _, hbody, rest, _, hrest, rfl, -⟩ := h
    exact .cons ⟨_, _, hbody⟩ (ih hrest)

/-! ## Declarations -/

/-- A declaration without a value does nothing, and one with a value stores it. -/
structure DeclaresByStoring (M : Machine Stmt Expr) : Prop where
  declared : ∀ {id kind a ok b}, M.step (.declare id kind none) a ok b ↔ ok = true ∧ b = a
  bound : ∀ {name ty kind value a ok b}, M.step (.declare (.own name ty) kind (some value)) a ok b ↔
    M.step (.assign (.ident (.own name ty)) value) a ok b

section
variable {M : Machine Stmt Expr} (hM : DeclaresByStoring M)
include hM

/-- A declaration without a value does nothing. -/
theorem DeclaresByStoring.run_declared (id : Ident) (kind : VarKind) :
    (Stmt.declare id kind none).flow.run M [] = .exit .normal := by
  funext a x b
  refine propext ⟨?_, fun ⟨hx, hb⟩ => .inl ⟨hM.declared.2 ⟨rfl, hb⟩, hx⟩⟩
  rintro (⟨hstep, rfl⟩ | ⟨hstep, -⟩)
  · exact ⟨rfl, (hM.declared.1 hstep).2⟩
  · cases (hM.declared.1 hstep).1

/-- A declaration with a value is an assignment of the value. -/
theorem DeclaresByStoring.run_bound (name : String) (ty : Ty) (kind : VarKind) (value : Expr) :
    (Stmt.declare (.own name ty) kind (some value)).flow.run M [] =
      (Stmt.assign (.ident (.own name ty)) value).flow.run M [] := by
  funext a x b
  exact propext (or_congr (and_congr_left fun _ => hM.bound) (and_congr_left fun _ => hM.bound))

/-- Declarations without values do nothing. -/
theorem DeclaresByStoring.runAll_declarations (ids : List Ident) :
    runAll M (flows (ids.map fun id => .declare id .late none)) = .exit .normal := by
  induction ids with
  | nil => rfl
  | cons id ids ih =>
    rw [List.map_cons, flows_cons, runAll_cons, hM.run_declared, ih, Runs.exit_normal_seq]

/-- Storing values in declared identifiers runs like declaring the identifiers with them. -/
theorem Stores.run_eq {ids : List Ir.Ident} {stores binds : List Stmt}
    (h : Stores ids stores binds) : runAll M (flows stores) = runAll M (flows binds) := by
  induction h with
  | nil => rfl
  | value before ty value kind _ ih =>
    simp only [flows_append, flows_cons, flows_nil, runAll_append, runAll_singleton, ih,
      hM.run_bound]
  | stmts stmts ty kind _ ih =>
    rw [List.cons_append, flows_cons, runAll_cons, hM.run_declared, Runs.exit_normal_seq,
      flows_append, flows_append, runAll_append, runAll_append, ih]

/-- So the dispatcher that stores values runs like the one that declares identifiers. -/
theorem Selection.run_binds {join : String} {bodies : List (List Stmt)} {e : Ir.Expr}
    {ss ps is : List Stmt} (h : Selection n ctx join bodies e ss ps is) :
    runAll M (flows ps) = runAll M (flows is) := by
  induction h with
  | success _ _ _ _ hstores =>
    rw [flows_append, flows_append, runAll_append, runAll_append, hstores.run_eq hM]
  | ifThenElse _ _ _ ihthen ihelse =>
    simp only [flows_append, flows_cons, flows_nil, Stmt.flow, runAll_append, runAll_singleton,
      Flow.run, ihthen, ihelse]
  | letIn _ _ ih => rw [flows_append, flows_append, runAll_append, runAll_append, ih]
  | cast _ ih => exact ih

end

/-! ## The switch -/

/-- An index as an integer of 64 bits. -/
def wrapped (index : Nat) : Int :=
  Int.bmod index 0x10000000000000000

/-- An index below `2 ^ 53` stays as it is in 64 bits. -/
theorem wrapped_eq {index : Nat} (h : index < 2 ^ 53) : wrapped index = index :=
  Int.bmod_eq_of_le_mul_two (by omega) (by omega)

/-- A switch over the variable finds the first case with the integer that was stored right
before. -/
structure SwitchesOn (M : Machine Stmt Expr) (join : String) : Prop where
  pick : ∀ {i a m}, M.step (.assign (.ident (joinIdent join)) (.integer i)) a true m →
    ∀ (ks : List (Option Nat)) r b,
      M.pick (.ident (joinIdent join)) (ks.map (·.map fun k => [.integer k])) m r b ↔
        r = some (ks.findIdx? fun k => k.map wrapped = some (wrapped i)) ∧ b = m

/-- The cases of the switch over the targets; the last one is the default. -/
def dispatchCases (bodies : List (List Stmt)) : List (Case Stmt Expr) :=
  bodies.zipIdx.map fun (body, i) =>
    ⟨if i + 1 < bodies.length then some [.integer i] else none, flows body ++ [.breakTo none]⟩

/-- The dispatch is a switch over the join variable. -/
theorem flow_dispatch (join : String) (bodies : List (List Stmt)) :
    (Parts.dispatch join bodies).flow =
      .switch (.ident (joinIdent join)) (dispatchCases bodies) := by
  rw [Parts.dispatch, Stmt.flow, dispatchCases, caseFlows_eq_map, List.map_map]
  rcases List.eq_nil_or_concat bodies with rfl | ⟨init, last, rfl⟩
  · rfl
  · congr 1
    rw [List.concat_eq_append, List.dropLast_concat, List.getLast?_concat, List.zipIdx_append,
      List.map_append, List.length_append]
    congr 1
    · refine List.map_congr_left fun p hp => ?_
      have hlt : p.2 + 1 < init.length + 1 := Nat.succ_lt_succ (List.snd_lt_of_mem_zipIdx hp)
      simp [hlt]
    · simp [defaultFlows]

/-- The tests of the cases are the numbers of the targets, and the last one is the default. -/
theorem tests_dispatchCases (bodies : List (List Stmt)) :
    (dispatchCases bodies).map (·.tests) =
      (caseNumbers bodies.length).map (·.map fun k => [.integer k]) := by
  refine List.ext_getElem (by simp [dispatchCases, caseNumbers]) fun i _ _ => ?_
  simp only [dispatchCases, caseNumbers, List.getElem_map, List.getElem_zipIdx, List.getElem_range,
    Nat.zero_add]
  split <;> rfl

/-- The code of the dispatcher and the switch run like the code that runs the target at the end of
the dispatcher. -/
theorem Selection.run_eq {M : Machine Stmt Expr} {join : String} {strategy : Strategy Expr}
    {bodies : List (List Stmt)} {e : Ir.Expr} {ss ps is : List Stmt}
    (h : Selection n ctx join bodies e ss ps is) (hM : SwitchesOn M join)
    (hbodies : ∀ body ∈ bodies, ∃ J, Obeys strategy.returns J (flows body))
    (hlen : bodies.length ≤ 2 ^ 53) :
    runAll M (flows (ss ++ [Parts.dispatch join bodies])) = runAll M (flows ps) := by
  have hselects : Selects (fun fs gs => ∃ first i body, bodies[i]? = some body ∧
      fs = first ++ [(select join i).flow] ∧ gs = first ++ (select join i).flow :: flows body)
      (flows ss) (flows ps) := by
    induction h with
    | @success index _ _ _ body stores _ _ _ _ hbody _ _ _ =>
      exact .ends ⟨flows stores, index, body, hbody, flows_append _ _, flows_append _ _⟩
    | ifThenElse _ _ _ ihthen ihelse =>
      rw [flows_append, flows_append]
      exact .after _ (.choose ihthen ihelse)
    | letIn _ _ ih =>
      rw [flows_append, flows_append]
      exact .after _ ih
    | cast _ ih => exact ih
  rw [flows_append]
  refine hselects.run_eq ?_
  rintro _ _ ⟨first, i, body, hbody, rfl, rfl⟩
  obtain ⟨hi, hget⟩ := List.getElem?_eq_some_iff.1 hbody
  obtain ⟨J, hobeys⟩ := hbodies body (List.mem_of_getElem? hbody)
  have hkey : ∀ j < bodies.length, wrapped j = wrapped i → j = i := fun j hj heq => by
    rw [wrapped_eq (Nat.lt_of_lt_of_le hj hlen), wrapped_eq (Nat.lt_of_lt_of_le hi hlen)] at heq
    exact Int.ofNat.inj heq
  have hland := landing_caseNumbers hi hkey fun k => [Expr.integer k]
  rw [← tests_dispatchCases] at hland
  have hcase : (dispatchCases bodies)[i]? =
      some ⟨if i + 1 < bodies.length then some [.integer i] else none,
        flows body ++ [.breakTo none]⟩ := by
    rw [List.getElem?_eq_getElem (by simpa [dispatchCases] using hi)]
    simp only [dispatchCases, List.getElem_map, List.getElem_zipIdx, Nat.zero_add, hget]
  have hend := runAll_store_switch (M := M) (fun hstep r b =>
    tests_dispatchCases bodies ▸ hM.pick hstep (caseNumbers bodies.length) r b) hland hcase hobeys
    (.inl rfl)
  rw [List.append_assoc, runAll_append, runAll_append M first, flows_cons, flow_dispatch]
  exact congrArg _ hend

/-! ## The tree -/

/-- The statements for a tree with shared targets: the variable for the index is new, each target
has one case with its body, lowered with the strategy of the tree, and the statements run like the
dispatcher with the targets in place. That each name stands for one variable is up to the names in
the tree and in the inline functions that it calls. -/
structure Switched (n : Nat) (ctx : Context) (strategy : Strategy Expr) (dispatcher : Ir.Expr)
    (targets : List Ir.Target) (s : LowerState) (stmts : List Stmt) (join : String)
    (declared : List Stmt) (bodies : List (List Stmt)) (ss ps is : List Stmt) : Prop where
  fresh : ¬ s.names.IsTaken join
  targetVariables : ∃ u v, Parts.targetVariables ctx targets u = (.ok declared, v)
  areBodies : AreBodies n ctx strategy targets bodies
  selection : Selection n (ctx.withTargets targets) join bodies dispatcher ss ps is
  eq : stmts = .declare (joinIdent join) .late none :: declared ++
    (ss ++ [Parts.dispatch join bodies])
  run : RunAlike scoping language (SwitchesOn · join) (flows stmts)
    (flows (.declare (joinIdent join) .late none :: declared ++ ps))
  run_inline : RunAlike scoping language (fun M => SwitchesOn M join ∧ DeclaresByStoring M)
    (flows stmts) (flows (.declare (joinIdent join) .late none :: is))

/-- A tree with shared targets is lowered to its dispatcher and a switch over the bodies. -/
theorem decisionTree_switched {strategy : Strategy Expr} {dispatcher : Ir.Expr}
    {targets : List Ir.Target} {stmts : List Stmt}
    (hshared : dispatcher.sharedTargets targets.length ≠ [])
    (hdispatcher : dispatcher.IsDispatcher targets)
    (hunit : ∀ t ∈ targets, ∀ id ∈ t.bound, id.ty.isUnit = false)
    (hlen : targets.length ≤ 2 ^ 53)
    (h : (rules (n + 1)).stmts ctx strategy (.decisionTree dispatcher targets) u = (.ok stmts, v)) :
    ∃ join declared bodies ss ps is,
      Switched n ctx strategy dispatcher targets u stmts join declared bodies ss ps is := by
  replace h : (rules n).decisionTree ctx strategy dispatcher targets u = (.ok stmts, v) := h
  have hempty : (dispatcher.sharedTargets targets.length).isEmpty = false := by
    simpa using hshared
  simp only [Parts.decisionTree, hempty, Bool.false_eq_true, if_false, bind_eq_ok, pure_eq_ok] at h
  obtain ⟨join, _, hjoin, declared, _, hdeclared, ss, _, hselect, bodies, _, hbodies, rfl, -⟩ := h
  replace hbodies := targetBodies_spec hbodies
  have hselection : ∃ ps is,
      Selection n (ctx.withTargets targets) join bodies dispatcher ss ps is :=
    selection_of_stmts hdispatcher hunit hbodies.length_eq.symm (Nat.le_refl n) hselect
  obtain ⟨ps, is, hselection⟩ := hselection
  have hfresh : ¬ u.names.IsTaken join := by
    obtain rfl := Except.ok.inj (Prod.mk.inj hjoin).1
    exact u.names.allocateLocal_not_isTaken _
  have hrun : ∀ M, SwitchesOn M join →
      runAll M (flows (.declare (joinIdent join) .late none :: declared ++
        (ss ++ [Parts.dispatch join bodies]))) =
      runAll M (flows (.declare (joinIdent join) .late none :: declared ++ ps)) := by
    intro M hM
    have hend := hselection.run_eq hM hbodies.obey (hbodies.length_eq ▸ hlen)
    rw [flows_append _ (ss ++ _), runAll_append, hend, ← runAll_append, ← flows_append]
  rw [List.append_assoc]
  refine ⟨join, declared, bodies, ss, ps, is, hfresh, ⟨_, _, hdeclared⟩, hbodies, hselection, rfl,
    .of_runAll hrun, .of_runAll fun M hM => ?_⟩
  simp only [Parts.targetVariables, bind_eq_ok, pure_eq_ok] at hdeclared
  obtain ⟨ids, _, -, rfl, -⟩ := hdeclared
  rw [hrun M hM.1, flows_append, runAll_append, flows_cons, flows_cons, runAll_cons, runAll_cons,
    hM.2.runAll_declarations, Runs.seq_exit_normal, hselection.run_binds hM.2]

end TypedLowering.Dart

/-!
## The join variable in Dart

If the dispatcher of a tree with shared targets ends in success nodes of the tree, then the code of
the tree stores nothing in the join variable but the indices that they select
(`decisionTree_storesOnly`).
-/

namespace TypedLowering.Dart

open Lower (Ensures bind_eq_ok pure_eq_ok)

/-- Code of a kind that stores numbers in a variable and does nothing else with it, apart from
declaring it and switching over it. -/
inductive StoresOnly (P : Use → Prop) (join : String) (p : Nat → Prop) : List Stmt → Prop
  | other {ss : List Stmt} : AllUsesStmts P ss → StoresOnly P join p ss
  | declared : StoresOnly P join p [.declare (joinIdent join) .late none]
  | select {i : Nat} : p i → StoresOnly P join p [select join i]
  | switch {bodies : List (List Stmt)} : (∀ body ∈ bodies, AllUsesStmts P body) →
      StoresOnly P join p [Parts.dispatch join bodies]
  | ifElse {test : Expr} {thenBody elseBody : List Stmt} : test.AllUses P →
      StoresOnly P join p thenBody → StoresOnly P join p elseBody →
      StoresOnly P join p [.ifElse test thenBody elseBody]
  | tryCatch {body : List Stmt} {handler : Option CatchClause} {finalizer : Option (List Stmt)} :
      StoresOnly P join p body → (∀ h ∈ handler, Binds P h.param.name) →
      (∀ h ∈ handler, StoresOnly P join p h.body) → AllUsesFinalizer P finalizer →
      StoresOnly P join p [.tryCatch body handler finalizer]
  | append {as bs : List Stmt} :
      StoresOnly P join p as → StoresOnly P join p bs → StoresOnly P join p (as ++ bs)

variable {P : Use → Prop} {n : Nat} {ctx : Context} {join : String} {p : Nat → Prop}

/-- Nodes that are evaluated for their effects, and then one that stores. -/
theorem sequence_storesOnly {es : List Ir.Expr} (hctx : Sourced P ctx)
    (hes : ∀ e ∈ es, e.AllUses P)
    (hlast : ∀ last ∈ es.getLast?,
      Ensures P ((rules n).stmts ctx (.join join) last) (StoresOnly P join p)) :
    Ensures P ((rules n).sequence ctx (.join join) es) (StoresOnly P join p) := by
  induction es with
  | nil => exact .pure (.other trivial)
  | cons e es ih =>
    obtain ⟨he, hes⟩ := List.forall_mem_cons.1 hes
    cases es with
    | nil => exact hlast e rfl
    | cons =>
      exact .bind ((rules_keepUses P n).stmts hctx.withoutTailCall trivial he) fun _ hfirst =>
        .bind (ih hes hlast) fun _ hrest => .pure (.append (.other hfirst) hrest)

/-- At its ends, a dispatcher stores indices of success nodes of its tree, and nowhere else. -/
theorem dispatcher_storesOnly {e : Ir.Expr} (he : e.EndsInSuccess) (hctx : Sourced P ctx)
    (huses : e.AllUses P) (hp : ∀ i ∈ e.selected, i < ctx.targets.length → p i) :
    Ensures P ((rules n).stmts ctx.withoutTailCall (.join join) e) (StoresOnly P join p) := by
  have hplain := hctx.withoutTailCall
  induction n generalizing e with
  | zero => exact .fail _
  | succ n ih =>
    have hkeep := rules_keepUses P n
    have hchild : ∀ {c}, c ∈ e.children → (∀ k, e.scopes k = e.children.map (k, ·)) →
        c.EndsInSuccess →
        Ensures P ((rules n).stmts ctx.withoutTailCall (.join join) c) (StoresOnly P join p) :=
      fun hc htree hends => ih hends (huses.of_child hc) fun i hi =>
        hp i (Ir.Expr.selected_subset_of_child htree hc hi)
    cases he with
    | success index values ty =>
      refine .bind (.ofOption _ fun t ht => ht) fun t ht => ?_
      obtain ⟨hbound, -⟩ := hctx.targets t (List.mem_of_getElem? ht)
      refine .bind (hkeep.assignments hplain (Use.forall_binders.1 hbound) fun v => huses.of_child)
        fun stmts hstmts => .pure (.append (.other hstmts)
          (.select (hp index ?_ (List.getElem?_eq_some_iff.1 ht).1)))
      rw [Ir.Expr.selected]
      exact List.mem_cons_self
    | @ifThenElse guard thenExpr elseExpr loc hthen helse =>
      -- a join strategy prefers statements
      have hrule : (rules (n + 1)).stmts ctx.withoutTailCall (.join join)
          (.ifThenElse guard thenExpr elseExpr loc) =
          (rules n).conditionalStmts ctx.withoutTailCall (.join join) guard thenExpr elseExpr := by
        show (Lower.isStatement ctx.withoutTailCall true _ >>= _) = _
        rw [Lower.isStatement, isStatement_of_prefers]
        rfl
      rw [hrule]
      exact .bind (hkeep.expr hplain.withoutTailCall (huses.of_child (.head _)))
        fun _ htest => .bind (hchild (.tail _ (.head _)) (fun _ => rfl) hthen) fun _ hthen =>
          .bind (hchild (.tail _ (.tail _ (.head _))) (fun _ => rfl) helse) fun _ helse =>
            .pure (.append (.other htest.before) (.ifElse htest.value hthen helse))
    | letIn id value hbody =>
      have hid := Use.forall_binders.1 huses.uses id List.mem_cons_self
      exact .bind (hkeep.declare hplain hid (huses.of_child (.head _))) fun _ hfirst =>
        .bind (hchild (.tail _ (.head _)) (fun _ => rfl) hbody) fun _ hrest =>
          .pure (.append (.other hfirst) hrest)
    | letRec bs hbody =>
      have hids := Use.forall_binders.1 huses.uses
      have hbs : ∀ b ∈ bs, Binds P b.ident.name ∧ b.value.AllUses P := fun b hb =>
        ⟨hids _ (List.mem_map_of_mem hb),
          huses.of_child (List.mem_append_left _ (List.mem_map_of_mem hb))⟩
      exact .bind (hkeep.recursive hplain hbs) fun _ hfirst =>
        .bind (hchild (List.mem_append_right _ (.head _)) (fun _ => rfl) hbody) fun _ hrest =>
          .pure (.append (.other hfirst) hrest)
    | sequence hlast =>
      exact sequence_storesOnly hplain (fun e => huses.of_child) fun last hmem =>
        hchild (List.mem_of_mem_getLast? hmem) (fun _ => rfl) (hlast last hmem)
    | cast ty hinner => exact hchild (.head _) (fun _ => rfl) hinner
    | @tryCatch body handler finalizer loc hbody hhandler =>
      refine .bind (hchild (.head _) (fun _ => rfl) hbody) fun block hblock => .bind
        (Q := fun o => (∀ h ∈ o, Binds P h.param.name) ∧ ∀ h ∈ o, StoresOnly P join p h.body) ?_
        fun o ho => .bind (hkeep.finalizer hplain ?_) fun _ hfinalizer =>
          .pure (.tryCatch hblock ho.1 ho.2 hfinalizer)
      · cases handler with
        | none => exact .pure ⟨by rintro _ ⟨⟩, by rintro _ ⟨⟩⟩
        | some hd =>
          have hparam := Use.forall_binders.1 huses.uses hd.param (.head _)
          refine .bind (lowerIdent_ensures _ _) fun param hplace =>
            .bind (hchild (.tail _ (.head _)) (fun _ => rfl) (hhandler hd rfl)) fun body hbody =>
              .pure ⟨fun h hh => ?_, fun h hh => ?_⟩
          · obtain rfl := Option.some.inj hh
            obtain ⟨ty, rfl⟩ := hplace
            exact hparam
          · obtain rfl := Option.some.inj hh
            exact hbody
      · intro e he
        exact huses.of_child (by simp [Ir.Expr.children, Option.mem_def.1 he])
    | throw error ty loc =>
      cases error with
      | some error =>
        exact .bind (hkeep.expr hplain.withoutTailCall (huses.of_child (.head _)))
          fun _ herror => .pure (.append (.other herror.before) (.other ⟨herror.value, trivial⟩))
      | none => exact .pure (.other ⟨trivial, trivial⟩)

/-- The code of a tree with shared targets: the dispatcher and a switch with the bodies of the
targets, which are lowered with the targets around. -/
structure Joined (n : Nat) (ctx : Context) (strategy : Strategy Expr) (targets : List Ir.Target)
    (stmts : List Stmt) (join : String) (dispatch : List Stmt) (bodies : List (List Stmt)) :
    Prop where
  areBodies : AreBodies n ctx strategy targets bodies
  eq : ∃ declared, stmts = .declare (joinIdent join) .late none :: declared ++ dispatch ++
    [Parts.dispatch join bodies]

/-- A tree with shared targets stores nothing in its join variable but the indices that the success
nodes of its dispatcher select, if the dispatcher ends in such nodes. -/
theorem decisionTree_storesOnly {inTemplate : String → String → Prop} {strategy : Strategy Expr}
    {d : Ir.Expr} {ts : List Ir.Target} {s t : LowerState} {stmts : List Stmt}
    (hends : d.EndsInSuccess) (hshared : d.sharedTargets ts.length ≠ [])
    (hinUse : InUse inTemplate ctx [] (.decisionTree d ts) s)
    (hstrategy : ∀ x, ¬ s.names.IsTaken x → x ∉ builtins →
      strategy.AllUses (Use.Avoids inTemplate x) (Expr.AllUses (Use.Avoids inTemplate x)))
    (h : (rules (n + 1)).stmts ctx strategy (.decisionTree d ts) s = (.ok stmts, t)) :
    ∃ join dispatch bodies, ¬ s.names.IsTaken join ∧
      Joined n ctx strategy ts stmts join dispatch bodies ∧
      StoresOnly (Use.Avoids inTemplate join) join (fun i => i ∈ d.selected ∧ i < ts.length)
        stmts := by
  replace h : (rules n).decisionTree ctx strategy d ts s = (.ok stmts, t) := h
  have hempty : (d.sharedTargets ts.length).isEmpty = false := by simpa using hshared
  simp only [Parts.decisionTree, hempty, Bool.false_eq_true, if_false, bind_eq_ok,
    pure_eq_ok] at h
  obtain ⟨join, u, hjoin, declared, v, hdeclared, dispatch, w, hdispatch, bodies, _, hbodies, rfl,
    -⟩ := h
  obtain ⟨hnew, hbuiltin, hopen⟩ := hinUse.open_join hjoin
  have hsourced := hinUse.sourced_new hnew hbuiltin
  have huses : (Ir.Expr.decisionTree d ts).AllUses (Use.Avoids inTemplate join) :=
    fun d hd use huse => (hinUse.body d hd use huse).avoids hnew hbuiltin
  have htree := hsourced.tree huses
  have hkeep := rules_keepUses (Use.Avoids inTemplate join) n
  obtain ⟨hv, hvariables⟩ :=
    Parts.KeepsUses.targetVariables_ensures htree.targets u declared v hopen hdeclared
  obtain ⟨hw, hdispatched⟩ := dispatcher_storesOnly
    (p := fun i => i ∈ d.selected ∧ i < ts.length) hends htree (huses.of_child List.mem_cons_self)
    (fun i hi hlt => ⟨hi, hlt⟩) v dispatch w hv hdispatch
  obtain ⟨-, hused⟩ := hkeep.targetBodies hsourced (hstrategy join hnew hbuiltin)
    (fun t ht => (htree.targets t ht).2) w bodies _ hw hbodies
  refine ⟨join, dispatch, bodies, hnew, ⟨targetBodies_spec hbodies, declared, rfl⟩, ?_⟩
  exact .append (.append (.append .declared (.other hvariables)) hdispatched) (.switch hused)

end TypedLowering.Dart
