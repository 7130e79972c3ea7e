import TypedLowering.Proofs.Dart.Flow
import TypedLowering.Proofs.Dart.Selection
import TypedLowering.Proofs.JavaScript.Flow
import TypedLowering.Proofs.JavaScript.Selection
import TypedLowering.Proofs.Lowering.Hygiene
import TypedLowering.Proofs.ReturnDiscipline

/-!
# Trees with shared targets run like trees without

A decision tree in which some target is shared is lowered to a dispatcher that stores values and an
index, and a switch over the index. It runs like the dispatcher with the targets in place, where the
values are bound and the body of the target runs right at the success node
(`decisionTree_runs_inPlace`).

Blocks have their own variables, so this needs names that stand for one variable each. Distinct
binders in the tree are not enough: a local of an inline function keeps its name, and may shadow the
variable of the index (`shadowedJoin_selectsOther`).
-/

namespace TypedLowering

open Control

/-- For a dispatcher of branches, bindings and casts, with targets that bind no units, in whatever
place. The number of targets keeps indices exact as doubles. -/
theorem decisionTree_runs_inPlace (n : Nat) (ctx : Context) (dispatcher : Ir.Expr)
    (targets : List Ir.Target) (s t : LowerState)
    (hshared : dispatcher.sharedTargets targets.length ≠ [])
    (hdispatcher : dispatcher.IsDispatcher targets)
    (hunit : ∀ target ∈ targets, ∀ id ∈ target.bound, id.ty.isUnit = false)
    (hlen : targets.length ≤ 2 ^ 53) :
    (∀ strategy stmts, (JavaScript.rules (n + 1)).stmts ctx strategy
        (.decisionTree dispatcher targets) s = (.ok stmts, t) →
      ∃ join bodies ss ps is,
        JavaScript.Switched n ctx strategy dispatcher targets s stmts join bodies ss ps is) ∧
    ∀ strategy stmts, (Dart.rules (n + 1)).stmts ctx strategy
        (.decisionTree dispatcher targets) s = (.ok stmts, t) →
      ∃ join declared bodies ss ps is,
        Dart.Switched n ctx strategy dispatcher targets s stmts join declared bodies ss ps is :=
  ⟨fun _ _ => JavaScript.decisionTree_switched hshared hdispatcher hunit hlen,
    fun _ _ => Dart.decisionTree_switched hshared hdispatcher hunit hlen⟩

/-! ## Stores for blocks -/

namespace JavaScript.Store

variable {inTemplate : String → String → Prop} {P : Use → Prop} {d d' : Depths}

/-- An expression has the same value under depths that agree on its names. -/
theorem value_seen (hP : ∀ u, P u → Use.Agrees inTemplate d d' u)
    (a : BlockStore (Option Binary64)) {e : Expr} (he : e.AllUses P) :
    value (a.seen d) e.form = value (a.seen d') e.form := by
  obtain ⟨loc, form⟩ := e
  cases form with
  | ident x =>
    have hx : d x = d' x := hP _ he x rfl
    rw [value, value, BlockStore.seen, BlockStore.seen, hx]
  | literal lit => cases lit <;> rfl
  | _ => rfl

/-- An assignment has the same effect under depths that agree on its names. -/
theorem update_put (hP : ∀ u, P u → Use.Agrees inTemplate d d' u) {name : String}
    (hname : P (.name name)) (a : BlockStore (Option Binary64)) {e : Expr} (he : e.AllUses P) :
    a.update d (put (a.seen d) name (value (a.seen d) e.form)) =
      a.update d' (put (a.seen d') name (value (a.seen d') e.form)) := by
  refine BlockStore.update_congr (x := name) (hP _ hname name rfl) ?_ (fun y hy => if_neg hy)
    fun y hy => if_neg hy
  rw [put, put, if_pos rfl, if_pos rfl, value_seen hP a he]

/-- A statement has the same effect under depths that agree on its names. -/
theorem update_after (hP : ∀ u, P u → Use.Agrees inTemplate d d' u)
    (a : BlockStore (Option Binary64)) {code : StmtForm} (hcode : code.AllUses P) :
    a.update d (after (a.seen d) code) = a.update d' (after (a.seen d') code) := by
  unfold after
  split
  · exact update_put hP hcode.1 a hcode.2
  · exact update_put hP hcode.1 a hcode.2.1
  · funext x
    rw [BlockStore.update_of_eq rfl, BlockStore.update_of_eq rfl]

/-- What a test passes depends on the variables that it mentions. -/
theorem passes_seen (hP : ∀ u, P u → Use.Agrees inTemplate d d' u)
    (a : BlockStore (Option Binary64)) {subject : Expr} (hsubject : subject.AllUses P)
    {test : Option (List Expr)} (htest : ∀ ts ∈ test, ∀ e ∈ ts, e.AllUses P) :
    passes (a.seen d) subject test = passes (a.seen d') subject test := by
  unfold passes
  split
  · rw [value_seen hP a hsubject, value_seen hP a (htest _ rfl _ List.mem_cons_self)]
  · rfl

/-- A switch goes to the first case whose test passes, in whatever place. -/
theorem pick_placed (d : Depths) (subject : Expr) (tests : List (Option (List Expr)))
    (a : BlockStore (Option Binary64)) (r : Option (Option Nat))
    (b : BlockStore (Option Binary64)) :
    blockMachine.pick (d, subject) (placedTests d tests) a r b ↔
      b = a ∧ r = some (tests.findIdx? (passes (a.seen d) subject)) := by
  rw [← findIdx?_placedTests d]
  exact Iff.rfl

/-- Statements do the same where their names stand for the same variables. -/
theorem blockMachine_isPlaced (inTemplate : String → String → Prop) :
    blockMachine.IsPlaced language inTemplate where
  step {_ d d'} hP code hcode := by
    funext a ok b
    show (ok = true ∧ b = a.update d _) = (ok = true ∧ b = a.update d' _)
    rw [update_after hP a hcode]
  test _ _ _ := rfl
  start _ _ _ := rfl
  next _ _ _ := rfl
  pick {_ d d'} hP e tests he htests := by
    funext a r b
    have hpasses := findIdx?_congr fun t ht => passes_seen hP a he (htests t ht)
    exact propext ((pick_placed d e tests a r b).trans
      (hpasses ▸ (pick_placed d' e tests a r b).symm))
  catches _ _ _ := rfl

/-- The machine with blocks goes to the case whose number the join variable has. -/
theorem blockMachine_switchesOn (join : String) (e : Depths) :
    SwitchesOn (blockMachine.inPlace e) join where
  pick {i a m} hstep ks r b := by
    obtain ⟨-, rfl⟩ := hstep
    generalize hm : a.update e (after (a.seen e) (.expr (.assign (.ident join) (.number i)))) = m
    have hjoin : m.seen e join = some (.ofNat i) := by
      subst hm
      exact (if_pos rfl).trans (if_pos rfl)
    have hpasses : (passes (m.seen e) (.ident join) ∘ fun k : Option Nat => k.map fun k =>
        [.number k]) = fun k => decide (k.map Binary64.ofNat = some (.ofNat i)) := by
      funext k
      cases k with
      | none => rfl
      | some k =>
        show decide (some (Binary64.ofNat k) = m.seen e join) = _
        rw [hjoin]
        rfl
    rw [← hpasses, ← List.findIdx?_map, and_comm]
    exact pick_placed e (.ident join) _ m r b

/-- The machine with blocks declares a variable by storing a value in it. -/
theorem blockMachine_declaresByStoring (e : Depths) :
    DeclaresByStoring (blockMachine.inPlace e) where
  declared {name a ok b} := by
    have hnone : BlockStore.update a e (BlockStore.seen a e) = a :=
      funext fun x => BlockStore.update_of_eq rfl
    show ok = true ∧ b = BlockStore.update a e (BlockStore.seen a e) ↔ _
    rw [hnone]
  bound {mode name value value' a ok b} hform := by
    show ok = true ∧ b = BlockStore.update a e (put _ name (Store.value _ value'.form)) ↔
      ok = true ∧ b = BlockStore.update a e (put _ name (Store.value _ value.form))
    rw [hform]

end JavaScript.Store

namespace Dart.Store

variable {inTemplate : String → String → Prop} {P : Use → Prop} {d d' : Depths}

/-- An expression has the same value under depths that agree on its names. -/
theorem value_seen (hP : ∀ u, P u → Use.Agrees inTemplate d d' u) (a : BlockStore (Option Int))
    {e : Expr} (he : e.AllUses P) : value (a.seen d) e = value (a.seen d') e := by
  cases e with
  | ident id =>
    obtain ⟨x, ty, importPrefix⟩ := id
    cases importPrefix with
    | some => rfl
    | none =>
      have hx : d x = d' x := hP _ he x rfl
      rw [value, value, BlockStore.seen, BlockStore.seen, hx]
  | literal lit => cases lit <;> rfl
  | _ => rfl

/-- An assignment has the same effect under depths that agree on its names. -/
theorem update_put (hP : ∀ u, P u → Use.Agrees inTemplate d d' u) {name : String}
    (hname : P (.name name)) (a : BlockStore (Option Int)) {e : Expr} (he : e.AllUses P) :
    a.update d (put (a.seen d) name (value (a.seen d) e)) =
      a.update d' (put (a.seen d') name (value (a.seen d') e)) := by
  refine BlockStore.update_congr (x := name) (hP _ hname name rfl) ?_ (fun y hy => if_neg hy)
    fun y hy => if_neg hy
  rw [put, put, if_pos rfl, if_pos rfl, value_seen hP a he]

/-- A statement has the same effect under depths that agree on its names. -/
theorem update_after (hP : ∀ u, P u → Use.Agrees inTemplate d d' u)
    (a : BlockStore (Option Int)) {code : Stmt} (hcode : code.AllUses P) :
    a.update d (after (a.seen d) code) = a.update d' (after (a.seen d') code) := by
  unfold after
  split
  · exact update_put hP hcode.1 a hcode.2
  · exact update_put hP hcode.1.1 a hcode.2
  · funext x
    rw [BlockStore.update_of_eq rfl, BlockStore.update_of_eq rfl]

/-- What a test passes depends on the variables that it mentions. -/
theorem passes_seen (hP : ∀ u, P u → Use.Agrees inTemplate d d' u) (a : BlockStore (Option Int))
    {subject : Expr} (hsubject : subject.AllUses P) {test : Option (List Expr)}
    (htest : ∀ ts ∈ test, ∀ e ∈ ts, e.AllUses P) :
    passes (a.seen d) subject test = passes (a.seen d') subject test := by
  unfold passes
  split
  · rw [value_seen hP a hsubject, value_seen hP a (htest _ rfl _ List.mem_cons_self)]
  · rfl

/-- A switch goes to the first case whose test passes, in whatever place. -/
theorem pick_placed (d : Depths) (subject : Expr) (tests : List (Option (List Expr)))
    (a : BlockStore (Option Int)) (r : Option (Option Nat)) (b : BlockStore (Option Int)) :
    blockMachine.pick (d, subject) (placedTests d tests) a r b ↔
      b = a ∧ r = some (tests.findIdx? (passes (a.seen d) subject)) := by
  rw [← findIdx?_placedTests d]
  exact Iff.rfl

/-- Statements do the same where their names stand for the same variables. -/
theorem blockMachine_isPlaced (inTemplate : String → String → Prop) :
    blockMachine.IsPlaced language inTemplate where
  step {_ d d'} hP code hcode := by
    funext a ok b
    show (ok = true ∧ b = a.update d _) = (ok = true ∧ b = a.update d' _)
    rw [update_after hP a hcode]
  test _ _ _ := rfl
  start _ _ _ := rfl
  next _ _ _ := rfl
  pick {_ d d'} hP e tests he htests := by
    funext a r b
    have hpasses := findIdx?_congr fun t ht => passes_seen hP a he (htests t ht)
    exact propext ((pick_placed d e tests a r b).trans
      (hpasses ▸ (pick_placed d' e tests a r b).symm))
  catches _ _ _ := rfl

/-- The machine with blocks goes to the case whose number the join variable has. -/
theorem blockMachine_switchesOn (join : String) (e : Depths) :
    SwitchesOn (blockMachine.inPlace e) join where
  pick {i a m} hstep ks r b := by
    obtain ⟨-, rfl⟩ := hstep
    generalize hm : a.update e (after (a.seen e)
      (.assign (.ident (joinIdent join)) (.integer i))) = m
    have hjoin : value (m.seen e) (.ident (joinIdent join)) = some (wrapped i) := by
      subst hm
      exact (if_pos rfl).trans (if_pos rfl)
    have hpasses : (passes (m.seen e) (.ident (joinIdent join)) ∘ fun k : Option Nat =>
        k.map fun k => [.integer k]) = fun k => decide (k.map wrapped = some (wrapped i)) := by
      funext k
      cases k with
      | none => rfl
      | some k =>
        rw [Function.comp_apply, Option.map_some, passes, hjoin]
        rfl
    rw [← hpasses, ← List.findIdx?_map, and_comm]
    exact pick_placed e (.ident (joinIdent join)) _ m r b

/-- The machine with blocks declares a variable by storing a value in it. -/
theorem blockMachine_declaresByStoring (e : Depths) :
    DeclaresByStoring (blockMachine.inPlace e) where
  declared {id kind a ok b} := by
    have hnone : BlockStore.update a e (BlockStore.seen a e) = a :=
      funext fun x => BlockStore.update_of_eq rfl
    show ok = true ∧ b = BlockStore.update a e (BlockStore.seen a e) ↔ _
    rw [hnone]
  bound := Iff.rfl

end Dart.Store

/-! ## A tree that selects one of its targets twice -/

/-- The targets of `treeDispatcher`. -/
def treeTargets : List Ir.Target :=
  [⟨[flag "p"], .ident (flag "p")⟩, ⟨[], .ident (flag "a")⟩]

/-- A dispatcher that selects the first target with the value of `b` or of `a`. -/
def treeDispatcher : Ir.Expr :=
  .ifThenElse (.ident (flag "a")) (.success 0 [.ident (flag "b")] .boolean)
    (.ifThenElse (.ident (flag "b")) (.success 0 [.ident (flag "a")] .boolean)
      (.success 1 [] .boolean) none) none

/-- The state at the start of a file that uses these names. -/
def treeState : LowerState := .start .empty ["a", "b", "p"] []

/-- The variables of the code for the tree: the index, and what the first target binds. -/
def treePlace : Depths :=
  fun x => if x ∈ ["matchResult", "p"] then 1 else 0

/-- In the code with the targets in place, each name stands for one variable. -/
theorem JavaScript.treeInPlace_standFor {join : String} {bodies : List (List Stmt)}
    {ss ps is : List Stmt} (hjoin : join = "matchResult")
    (hbodies : AreBodies 7 (.ofFile bareFile) .ret treeTargets bodies)
    (h : Selection 7 ((Context.ofFile bareFile).withTargets treeTargets) join bodies treeDispatcher
      ss ps is) :
    StandFor scoping language (fun _ _ => False) treePlace (fun _ => 0)
      (flows (.declare .let join none :: is)) := by
  subst hjoin
  obtain - | ⟨⟨_, _, hfirst⟩, - | ⟨⟨_, _, hsecond⟩, -⟩⟩ := hbodies
  cases hfirst
  cases hsecond
  rw [treeDispatcher] at h
  cases h with
  | ifThenElse hguard hthen helse =>
    cases hguard
    cases hthen with
    | success ht hbody _ hbinds =>
      cases ht
      cases hbody
      cases hbinds
      cases helse with
      | ifThenElse hguard hthen helse =>
        cases hguard
        cases hthen with
        | success ht hbody _ hbinds =>
          cases ht
          cases hbody
          cases hbinds
          cases helse with
          | success ht hbody _ hbinds =>
            cases ht
            cases hbody
            cases hbinds
            rw [StandFor]
            repeat' apply And.intro
            all_goals first | trivial | exact .name rfl

/-- In the code with the targets in place, each name stands for one variable. -/
theorem Dart.treeInPlace_standFor {join : String} {bodies : List (List Stmt)}
    {ss ps is : List Stmt} (hjoin : join = "matchResult")
    (hbodies : AreBodies 7 (.ofFile bareFile) .ret treeTargets bodies)
    (h : Selection 7 ((Context.ofFile bareFile).withTargets treeTargets) join bodies treeDispatcher
      ss ps is) :
    StandFor scoping language (fun _ _ => False) treePlace (fun _ => 0)
      (flows (.declare (joinIdent join) .late none :: is)) := by
  subst hjoin
  obtain - | ⟨⟨_, _, hfirst⟩, - | ⟨⟨_, _, hsecond⟩, -⟩⟩ := hbodies
  cases hfirst
  cases hsecond
  rw [treeDispatcher] at h
  cases h with
  | ifThenElse hguard hthen helse =>
    cases hguard
    cases hthen with
    | success ht hbody _ hbinds =>
      cases ht
      cases hbody
      cases hbinds
      cases helse with
      | ifThenElse hguard hthen helse =>
        cases hguard
        cases hthen with
        | success ht hbody _ hbinds =>
          cases ht
          cases hbody
          cases hbinds
          cases helse with
          | success ht hbody _ hbinds =>
            cases ht
            cases hbody
            cases hbinds
            rw [StandFor]
            repeat' apply And.intro
            all_goals first | trivial | exact .name rfl | exact .binder rfl

/-- A tree that selects one target twice runs like its dispatcher with the targets in place. -/
theorem tree_runs_inPlace :
    (∃ stmts t join bodies ss ps is, (JavaScript.rules 8).stmts (.ofFile bareFile) .ret
        (.decisionTree treeDispatcher treeTargets) treeState = (.ok stmts, t) ∧
      JavaScript.Switched 7 (.ofFile bareFile) .ret treeDispatcher treeTargets treeState stmts join
        bodies ss ps is ∧
      runAll JavaScript.Store.blockMachine
          (placedBlock JavaScript.scoping (fun _ => 0) (JavaScript.flows stmts)) =
        runAll JavaScript.Store.blockMachine (placedBlock JavaScript.scoping (fun _ => 0)
          (JavaScript.flows (.declare .let join none :: is)))) ∧
    ∃ stmts t join declared bodies ss ps is, (Dart.rules 8).stmts (.ofFile bareFile) .ret
        (.decisionTree treeDispatcher treeTargets) treeState = (.ok stmts, t) ∧
      Dart.Switched 7 (.ofFile bareFile) .ret treeDispatcher treeTargets treeState stmts join
        declared bodies ss ps is ∧
      runAll Dart.Store.blockMachine (placedBlock Dart.scoping (fun _ => 0) (Dart.flows stmts)) =
        runAll Dart.Store.blockMachine (placedBlock Dart.scoping (fun _ => 0)
          (Dart.flows (.declare (Dart.joinIdent join) .late none :: is))) := by
  have hshared : treeDispatcher.sharedTargets treeTargets.length ≠ [] := by decide
  have hdispatcher : treeDispatcher.IsDispatcher treeTargets := by
    refine .ifThenElse (Ir.Expr.isPlain_ident _) (.success rfl rfl ?_)
      (.ifThenElse (Ir.Expr.isPlain_ident _) (.success rfl rfl ?_) (.success rfl rfl nofun))
    all_goals
      rintro value hvalue
      obtain rfl := List.mem_singleton.1 hvalue
      exact Ir.Expr.isPlain_ident _
  have hunit : ∀ target ∈ treeTargets, ∀ id ∈ target.bound, id.ty.isUnit = false := by decide
  have hlen : treeTargets.length ≤ 2 ^ 53 := by decide
  have h := fun t => decisionTree_runs_inPlace 7 (.ofFile bareFile) treeDispatcher treeTargets
    treeState t hshared hdispatcher hunit hlen
  obtain ⟨join, bodies, ss, ps, is, hjs⟩ := (h _).1 .ret _ rfl
  obtain ⟨join', declared, bodies', ss', ps', is', hdart⟩ := (h _).2 .ret _ rfl
  have hjsRun := hjs.run_inline JavaScript.Store.blockMachine (fun _ _ => False) treePlace
    (fun _ => 0) (JavaScript.Store.blockMachine_isPlaced _)
    ⟨JavaScript.Store.blockMachine_switchesOn join _,
      JavaScript.Store.blockMachine_declaresByStoring _⟩ ?_ ?_
  have hdartRun := hdart.run_inline Dart.Store.blockMachine (fun _ _ => False) treePlace
    (fun _ => 0) (Dart.Store.blockMachine_isPlaced _)
    ⟨Dart.Store.blockMachine_switchesOn join' _, Dart.Store.blockMachine_declaresByStoring _⟩ ?_ ?_
  · exact ⟨⟨_, _, join, bodies, ss, ps, is, rfl, hjs, hjsRun⟩,
      _, _, join', declared, bodies', ss', ps', is', rfl, hdart, hdartRun⟩
  · rw [StandFor]
    repeat' apply And.intro
    all_goals first | trivial | exact .name rfl | exact .binder rfl | rintro _ ⟨⟩
    exact List.forall_mem_singleton.2 trivial
  · have hjoin := (List.cons.inj (congrArg Dart.introduced hdart.eq)).1.symm
    exact Dart.treeInPlace_standFor hjoin hdart.areBodies hdart.selection
  · rw [StandFor]
    repeat' apply And.intro
    all_goals first | trivial | exact .name rfl | exact .binder rfl | rintro _ ⟨⟩
    exact List.forall_mem_singleton.2 trivial
  · have hjoin := (List.cons.inj (congrArg JavaScript.introduced hjs.eq)).1.symm
    exact JavaScript.treeInPlace_standFor hjoin hjs.areBodies hjs.selection

/-! ## A join variable that is shadowed -/

/-- `f p = let mutable matchResult = p in matchResult`. -/
def joinLocal : InlineFunction where
  args := [flag "p"]
  body := .letIn { flag "matchResult" with isMutable := true } (.ident (flag "p"))
    (.ident { flag "matchResult" with isMutable := true })

/-- Two targets that bind nothing. -/
def flagTargets : List Ir.Target :=
  [⟨[], .ident (flag "a")⟩, ⟨[], .ident (flag "b")⟩]

/-- `if g then (let l = f a in success 0) else if b then success 0 else success 1`, with the inline
function. -/
def shadowingDispatcher : Ir.Expr :=
  .ifThenElse (.ident (flag "g"))
    (.letIn (flag "l") (.call inlineCallee none [.ident (flag "a")] false .boolean none)
      (.success 0 [] .boolean))
    (.ifThenElse (.ident (flag "b")) (.success 0 [] .boolean) (.success 1 [] .boolean) none) none

/-- A declaration that uses these names is being lowered. -/
def selectionState : LowerState :=
  ⟨⟨[], [], ["a", "b", "g", "l", "r"], []⟩, [], .empty, [], false⟩

/-- What steps one after the other leave in the variables. -/
theorem Dart.Store.runAll_steps (codes : List (Depths × Dart.Stmt)) (a : BlockStore (Option Int)) :
    runAll blockMachine (codes.map .step) a .normal
      (codes.foldl (fun a c => a.update c.1 (after (a.seen c.1) c.2)) a) := by
  induction codes generalizing a with
  | nil => exact ⟨rfl, rfl⟩
  | cons c codes ih => exact .inr ⟨_, .inl ⟨⟨rfl, rfl⟩, rfl⟩, ih _⟩

/-- The branch of the dispatcher that selects the first target stores its index in the local of the
inline function, so the switch goes to the second target. -/
theorem shadowedJoin_selectsOther :
    shadowingDispatcher.sharedTargets flagTargets.length ≠ [] ∧
    shadowingDispatcher.IsDispatcher flagTargets ∧
    ∃ stmts t declare test elseFlows switch, ∃ codes : List (Depths × Dart.Stmt),
      (Dart.rules 12).stmts (.ofFile (inlineFile joinLocal)) (.assign (.ident (.own "r" .boolean)))
        (.decisionTree shadowingDispatcher flagTargets) selectionState = (.ok stmts, t) ∧
      placedBlock Dart.scoping (fun _ => 0) (Dart.flows stmts) =
        [.step declare, .choose test (codes.map .step) elseFlows, switch] ∧
      ∃ a m b, runAll Dart.Store.blockMachine (codes.map .step) a .normal m ∧
        switch.run Dart.Store.blockMachine [] m .normal b ∧ b "r" 0 = a "b" 0 ∧
          a "b" 0 ≠ a "a" 0 := by
  refine ⟨by decide, ?_, _, _, _, _, _, _, [_, _, _, _, _, _], rfl, rfl,
    fun x _ => if x = "a" then some 1 else if x = "b" then some 2 else none, _, _,
    Dart.Store.runAll_steps _ _, ⟨some none, _, ⟨rfl, ?_⟩, .broke none, Or.inl ⟨Or.inr
      ⟨_, Or.inl ⟨⟨rfl, rfl⟩, rfl⟩, Or.inl ⟨⟨rfl, rfl⟩, nofun⟩⟩, nofun⟩, rfl⟩, ?_, ?_⟩
  · have hcall : Ir.Expr.IsPlain
        (.call inlineCallee none [.ident (flag "a")] false .boolean none) := by
      rw [inlineCallee]
      exact List.forall_mem_cons.2 ⟨⟨nofun, nofun⟩,
        List.forall_mem_cons.2 ⟨⟨nofun, nofun⟩, Ir.Expr.isPlain_ident _⟩⟩
    exact .ifThenElse (Ir.Expr.isPlain_ident _) (.letIn hcall (.success rfl rfl nofun))
      (.ifThenElse (Ir.Expr.isPlain_ident _) (.success rfl rfl nofun) (.success rfl rfl nofun))
  · decide
  · decide
  · decide

end TypedLowering
