import TypedLowering.Proofs.Dart.Update
import TypedLowering.Proofs.JavaScript.Flow
import TypedLowering.Proofs.JavaScript.Function
import TypedLowering.Proofs.ReturnDiscipline

/-!
# Self tail calls update all parameters at once

A self tail call assigns the slots one after the other and jumps. At the jump, each slot has the
value that its argument has for the parameters of the current iteration, whatever the arguments
mention, and the parameters themselves have not changed (`selfCalls_updateSlots`). In Dart the
statements that have to run before an argument overtake the arguments in front of it, and this only
holds if they do not change the values of these (`overtaken_update_fails`).
-/

namespace TypedLowering

open Control

/-! ## Machines -/

namespace JavaScript.Store

variable {a b : Store} {x : String}

theorem put_self (v : Option Binary64) : a.put x v x = v := if_pos rfl

theorem put_of_ne {y : String} (h : y ≠ x) (v : Option Binary64) : a.put x v y = a y := if_neg h

/-- How code reads and writes stores. -/
def access : Variables machine language where
  Value := Option Binary64
  get a := a
  set a := a.put
  eval e a v b := v = a.value e.form ∧ b = a
  get_set_self _ _ v := put_self v
  get_set_of_ne _ _ _ v h := put_of_ne h v
  set_get a x := by
    funext y
    by_cases h : y = x
    · subst h
      exact put_self _
    · exact put_of_ne h _
  eval_variable := by
    rintro x ⟨loc, form⟩ a b v h
    obtain rfl : form = .ident x := h
    exact Iff.rfl
  step_assign := by
    rintro x e _ a b rfl
    constructor
    · rintro ⟨-, rfl⟩
      exact ⟨_, a, ⟨rfl, rfl⟩, rfl⟩
    · rintro ⟨_, _, ⟨rfl, rfl⟩, rfl⟩
      exact ⟨rfl, rfl⟩

/-- Code has nothing to do with the variables that it does not mention. -/
theorem access_local (inTemplate : String → String → Prop) : access.Local inTemplate := by
  have hvalue : ∀ {x e} {a : Store} {v}, Expr.AllUses (Use.Avoids inTemplate x) e →
      (a.put x v).value e.form = a.value e.form := by
    rintro x ⟨loc, form⟩ a v h
    show Store.value _ form = Store.value _ form
    unfold value
    split
    · rfl
    · exact put_of_ne h v
    · rfl
  constructor
  · intro x e h a v w b
    constructor
    · rintro ⟨rfl, rfl⟩
      exact ⟨a, ⟨hvalue h, rfl⟩, rfl⟩
    · rintro ⟨_, ⟨rfl, rfl⟩, rfl⟩
      exact ⟨(hvalue h).symm, rfl⟩
  · intro x
    refine ⟨fun _ => rfl, fun hab hbc => hbc.trans hab, ?_, fun _ h => congrFun h.2 x,
      fun _ h => congrFun h.2 x, fun _ h => congrFun h.2 x, fun _ _ h => congrFun h.1 x,
      fun _ h => congrFun h x⟩
    rintro code a ok b h ⟨-, rfl⟩
    show a.after code x = a x
    unfold after
    split
    · exact put_of_ne (Ne.symm h.1) _
    · exact put_of_ne (Ne.symm h.1) _
    · rename_i hassign hdeclare
      exact congrFun (after.eq_3 a code hassign hdeclare) x

end JavaScript.Store

/-! ## Jumps -/

/-- Whether the statements right in front of every jump to the next iteration have a property. -/
def JumpsAfter {σ ε : Type} (Own : List (Flow σ ε) → Prop) (fs : List (Flow σ ε)) : Prop :=
  ∀ B ∈ blocks false fs, ∀ pre label post, B.flows = pre ++ .continueTo label :: post →
    ∃ rest own, pre = rest ++ own ∧ Own own

/-- If all names that a function may mention are in use, then each jump of the loop that it becomes
is a self call that updates the slots of the loop. -/
theorem selfCalls_updateSlots (inTemplate : String → String → Prop) (n : Nat) (ctx : Context)
    (name : Option String) (params : List Ir.Ident) (body : Ir.Expr) (s : LowerState)
    (loop : TailCall) (huse : InUse inTemplate ctx params body s) :
    (∀ inner, JavaScript.BecomesLoop n ctx name params body s loop inner →
      JumpsAfter (JavaScript.UpdatesSlots inTemplate ctx loop body)
        (JavaScript.flows (JavaScript.copies loop ++ inner))) ∧
    ∀ inner tys, Dart.BecomesLoop n ctx name params body s loop inner →
      JumpsAfter (Dart.UpdatesSlots inTemplate ctx loop body)
        (Dart.flows (List.zipWith Dart.copy loop.bindings tys ++ inner)) := by
  constructor
  · intro inner hloop B hB pre label post he
    obtain ⟨_, u, v, -, hallocate, hobeys⟩ := hloop.obeys
    obtain ⟨-, -, rest, own, rfl, hcall⟩ := hobeys.jump_of_mem hB he
    exact ⟨rest, own, rfl, .of_selfCall huse hallocate hcall⟩
  · intro inner tys hloop B hB pre label post he
    obtain ⟨_, s₁, u, v, -, hg, hallocate, hobeys⟩ := hloop.obeys
    obtain ⟨-, -, rest, own, rfl, hcall⟩ := (hobeys tys).jump_of_mem hB he
    exact ⟨rest, own, rfl, .of_selfCall huse hg hallocate hcall⟩

/-! ## Parameters that are swapped -/

/-- A function of a file in which nothing is declared, with names of the root scope only. -/
theorem InUse.of_bare (inTemplate : String → String → Prop) {params : List Ir.Ident}
    {body : Ir.Expr} {root : List String} (hparams : ∀ p ∈ params, p.name ∈ root)
    (hbody : ∀ u ∈ body.subterms.flatMap Ir.Expr.uses, ∃ x ∈ root, u.variable? = some x) :
    InUse inTemplate (.ofFile bareFile) params body (.start .empty root []) := by
  have htaken : ∀ x ∈ root, (LowerState.start .empty root []).names.IsTaken x :=
    fun x hx => .inl (Scopes.mem_union.2 (.inr hx))
  refine ⟨fun p hp => htaken _ (hparams p hp), fun d hd u hu => ?_,
    ⟨fun x => .inr, fun _ _ h => (by cases h), nofun, nofun, nofun⟩, nofun, nofun⟩
  obtain ⟨x, hx, hu⟩ := hbody u (List.mem_flatMap.2 ⟨d, hd, hu⟩)
  cases u with
  | name y => exact .inl (Option.some.inj hu ▸ htaken x hx)
  | binder y => exact (Option.some.inj hu ▸ htaken x hx : Scopes.IsTaken _ y)
  | template | entity => cases hu

/-- The loop of the function that swaps its parameters. -/
def swapLoop : TailCall := ⟨"f", [flag "a", flag "b"], ["a_mut", "b_mut"]⟩

theorem swap_inUse (inTemplate : String → String → Prop) :
    InUse inTemplate (.ofFile bareFile) [flag "a", flag "b"] swapBody swapState :=
  .of_bare inTemplate (by decide) (by decide)

/-- The self call is the only call, and its arguments are the parameters. -/
theorem swap_args {ctx ctx' : Context} {callee : Ir.Expr} {receiver : Option Ir.Expr}
    {args : List Ir.Expr} {isNew : Bool} {ty : Ir.Ty} {loc : Option Ir.Location}
    (hctx : ctx.targets = [])
    (h : Within ctx swapBody ctx' (.call callee receiver args isNew ty loc)) :
    discardUnitArg args = [.ident (flag "b"), .ident (flag "a")] := by
  rcases h.node _ (Ir.Expr.self_mem_subterms _) with hmem | ⟨t, ht, -⟩
  · have hsub : swapBody.subterms = [swapBody, .ident (flag "a"),
        .call (.ident (flag "f")) none [.ident (flag "b"), .ident (flag "a")] false .boolean none,
        .ident (flag "f"), .ident (flag "b"), .ident (flag "a"), .ident (flag "b")] := rfl
    rw [hsub] at hmem
    simp [swapBody] at hmem
    obtain ⟨-, -, rfl, -⟩ := hmem
    rfl
  · rw [hctx] at ht
    cases ht

/-- The jump of the function that swaps its parameters updates both slots at once. -/
theorem swap_updateSlots :
    (∃ inner rest own, JavaScript.BecomesLoop 8 (.ofFile bareFile) (some "f")
        [flag "a", flag "b"] swapBody swapState swapLoop inner ∧
      (∃ B ∈ blocks false (JavaScript.flows (JavaScript.copies swapLoop ++ inner)),
        B.flows = rest ++ own ++ [.continueTo (some "f")]) ∧
      ∀ a b : JavaScript.Store, a "a_mut" = a "a" → a "b_mut" = a "b" →
        runAll JavaScript.Store.machine own a .normal b →
        b "a_mut" = a "b" ∧ b "b_mut" = a "a") ∧
    ∃ inner rest own, Dart.BecomesLoop 8 (.ofFile bareFile) (some "f")
        [flag "a", flag "b"] swapBody swapState swapLoop inner ∧
      (∃ B ∈ blocks false (Dart.flows
          (List.zipWith Dart.copy swapLoop.bindings [.boolean, .boolean] ++ inner)),
        B.flows = rest ++ own ++ [.continueTo (some "f")]) ∧
      ∀ a b : Dart.Registers, a "a_mut" = a "a" → a "b_mut" = a "b" →
        runAll Dart.Registers.machine own a .normal b →
        b "a_mut" = a "b" ∧ b "b_mut" = a "a" := by
  obtain ⟨hjs, hdart⟩ := selfCalls_updateSlots (fun _ _ => False) 8 (.ofFile bareFile) (some "f")
    [flag "a", flag "b"] swapBody swapState swapLoop (swap_inUse _)
  constructor
  · have hloop : JavaScript.BecomesLoop 8 (.ofFile bareFile) (some "f")
        [flag "a", flag "b"] swapBody swapState swapLoop
        [.of (.ifElse (.ident "a")
          [.expr (.assign (.ident "a_mut") (.ident "b")),
            .expr (.assign (.ident "b_mut") (.ident "a")), .of (.continueTo (some "f"))]
          [.of (.ret (some (.ident "b")))])] :=
      ⟨"f", _, _, rfl, by decide, rfl, rfl, rfl⟩
    obtain ⟨rest, own, hpre, n, ctx', _, _, args, _, _, _, values, hw, hlowers, hupdates⟩ :=
      hjs _ hloop _ (List.mem_cons_of_mem _ List.mem_cons_self)
        [.step (.expr (.assign (.ident "a_mut") (.ident "b"))),
          .step (.expr (.assign (.ident "b_mut") (.ident "a")))] _ [] rfl
    rw [swap_args rfl hw] at hlowers
    refine ⟨_, rest, own, hloop, ⟨_, List.mem_cons_of_mem _ List.mem_cons_self, ?_⟩,
      fun a b ha hb hrun => ?_⟩
    · rw [← hpre]
      rfl
    · have hupdates := hupdates _ _ (JavaScript.Store.access_local _)
        fun p _ e _ a v b h => congrFun h.2 p.name
      obtain ⟨v, _, hfirst, hrest, rfl⟩ := List.forall₂_cons_left_iff.1 hlowers
      obtain ⟨w, _, hsecond, hnil, rfl⟩ := List.forall₂_cons_left_iff.1 hrest
      obtain rfl := List.forall₂_nil_left_iff.1 hnil
      have hargs : List.Forall₂ (fun x (y : Argument JavaScript.StmtForm JavaScript.Expr) =>
          y.before = [] ∧ JavaScript.language.IsVariable x y.value) ["b", "a"]
          ([v, w].map (⟨[], ·⟩)) :=
        .cons ⟨rfl, hfirst.isVariable rfl⟩ (.cons ⟨rfl, hsecond.isVariable rfl⟩ .nil)
      have hmoves := hupdates.moves hargs
        (List.forall_mem_cons.2 ⟨ha, List.forall_mem_singleton.2 hb⟩) hrun
      obtain _ | ⟨hfirst, _ | ⟨hsecond, _⟩⟩ := hmoves
      exact ⟨hfirst, hsecond⟩
  · have hloop : Dart.BecomesLoop 8 (.ofFile bareFile) (some "f")
        [flag "a", flag "b"] swapBody swapState swapLoop
        [.ifElse (.ident (.own "a" .boolean))
          [.assign (.ident (.own "a_mut" .boolean)) (.ident (.own "b" .boolean)),
            .assign (.ident (.own "b_mut" .boolean)) (.ident (.own "a" .boolean)),
            .continueTo (some "f")]
          [.ret (some (.ident (.own "b" .boolean)))]] :=
      ⟨"f", _, _, _, _, rfl, by decide, rfl, rfl, rfl, rfl⟩
    obtain ⟨rest, own, hpre, n, ctx', _, _, args, _, _, _, values, hw, hlowers, hupdates⟩ :=
      hdart _ [.boolean, .boolean] hloop _ (List.mem_cons_of_mem _ List.mem_cons_self)
        [.step (.assign (.ident (.own "a_mut" .boolean)) (.ident (.own "b" .boolean))),
          .step (.assign (.ident (.own "b_mut" .boolean)) (.ident (.own "a" .boolean)))] _ [] rfl
    rw [swap_args rfl hw] at hlowers
    refine ⟨_, rest, own, hloop, ⟨_, List.mem_cons_of_mem _ List.mem_cons_self, ?_⟩,
      fun a b ha hb hrun => ?_⟩
    · rw [← hpre]
      rfl
    · obtain ⟨v, _, hfirst, hrest, rfl⟩ := List.forall₂_cons_left_iff.1 hlowers
      obtain ⟨w, _, hsecond, hnil, rfl⟩ := List.forall₂_cons_left_iff.1 hrest
      obtain rfl := List.forall₂_nil_left_iff.1 hnil
      obtain ⟨hv, hb'⟩ := hfirst.isVariable rfl
      obtain ⟨hw, ha'⟩ := hsecond.isVariable rfl
      have hbare : ∀ value ∈ [v, w], value.before = [] :=
        List.forall_mem_cons.2 ⟨hv, List.forall_mem_singleton.2 hw⟩
      have hupdates := hupdates _ _ (Dart.Registers.access_local _)
        (fun p _ value hvalue => ⟨Dart.Registers.access_leaves _ _, fun a b hrun => by
          rw [hbare value hvalue] at hrun
          exact congrFun hrun.2 p.name⟩)
        (List.pairwise_pair.2 (by rw [hw]; exact Variables.commutes_nil _))
      have hargs : List.Forall₂ (fun x (y : Argument Dart.Stmt Dart.Expr) =>
          y.before = [] ∧ Dart.language.IsVariable x y.value) ["b", "a"]
          ([v, w].map (·.argument)) :=
        .cons ⟨congrArg Dart.flows hv, hb'⟩ (.cons ⟨congrArg Dart.flows hw, ha'⟩ .nil)
      have hmoves := hupdates.moves hargs
        (List.forall_mem_cons.2 ⟨ha, List.forall_mem_singleton.2 hb⟩) hrun
      obtain _ | ⟨hfirst, _ | ⟨hsecond, _⟩⟩ := hmoves
      exact ⟨hfirst, hsecond⟩

/-! ## An argument that is overtaken -/

/-- A local of a number type. -/
def whole (name : String) (isMutable : Bool) : Ir.Ident :=
  ⟨name, .number .int32, isMutable, false, false, none⟩

/-- The arguments of the self call of
`f a b = let mutable x = a in f (x + a) (x <- b; x)`. -/
def overtakenArgs : List Ir.Expr :=
  [.binary .plus (.ident (whole "x" true)) (.ident (whole "a" false)) (.number .int32) none,
    .sequence [.set (.ident (whole "x" true)) none (.ident (whole "b" false)) none,
      .ident (whole "x" true)]]

/-- The body of that function. -/
def overtakenBody : Ir.Expr :=
  .letIn (whole "x" true) (.ident (whole "a" false))
    (.call (.ident (whole "f" false)) none overtakenArgs false (.number .int32) none)

/-- The state at the start of a file that declares the function. -/
def overtakenState : LowerState := .start .empty ["f", "a", "b", "x"] []

/-- The loop that the function becomes. -/
def overtakenLoop : TailCall := ⟨"f", [whole "a" false, whole "b" false], ["a_mut", "b_mut"]⟩

/-- An integer variable. -/
def register (name : String) : Dart.Expr := .ident (.own name .integer)

/-- What the arguments are lowered to. The second one assigns `x`. -/
def overtakenValues : List (Dart.Hoisted Dart.Expr) :=
  [⟨[], .binary .plus (register "x") (register "a")⟩,
    ⟨[.declare (.own "tmp" .integer) .var none, .assign (register "x") (register "b"),
      .assign (register "tmp") (register "x")], register "tmp"⟩]

/-- The statements in front of the jump. -/
def overtakenOwn : List Dart.Stmt :=
  overtakenValues.flatMap (·.before) ++
    [.assign (register "a_mut") (.binary .plus (register "x") (register "a")),
      .assign (register "b_mut") (register "tmp")]

/-- Registers at the beginning of an iteration, after `x` is declared. -/
def overtakenStart : Dart.Registers :=
  fun name => if name = "b" ∨ name = "b_mut" then 5 else 1

/-- The statements before the second argument leave the parameters alone. -/
theorem overtakenValues_leave : ∀ p ∈ overtakenLoop.params, ∀ value ∈ overtakenValues,
    Dart.Registers.access.Leaves p.name value.value ∧
      ∀ a b, runAll Dart.Registers.machine (Dart.flows value.before) a .normal b →
        b p.name = a p.name := by
  intro p hp value hvalue
  refine ⟨Dart.Registers.access_leaves _ _, fun a b hrun => ?_⟩
  have hname : p.name ≠ "x" ∧ p.name ≠ "tmp" := by
    rcases List.mem_pair.1 hp with rfl | rfl <;> decide
  rcases List.mem_pair.1 hvalue with rfl | rfl
  · exact congrFun ((runAll_nil_normal _).1 hrun) p.name
  · obtain ⟨_, ⟨-, ⟨⟩⟩, hrun⟩ := (runAll_step_normal _).1 hrun
    obtain ⟨_, ⟨-, ⟨⟩⟩, hrun⟩ := (runAll_step_normal _).1 hrun
    obtain ⟨_, ⟨-, ⟨⟩⟩, hrun⟩ := (runAll_step_normal _).1 hrun
    obtain rfl := (runAll_nil_normal _).1 hrun
    exact (Dart.Registers.set_of_ne hname.2).trans (Dart.Registers.set_of_ne hname.1)

/-- The jump does not update the slots together: the first argument is evaluated when the second has
changed a variable already. -/
theorem overtaken_update_fails :
    Dart.BecomesLoop 8 (.ofFile bareFile) (some "f") [whole "a" false, whole "b" false]
      overtakenBody overtakenState overtakenLoop
      (.declare (.own "x" .integer) .var (some (register "a")) :: overtakenOwn ++
        [.continueTo (some "f")]) ∧
    InUse (fun _ _ => False) (.ofFile bareFile) [whole "a" false, whole "b" false] overtakenBody
      overtakenState ∧
    List.Forall₂ (Dart.CapturedAs 6 (.ofFile bareFile)) overtakenArgs overtakenValues ∧
    (∀ p ∈ overtakenLoop.params, ∀ value ∈ overtakenValues,
      Dart.Registers.access.Leaves p.name value.value ∧
        ∀ a b, runAll Dart.Registers.machine (Dart.flows value.before) a .normal b →
          b p.name = a p.name) ∧
    ¬ Dart.Registers.access.UpdatesTogether overtakenLoop.names
      (overtakenValues.map (·.argument)) (Dart.flows overtakenOwn) := by
  refine ⟨⟨"f", _, _, _, _, rfl, by decide, rfl, rfl, rfl, rfl⟩,
    .of_bare _ (by decide) (by decide),
    .cons ⟨overtakenState, _, rfl⟩ (.cons ⟨overtakenState, _, rfl⟩ .nil), overtakenValues_leave,
    fun h => ?_⟩
  have hcopies : ∀ s ∈ overtakenLoop.names, overtakenStart s.2 = overtakenStart s.1 := by decide
  obtain ⟨hsound, -⟩ := h overtakenStart hcopies
  -- the first argument is 2, but `x` is 5 by the time when it is evaluated
  have hrun : runAll Dart.Registers.machine (Dart.flows overtakenOwn) overtakenStart .normal
      ((((overtakenStart.set "x" 5).set "tmp" 5).set "a_mut" 6).set "b_mut" 5) := by
    refine (runAll_step_normal _).2 ⟨_, ⟨rfl, rfl⟩, ?_⟩
    refine (runAll_step_normal _).2 ⟨_, ⟨rfl, rfl⟩, ?_⟩
    refine (runAll_step_normal _).2 ⟨_, ⟨rfl, rfl⟩, ?_⟩
    refine (runAll_step_normal _).2 ⟨_, ⟨rfl, rfl⟩, ?_⟩
    exact (runAll_step_normal _).2 ⟨_, ⟨rfl, rfl⟩, (runAll_nil_normal _).2 rfl⟩
  obtain ⟨vs, m, hall, hupdated⟩ := hsound _ hrun
  obtain _ | ⟨hfirst, -⟩ := hupdated.slots
  obtain _ | ⟨⟨n, hbefore, hvalue, -⟩, -⟩ := hall
  obtain rfl := (runAll_nil_normal _).1 hbefore
  have hsix : (6 : Int) = _ := hfirst
  have htwo : some (2 : Int) = some _ := hvalue
  rw [← hsix] at htwo
  cases htwo

end TypedLowering
