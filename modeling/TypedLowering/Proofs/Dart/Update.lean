import TypedLowering.Proofs.Dart.Function
import TypedLowering.Proofs.Dart.Uses
import TypedLowering.Proofs.Lowering.InUse

/-!
# Self tail calls in Dart

The statements in front of a jump are those that have to run before the arguments, for all arguments
at first, and then the assignments to the slots. As none of them mentions a slot but to assign it,
the slots are updated all at once (`UpdatesSlots.of_selfCall`). That an argument is evaluated after
the statements of the arguments behind it must make no difference: its value is not saved before
they run.
-/

namespace TypedLowering.Dart

open Control Lower

/-- Whether a node is lowered to that expression with the statements before it, at some point of the
lowering. -/
def CapturedAs (n : Nat) (ctx : Context) (e : Ir.Expr) (value : Hoisted Expr) : Prop :=
  ∃ s t, (rules n).captured ctx e s = (.ok value, t)

/-- An argument as code that is run and evaluated. -/
def Hoisted.argument (value : Hoisted Expr) : Argument Stmt Expr :=
  ⟨flows value.before, value.value⟩

/-- Whether the statements in front of a jump update the slots of the loop all at once, with the
arguments of a self call in the body. The self call must not assign the parameters, and the value of
an argument must not depend on whether the statements of the arguments behind it have run. -/
def UpdatesSlots (inTemplate : String → String → Prop) (ctx : Context) (loop : TailCall)
    (body : Ir.Expr) (own : List (Flow Stmt Expr)) : Prop :=
  ∃ n ctx' callee receiver args isNew ty loc values,
    Within (ctx.withTailCall loop) body ctx' (.call callee receiver args isNew ty loc) ∧
    List.Forall₂ (CapturedAs n ctx'.withoutTailCall) (discardUnitArg args) values ∧
    ∀ (M : Machine Stmt Expr) (V : Variables M language), V.Local inTemplate →
      (∀ p ∈ loop.params, ∀ value ∈ values, V.Leaves p.name value.value ∧
        ∀ a b, runAll M (flows value.before) a .normal b → V.get b p.name = V.get a p.name) →
      values.Pairwise (fun v w => V.Commutes v.value (flows w.before)) →
      V.UpdatesTogether loop.names (values.map (·.argument)) own

/-! ## Names in flows -/

section
variable {P : Use → Prop}

mutual

/-- The uses in a statement are those in its flow. -/
theorem flow_allUses : (stmt : Stmt) → stmt.AllUses P → stmt.flow.AllUses language P
  | .expr _, h | .ret _, h | .declare .., h | .assign .., h | .throw _, h | .rethrow, h
  | .function _, h => h
  | .breakTo _, _ | .continueTo _, _ => trivial
  | .ifElse _ thenBody elseBody, h =>
    ⟨h.1, flows_allUses thenBody h.2.1, flows_allUses elseBody h.2.2⟩
  | .whileLoop _ body, h => ⟨⟨h.1, trivial⟩, flows_allUses body h.2⟩
  | .forLoop _ _ _ _ body, h => ⟨⟨h.1, h.2.1, h.2.2.1, trivial⟩, flows_allUses body h.2.2.2⟩
  | .switch _ cases default, h =>
    ⟨h.1, casesUse_append.2 ⟨caseFlows_allUses cases h.2.1, defaultFlows_allUses default h.2.2⟩⟩
  | .tryCatch body handler finalizer, h =>
    ⟨⟨trivial, handlerHead_allUses handler h.2.1, trivial⟩, flows_allUses body h.1,
      handlerFlows_allUses handler h.2.1, finalizerFlows_allUses finalizer h.2.2⟩
  | .labeled _ body, h => flow_allUses body h

/-- The flows of statements have no uses but those of the statements. -/
theorem flows_allUses : (stmts : List Stmt) → AllUsesStmts P stmts →
    FlowsUse language P (flows stmts)
  | [], _ => trivial
  | stmt :: stmts, h => ⟨flow_allUses stmt h.1, flows_allUses stmts h.2⟩

/-- The head of a handler has no uses but those of the handler. -/
theorem handlerHead_allUses : (handler : Option CatchClause) → AllUsesHandler P handler →
    AllUsesHandler P (handlerHead handler)
  | none, _ => trivial
  | some ⟨_, _⟩, h => ⟨h.1, trivial⟩

/-- The flows of a handler have no uses but those of the handler. -/
theorem handlerFlows_allUses : (handler : Option CatchClause) → AllUsesHandler P handler →
    OptionUses language P (handlerFlows handler)
  | none, _ => trivial
  | some ⟨_, body⟩, h => flows_allUses body h.2

/-- The flows of a final block have no uses but those of the block. -/
theorem finalizerFlows_allUses : (finalizer : Option (List Stmt)) → AllUsesFinalizer P finalizer →
    OptionUses language P (finalizerFlows finalizer)
  | none, _ => trivial
  | some stmts, h => flows_allUses stmts h

/-- The flows of cases have no uses but those of the cases. -/
theorem caseFlows_allUses : (cases : List SwitchCase) → AllUsesCases P cases →
    CasesUse language P (caseFlows cases)
  | [], _ => trivial
  | ⟨_, body⟩ :: cases, h =>
    ⟨fun _ hts => Option.some.inj hts ▸ allUsesItems_iff.1 h.1,
      flowsUse_append.2 ⟨flows_allUses body h.2.1, trivial, trivial⟩, caseFlows_allUses cases h.2.2⟩

/-- The flows of a default have no uses but those of the default. -/
theorem defaultFlows_allUses : (default : Option (List Stmt)) → AllUsesFinalizer P default →
    CasesUse language P (defaultFlows default)
  | none, _ => trivial
  | some body, h => ⟨nofun, flowsUse_append.2 ⟨flows_allUses body h, trivial, trivial⟩, trivial⟩

end

end

/-! ## The update -/

variable {n : Nat} {ctx : Context} {s t : LowerState} {stmts : List Stmt}

/-- An argument that passes a parameter on is that variable. -/
theorem isVariable_of_passesOn {param : String} {value : Expr}
    (h : passesOn param value = true) : language.IsVariable param value := by
  rw [passesOn.eq_def] at h
  split at h
  · rename_i id
    obtain ⟨name, ty, importPrefix⟩ := id
    simp only [Bool.and_eq_true, beq_iff_eq, Option.isNone_iff_eq_none] at h
    obtain ⟨rfl, rfl⟩ := h
    exact ⟨ty, rfl⟩
  · cases h

/-- An identifier is lowered to the variable. -/
theorem CapturedAs.isVariable {id : Ir.Ident} {value : Hoisted Expr}
    (h : CapturedAs n ctx (.ident id) value) (hid : id.isThis = false) :
    value.before = [] ∧ language.IsVariable id.name value.value := by
  obtain ⟨s, t, h⟩ := h
  cases n with
  | zero => exact absurd h fail_ne_ok
  | succ n =>
    have hcore : (rules n).exprCore ctx true (.ident id) s = (.ok value, t) := h
    simp only [Parts.exprCore, hid, Bool.false_eq_true, if_false, lowerIdent, bind_eq_ok,
      pure_eq_ok] at hcore
    obtain ⟨_, _, ⟨ty, _, -, rfl, -⟩, rfl, -⟩ := hcore
    exact ⟨rfl, ty, rfl⟩

/-- The arguments are lowered in order, and the statements before them come in order. -/
theorem values_spec {args : List Ir.Expr} {value : Hoisted (List Expr)}
    (h : (rules n).values ctx args s = (.ok value, t)) :
    ∃ values, List.Forall₂ (CapturedAs n ctx) args values ∧
      value = ⟨values.flatMap (·.before), values.map (·.value)⟩ ∧
      ∀ P, Sourced P ctx → Open P s → (∀ e ∈ args, e.AllUses P) →
        ∀ v ∈ values, v.AllUses P (Expr.AllUses P) := by
  induction args generalizing s value with
  | nil =>
    obtain ⟨rfl, -⟩ := pure_eq_ok.1 h
    exact ⟨[], .nil, rfl, fun _ _ _ _ => nofun⟩
  | cons arg args ih =>
    simp only [Parts.values, bind_eq_ok, pure_eq_ok] at h
    obtain ⟨first, u, hfirst, rest, _, hrest, rfl, rfl⟩ := h
    obtain ⟨values, hcaptured, rfl, huses⟩ := ih hrest
    refine ⟨first :: values, .cons ⟨s, u, hfirst⟩ hcaptured, rfl, fun P hctx hs hargs => ?_⟩
    obtain ⟨harg, hargs⟩ := List.forall_mem_cons.1 hargs
    obtain ⟨hu, hvalue⟩ := (rules_keepUses P n).expr hctx harg s first u hs hfirst
    exact List.forall_mem_cons.2 ⟨hvalue, huses P hctx hu hargs⟩

/-- The slots are assigned the values. -/
theorem slotWrites_spec {file : SourceFile} {slots : List (Ir.Ident × String)}
    {values : List Expr} (h : Parts.slotWrites file slots values s = (.ok stmts, t))
    (hlen : values.length = slots.length) :
    Writes language (slots.map fun b => (b.1.name, b.2)) values (flows stmts) := by
  induction slots generalizing values s t stmts with
  | nil =>
    obtain rfl := List.eq_nil_of_length_eq_zero hlen
    obtain ⟨rfl, -⟩ := pure_eq_ok.1 h
    exact .nil
  | cons b slots ih =>
    cases values with
    | nil => cases hlen
    | cons value values =>
      obtain ⟨p, slot⟩ := b
      rw [Parts.slotWrites] at h
      split at h
      · rename_i hpasses
        exact .keep (isVariable_of_passesOn hpasses) (ih h (Nat.succ.inj hlen))
      · simp only [bind_eq_ok, pure_eq_ok] at h
        obtain ⟨ty, _, -, rest, _, hrest, rfl, -⟩ := h
        exact .write ⟨ty, rfl⟩ (ih hrest (Nat.succ.inj hlen))

/-- The flows of statements in groups come in groups. -/
theorem flows_flatMap {α : Type} (f : α → List Stmt) (xs : List α) :
    flows (xs.flatMap f) = xs.flatMap fun x => flows (f x) := by
  induction xs with
  | nil => rfl
  | cons x xs ih => rw [List.flatMap_cons, flows_append, ih, List.flatMap_cons]

/-- A self call of the body updates the slots. -/
theorem UpdatesSlots.of_selfCall {inTemplate : String → String → Prop} {params : List Ir.Ident}
    {body : Ir.Expr} {s₁ u v : LowerState} {label : String} {l : Option String} {loop : TailCall}
    {own : List (Flow Stmt Expr)} (h : InUse inTemplate ctx params body s) (hg : Grows s s₁)
    (hloop : allocateTailCall label (declaredParams params) s₁ = (.ok loop, u))
    (hcall : selfCalls writes true (ctx.withTailCall loop) body { u with looped := false } v own
      l) :
    UpdatesSlots inTemplate ctx loop body own := by
  obtain ⟨-, _, ctx', callee, receiver, args, isNew, ty, loc, w, _, hself, -, hw, hlen, hgrows,
    ⟨n, _, _, stmts, hvalues, hwrites, rfl⟩, -, -⟩ := hcall
  obtain rfl := Option.some.inj hself
  obtain ⟨values, hcaptured, rfl, huses⟩ := values_spec hvalues
  refine ⟨n, ctx', callee, receiver, args, isNew, ty, loc, values, hw, hcaptured,
    fun M V hlocal hleaves hcommutes => ?_⟩
  have hassigned : Writes language loop.names (values.map (·.value)) (flows stmts) := by
    refine slotWrites_spec hwrites ?_
    rw [List.length_map, ← hcaptured.length_eq, hlen, TailCall.length_bindings hloop]
  have havoids : ∀ slot ∈ loop.slots, ∀ value ∈ values,
      value.AllUses (Use.Avoids inTemplate slot) (Expr.AllUses (Use.Avoids inTemplate slot)) :=
    fun slot hslot => huses _ (h.sourced_avoids hg hloop hslot hw).1
      (h.open_avoids hg hloop hslot hgrows) (h.args_avoid hg hloop hslot hw)
  have hind : V.Independent loop.names (values.map (·.value)) := by
    refine h.independent hg hloop (fun slot hslot => ?_) fun p hp => ?_
    · exact List.forall_mem_map.2 fun value hvalue =>
        hlocal.ignores (havoids slot hslot value hvalue).value
    · exact List.forall_mem_map.2 fun value hvalue => (hleaves p hp value hvalue).1
  have hmap : (values.map (·.argument)).map (·.value) = values.map (·.value) := by
    rw [List.map_map]
    rfl
  have hbefore : (values.map (·.argument)).flatMap (·.before) =
      flows (values.flatMap (·.before)) := by
    rw [List.flatMap_map, flows_flatMap]
    rfl
  rw [flows_append, ← hbefore]
  refine Writes.updatesTogether (hmap.symm ▸ hassigned) (hmap.symm ▸ hind) (fun n hn x hx => ?_)
    (List.pairwise_map.2 hcommutes)
  obtain ⟨value, hvalue, rfl⟩ := List.mem_map.1 hx
  obtain ⟨⟨p, hp, hname⟩, hslot⟩ := TailCall.mem_names hn
  intro a b hrun
  have huses := flows_allUses value.before (havoids n.2 hslot value hvalue).before
  exact ⟨hname ▸ (hleaves p hp value hvalue).2 a b hrun,
    (hlocal.keeps n.2).runAll huses a .normal b hrun⟩

end TypedLowering.Dart

/-!
## Registers

A machine for statements that compute sums of integers. All variables have an integer at any time,
assignments and declarations with a value change them, and guards may come out either way.
-/

namespace TypedLowering.Dart

open Control

/-- The integer of each variable. -/
abbrev Registers := String → Int

namespace Registers

/-- The registers with another integer for one variable. -/
def set (a : Registers) (name : String) (value : Int) : Registers :=
  fun x => if x = name then value else a x

/-- The integer that an expression is, if it consists of constants, variables and sums. -/
def value (a : Registers) : Expr → Option Int
  | .literal (.integer i) => some i
  | .ident ⟨name, _, none⟩ => some (a name)
  | .binary .plus left right => return (← value a left) + (← value a right)
  | _ => none

/-- The registers after an assignment or a declaration. Nothing else changes them. -/
def after (a : Registers) : Stmt → Option Registers
  | .assign (.ident ⟨name, _, none⟩) e | .declare ⟨name, _, _⟩ _ (some e) =>
    (value a e).map (a.set name)
  | _ => some a

/-- The machine of registers. -/
def machine : Machine Stmt Expr where
  State := Registers
  step code a ok b := ok = true ∧ a.after code = some b
  test _ a r b := r.isSome ∧ b = a
  start _ a ok b := ok = true ∧ b = a
  next _ a r b := r.isSome ∧ b = a
  pick _ _ a r b := r = some none ∧ b = a
  catches _ a b := b = a
  pick_tests h := by cases h.1

variable {a b : Registers} {x : String} {v : Int}

/-- A variable has the integer that it was set to. -/
@[simp] theorem set_self : a.set x v x = v := if_pos rfl

/-- The other variables keep theirs. -/
theorem set_of_ne {y : String} (h : y ≠ x) : a.set x v y = a y := if_neg h

/-- How code reads and writes registers. -/
def access : Variables machine language where
  Value := Int
  get a := a
  set a := a.set
  eval e a v b := a.value e = some v ∧ b = a
  get_set_self _ _ _ := set_self
  get_set_of_ne _ _ _ _ h := set_of_ne h
  set_get a x := by
    funext y
    by_cases h : y = x
    · subst h
      exact set_self
    · exact set_of_ne h
  eval_variable := by
    rintro x _ a b v ⟨ty, rfl⟩
    exact and_congr_left fun _ => ⟨fun h => (Option.some.inj h).symm, fun h => congrArg some h.symm⟩
  step_assign := by
    rintro x e _ a b ⟨ty, rfl⟩
    constructor
    · rintro ⟨-, h⟩
      obtain ⟨v, hv, rfl⟩ := Option.map_eq_some_iff.1 h
      exact ⟨v, a, ⟨hv, rfl⟩, rfl⟩
    · rintro ⟨v, _, ⟨hv, rfl⟩, rfl⟩
      exact ⟨rfl, Option.map_eq_some_iff.2 ⟨v, hv, rfl⟩⟩

/-- The value of an expression is not that of a variable which it does not mention. -/
theorem value_set {inTemplate : String → String → Prop} {e : Expr}
    (h : e.AllUses (Use.Avoids inTemplate x)) : (a.set x v).value e = a.value e := by
  fun_induction value a e with
  | case1 i => rfl
  | case2 name ty =>
    exact congrArg some (set_of_ne h)
  | case3 left right ihl ihr =>
    rw [value, ihl h.1, ihr h.2]
  | case4 e hliteral hident hplus =>
    exact value.eq_4 _ e hliteral hident hplus

/-- Code has nothing to do with the registers that it does not mention. -/
theorem access_local (inTemplate : String → String → Prop) : access.Local inTemplate where
  ignores := by
    intro x e h a v w b
    constructor
    · rintro ⟨hvalue, rfl⟩
      exact ⟨a, ⟨(value_set h).symm.trans hvalue, rfl⟩, rfl⟩
    · rintro ⟨_, ⟨hvalue, rfl⟩, rfl⟩
      exact ⟨(value_set h).trans hvalue, rfl⟩
  keeps x := {
    refl := fun _ => rfl
    trans := fun hab hbc => hbc.trans hab
    step := by
      rintro code a ok b h ⟨-, hafter⟩
      unfold after at hafter
      split at hafter
      · obtain ⟨v, -, rfl⟩ := Option.map_eq_some_iff.1 hafter
        exact set_of_ne (Ne.symm h.1)
      · obtain ⟨v, -, rfl⟩ := Option.map_eq_some_iff.1 hafter
        exact set_of_ne (Ne.symm h.1.1)
      · exact congrFun (Option.some.inj hafter).symm x
    test := fun _ h => congrFun h.2 x
    start := fun _ h => congrFun h.2 x
    next := fun _ h => congrFun h.2 x
    pick := fun _ _ h => congrFun h.2 x
    catches := fun _ h => congrFun h x }

/-- Evaluating an expression changes no register. -/
theorem access_leaves (x : String) (e : Expr) : access.Leaves x e :=
  fun _ _ _ h => congrFun h.2 x

end Registers

end TypedLowering.Dart
