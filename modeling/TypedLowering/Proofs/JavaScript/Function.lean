import TypedLowering.Proofs.JavaScript.Control
import TypedLowering.Proofs.JavaScript.Uses
import TypedLowering.Proofs.Lowering.InUse

/-!
# Lowered functions

A function is lowered in one of two ways. If no self call becomes a jump, its body is that of the
source, without jumps. Otherwise (`BecomesLoop`) it is a loop over the body, and its parameters are
the slots (`function_spec`).
-/

namespace TypedLowering.JavaScript

open Control Lower

/-- The strategy of a function body returns unless the value has the unit type. -/
theorem returns_ofType {ε : Type} (isUnit : Bool) :
    (Strategy.ofType isUnit : Strategy ε).returns = !isUnit := by
  cases isUnit <;> rfl

/-- The copies of the slots with which an iteration begins. -/
def copies (loop : TailCall) : List Stmt :=
  loop.bindings.map fun (p, slot) => .declare .const p.name (some (.ident slot))

/-- The body of a function that became a loop: the copies of the slots, the statements of the
source, and the break of a function that does not return its value. -/
def iteration (loop : TailCall) (isUnit : Bool) (body : List Stmt) : List Stmt :=
  copies loop ++ body ++ if isUnit then [.of (.breakTo none)] else []

theorem loopBody_eq (loop : TailCall) (isUnit : Bool) (body : List Stmt) :
    Parts.loopBody loop (.ofType isUnit) body =
      [.of (.labeled loop.label
        (.of (.whileLoop (.literal (.bool true)) (iteration loop isUnit body))))] := by
  cases isUnit <;> rfl

theorem flows_iteration (loop : TailCall) (isUnit : Bool) (body : List Stmt) :
    flows (iteration loop isUnit body) =
      flows (copies loop ++ body) ++ if !isUnit then [] else [.breakTo none] := by
  cases isUnit <;> simp [iteration, StmtForm.flow]

/-- The copies and the statements of the source obey as these do. -/
theorem copies_append_obey {ret : Bool} {J : Jumps StmtForm Expr} {body : List Stmt}
    (loop : TailCall) (h : Obeys ret J (flows body)) :
    Obeys ret J (flows (copies loop ++ body)) := by
  rw [flows_append]
  refine .append ?_ h
  rw [copies]
  induction loop.bindings with
  | nil => exact .nil
  | cons b bs ih => exact .cons (.step _) ih

variable {n : Nat} {ctx : Context} {name : Option String} {params : List Ir.Ident} {body : Ir.Expr}
  {s t : LowerState} {ps : List Param} {stmts : List Stmt}

/-- Whether a self call in the body becomes a jump: `loop` is allocated for the function, the body
is lowered to the statements `inner` with it, and then the note that the loop is used is set. -/
def BecomesLoop (n : Nat) (ctx : Context) (name : Option String) (params : List Ir.Ident)
    (body : Ir.Expr) (s : LowerState) (loop : TailCall) (inner : List Stmt) : Prop :=
  ∃ label u v, name = some label ∧ declaredParams params ≠ [] ∧
    allocateTailCall label (declaredParams params) s = (.ok loop, u) ∧
    (rules n).stmts (ctx.withTailCall loop) (.ofType body.type.isUnit) body
      { u with looped := false } = (.ok inner, v) ∧ v.looped = true

/-- How a function is lowered. -/
theorem function_spec (h : (rules n).function ctx name params body s = (.ok (ps, stmts), t)) :
    ((¬ ∃ loop inner, BecomesLoop n ctx name params body s loop inner) ∧
      Obeys (!body.type.isUnit) noJumps (flows stmts) ∧
      ps = (declaredParams params).map fun p => ⟨p.name, false⟩) ∨
    ∃ loop inner, BecomesLoop n ctx name params body s loop inner ∧
      stmts = Parts.loopBody loop (.ofType body.type.isUnit) inner ∧
      ps = loop.bindings.map fun (_, slot) => ⟨slot, false⟩ := by
  have hplain : ∀ {ctx u v stmts},
      (rules n).stmts ctx (.ofType body.type.isUnit) body u = (.ok stmts, v) →
      (ctx.tailCall = none ∨ v.looped = false) →
      Obeys (!body.type.isUnit) noJumps (flows stmts) := by
    intro ctx u v stmts hstmts hnone
    rw [← returns_ofType (ε := Expr)]
    refine (rules_obey n hstmts).mono fun _ _ hJ => ?_
    rcases hnone with hnone | hnone
    · exact not_selfCalls hnone hJ
    · exact Bool.false_ne_true (hnone.symm.trans (selfCalls_label hJ).2)
  cases name with
  | none =>
    simp only [Parts.function, bind_eq_ok, pure_eq_ok, Prod.mk.injEq] at h
    obtain ⟨_, _, hstmts, ⟨rfl, rfl⟩, rfl⟩ := h
    refine .inl ⟨?_, hplain hstmts (.inl rfl), rfl⟩
    rintro ⟨_, _, _, _, _, ⟨⟩, -⟩
  | some label =>
    unfold Parts.function at h
    cases hps : declaredParams params with
    | nil =>
      simp only [hps, bind_eq_ok, pure_eq_ok, Prod.mk.injEq] at h
      obtain ⟨_, _, hstmts, ⟨rfl, rfl⟩, rfl⟩ := h
      refine .inl ⟨?_, hplain hstmts (.inl rfl), rfl⟩
      rintro ⟨_, _, _, _, _, -, hne, -⟩
      exact hne hps
    | cons p rest =>
      simp only [hps, bind_eq_ok] at h
      obtain ⟨loop, u, hloop, ⟨inner, looped⟩, w, hfunction, h⟩ := h
      obtain ⟨v, hinner, rfl, rfl⟩ := inFunction_eq_ok.1 hfunction
      dsimp only at h
      cases hlooped : v.looped with
      | false =>
        simp only [hlooped, Bool.false_eq_true, if_false, pure_eq_ok, Prod.mk.injEq] at h
        obtain ⟨⟨rfl, rfl⟩, -⟩ := h
        refine .inl ⟨?_, hplain hinner (.inr hlooped), rfl⟩
        rintro ⟨loop', inner', label', u', v', ⟨⟩, -, hloop', hinner', hlooped'⟩
        rw [hps, hloop, Prod.mk.injEq, Except.ok.injEq] at hloop'
        obtain ⟨rfl, rfl⟩ := hloop'
        rw [hinner, Prod.mk.injEq] at hinner'
        rw [hinner'.2, hlooped'] at hlooped
        cases hlooped
      | true =>
        simp only [hlooped, if_true, pure_eq_ok, Prod.mk.injEq] at h
        obtain ⟨⟨rfl, rfl⟩, -⟩ := h
        refine .inr ⟨loop, inner, ⟨label, u, v, rfl, ?_, hps ▸ hloop, hinner, hlooped⟩, rfl, rfl⟩
        rw [hps]
        exact List.cons_ne_nil _ _

/-- The statements of the source in a loop: their jumps are self calls. -/
theorem BecomesLoop.obeys {loop : TailCall} {inner : List Stmt}
    (h : BecomesLoop n ctx name params body s loop inner) :
    ∃ label u v, name = some label ∧
      allocateTailCall label (declaredParams params) s = (.ok loop, u) ∧
      Obeys (!body.type.isUnit) (selfCalls writes true (ctx.withTailCall loop) body
        { u with looped := false } v) (flows (copies loop ++ inner)) := by
  obtain ⟨label, u, v, hname, -, hloop, hinner, -⟩ := h
  have hobeys := rules_obey n hinner
  rw [returns_ofType] at hobeys
  exact ⟨label, u, v, hname, hloop,
    copies_append_obey loop (hobeys.mono fun _ _ hJ => ⟨rfl, hJ.2⟩)⟩

end TypedLowering.JavaScript

/-!
## Self tail calls in JavaScript

The statements in front of a jump assign the arguments to the slots, in order. As the arguments
mention no slot, the slots are updated all at once (`UpdatesSlots.of_selfCall`).
-/

namespace TypedLowering.JavaScript

open Control Lower

/-- Whether a node is lowered to that expression, at some point of the lowering. -/
def LowersTo (n : Nat) (ctx : Context) (e : Ir.Expr) (value : Expr) : Prop :=
  ∃ s t, (rules n).expr ctx e s = (.ok value, t)

/-- Whether the statements in front of a jump update the slots of the loop all at once, with the
arguments of a self call in the body. The self call may do what it likes, apart from assigning the
parameters. -/
def UpdatesSlots (inTemplate : String → String → Prop) (ctx : Context) (loop : TailCall)
    (body : Ir.Expr) (own : List (Flow StmtForm Expr)) : Prop :=
  ∃ n ctx' callee receiver args isNew ty loc values,
    Within (ctx.withTailCall loop) body ctx' (.call callee receiver args isNew ty loc) ∧
    List.Forall₂ (LowersTo n ctx'.withoutTailCall) (discardUnitArg args) values ∧
    ∀ (M : Machine StmtForm Expr) (V : Variables M language), V.Local inTemplate →
      (∀ p ∈ loop.params, ∀ e ∈ values, V.Leaves p.name e) →
      V.UpdatesTogether loop.names (values.map (⟨[], ·⟩)) own

variable {n : Nat} {ctx : Context} {s t : LowerState} {stmts : List Stmt}

theorem isVariable_of_passesOn {param : String} {value : Expr}
    (h : passesOn param value = true) : language.IsVariable param value := by
  rw [passesOn] at h
  split at h
  · rename_i name hform
    exact hform.trans (congrArg _ (of_decide_eq_true h))
  · cases h

/-- A node that is neither expanded nor run by a function of its own is lowered by its rule. -/
theorem LowersTo.core {node : Ir.Expr} (hexpansion : Parts.expansion? ctx node = pure none)
    (hinvoked : Parts.isInvoked ctx node = pure false) (h : LowersTo n ctx node e) :
    ∃ m s t code, (rules m).exprCore ctx node s = (.ok code, t) ∧ e.form = code.form := by
  obtain ⟨s, t, h⟩ := h
  cases n with
  | zero => exact absurd h fail_ne_ok
  | succ m =>
    have hrule : (rules m).exprRule ctx node s = (.ok e, t) := h
    rw [Parts.exprRule, hexpansion, pure_bind] at hrule
    simp only [hinvoked, pure_bind, Bool.false_eq_true, if_false, bind_eq_ok, pure_eq_ok] at hrule
    obtain ⟨code, u, hcore, rfl, -⟩ := hrule
    exact ⟨m, s, u, code, hcore, code.form_withLoc _⟩

/-- An identifier is lowered to the variable. -/
theorem LowersTo.isVariable {id : Ir.Ident} {value : Expr} (h : LowersTo n ctx (.ident id) value)
    (hid : id.isThis = false) : language.IsVariable id.name value := by
  obtain ⟨m, s, t, code, hcore, hform⟩ := h.core rfl rfl
  simp only [Parts.exprCore, hid, Bool.false_eq_true, if_false, pure_eq_ok] at hcore
  obtain ⟨rfl, -⟩ := hcore
  exact hform

/-- The slots are assigned what the arguments are lowered to. -/
theorem slotWrites_spec {slots : List (Ir.Ident × String)} {args : List Ir.Expr}
    (h : (rules n).slotWrites ctx slots args s = (.ok stmts, t))
    (hlen : args.length = slots.length) :
    ∃ values, List.Forall₂ (LowersTo n ctx.withoutTailCall) args values ∧
      Writes language (slots.map fun b => (b.1.name, b.2)) values (flows stmts) ∧
      ∀ P, Sourced P ctx.withoutTailCall → Open P s → (∀ e ∈ args, e.AllUses P) →
        ∀ e ∈ values, e.AllUses P := by
  induction slots generalizing args s stmts with
  | nil =>
    obtain rfl := List.eq_nil_of_length_eq_zero hlen
    obtain ⟨rfl, -⟩ := pure_eq_ok.1 h
    exact ⟨[], .nil, .nil, fun _ _ _ _ => nofun⟩
  | cons b slots ih =>
    cases args with
    | nil => cases hlen
    | cons arg args =>
      obtain ⟨p, slot⟩ := b
      simp only [slotWrites_cons, bind_eq_ok, pure_eq_ok] at h
      obtain ⟨value, u, hvalue, rest, _, hrest, rfl, rfl⟩ := h
      obtain ⟨values, hlowers, hwrites, huses⟩ := ih hrest (Nat.succ.inj hlen)
      refine ⟨value :: values, .cons ⟨s, u, hvalue⟩ hlowers, ?_, fun P hctx hs hargs => ?_⟩
      · cases hpasses : passesOn p.name value with
        | true => exact .keep (isVariable_of_passesOn hpasses) hwrites
        | false => exact .write rfl hwrites
      · obtain ⟨harg, hargs⟩ := List.forall_mem_cons.1 hargs
        obtain ⟨hu, hvalue⟩ := expr_keepsUses n hctx harg s value u hs hvalue
        exact List.forall_mem_cons.2 ⟨hvalue, huses P hctx hu hargs⟩

/-- A self call of the body updates the slots. -/
theorem UpdatesSlots.of_selfCall {inTemplate : String → String → Prop} {params : List Ir.Ident}
    {body : Ir.Expr} {u v : LowerState} {label : String} {l : Option String} {loop : TailCall}
    {own : List (Flow StmtForm Expr)} (h : InUse inTemplate ctx params body s)
    (hloop : allocateTailCall label (declaredParams params) s = (.ok loop, u))
    (hcall : selfCalls writes true (ctx.withTailCall loop) body { u with looped := false } v own
      l) :
    UpdatesSlots inTemplate ctx loop body own := by
  obtain ⟨-, _, ctx', callee, receiver, args, isNew, ty, loc, w, _, hself, -, hw, hlen, hgrows,
    ⟨n, stmts, hwrites, rfl⟩, -, -⟩ := hcall
  obtain rfl := Option.some.inj hself
  obtain ⟨values, hlowers, hassigned, huses⟩ :=
    slotWrites_spec hwrites (hlen.trans (TailCall.length_bindings hloop).symm)
  refine ⟨n, ctx', callee, receiver, args, isNew, ty, loc, values, hw, hlowers,
    fun M V hlocal hleaves => ?_⟩
  have hignores : ∀ slot ∈ loop.slots, ∀ e ∈ values, V.Ignores slot e := by
    intro slot hslot e he
    have hctx := (h.sourced_avoids (.refl s) hloop hslot hw).1
    have hopen := h.open_avoids (.refl s) hloop hslot hgrows
    exact hlocal.ignores (huses _ hctx hopen (h.args_avoid (.refl s) hloop hslot hw) e he)
  exact hassigned.updatesTogether_bare (h.independent (.refl s) hloop hignores hleaves)

end TypedLowering.JavaScript
