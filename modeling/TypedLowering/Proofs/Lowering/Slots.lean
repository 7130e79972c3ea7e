import TypedLowering.Proofs.Control.Compound
import TypedLowering.Proofs.Lowering.Growth
import TypedLowering.Proofs.Lowering.Within

/-!
# The slots of a loop

Each parameter of a loop has a slot of its own, in order (`allocateSlots_forall₂`). The slots are
new when they are allocated and differ from each other (`allocateSlots_fresh`).
-/

namespace TypedLowering

/-- The receiver is left out once and for all, and so is a lone parameter of unit type, unless it
was declared next to a receiver. -/
theorem declaredParams_declaredParams (params : List Ir.Ident) :
    declaredParams (declaredParams params) = declaredParams params ∨
      ∃ p, declaredParams params = [p] ∧ p.ty.isUnit = true ∧
        declaredParams (declaredParams params) = [] := by
  have hthis : ∀ p ∈ declaredParams params, (!p.isThis) = true :=
    fun p hp => (List.mem_filter.1 hp).2
  generalize declaredParams params = declared at hthis
  rw [declaredParams]
  match declared, hthis with
  | [], _ => exact .inl rfl
  | [p], hthis =>
    cases hp : p.ty.isUnit with
    | true => exact .inr ⟨p, rfl, hp, by simp [discardUnitParam, hp]⟩
    | false => simpa [discardUnitParam, hp] using hthis
  | [p, q], hthis =>
    have hp : p.isThis = false := by simpa using hthis p List.mem_cons_self
    simpa [discardUnitParam, hp] using hthis
  | p :: q :: r :: ps, hthis => exact .inl (List.filter_eq_self.2 hthis)

/-- The parameters that a function declares are its own, in order. -/
theorem declaredParams_sublist (params : List Ir.Ident) :
    (declaredParams params).Sublist params := by
  refine List.filter_sublist.trans ?_
  unfold discardUnitParam
  split
  · split
    · exact List.nil_sublist _
    · exact .refl _
  · split
    · exact List.sublist_append_left [_] [_]
    · exact .refl _
  · exact .refl _

theorem mem_of_mem_declaredParams {params : List Ir.Ident} {p : Ir.Ident}
    (h : p ∈ declaredParams params) : p ∈ params :=
  (declaredParams_sublist params).subset h

theorem discardUnitArg_sublist (args : List Ir.Expr) : (discardUnitArg args).Sublist args := by
  unfold discardUnitArg
  split
  · split
    · exact List.nil_sublist _
    · exact .refl _
  · split
    · exact List.sublist_append_left [_] [_]
    · exact .refl _
  · exact .refl _

theorem mem_of_mem_discardUnitArg {args : List Ir.Expr} {arg : Ir.Expr}
    (h : arg ∈ discardUnitArg args) : arg ∈ args :=
  (discardUnitArg_sublist args).subset h

namespace TailCall

/-- Whether a name is the one made for the slot of a parameter, or a variant of it. -/
def IsSlot (p : Ir.Ident) (slot : String) : Prop :=
  ∃ taken, slot = Names.preventConflicts taken (Names.sanitize (p.name ++ "_mut"))

variable {names names' : Scopes} {params : List Ir.Ident} {slots : List String}

/-- The slots of the parameters, in order. -/
theorem allocateSlots_forall₂ (h : allocateSlots names params = (slots, names')) :
    List.Forall₂ IsSlot params slots := by
  induction params generalizing names slots names' with
  | nil =>
    obtain ⟨rfl, -⟩ := h
    exact .nil
  | cons p ps ih =>
    obtain ⟨rfl, -⟩ := h
    exact .cons ⟨_, rfl⟩ (ih rfl)

/-- Each slot is the slot of a parameter. -/
theorem exists_isSlot (h : List.Forall₂ IsSlot params slots) {slot : String}
    (hslot : slot ∈ slots) : ∃ p ∈ params, IsSlot p slot := by
  induction h with
  | nil => cases hslot
  | cons hp _ ih =>
    rcases List.mem_cons.1 hslot with rfl | hslot
    · exact ⟨_, List.mem_cons_self, hp⟩
    · obtain ⟨p, hmem, hp⟩ := ih hslot
      exact ⟨p, List.mem_cons_of_mem _ hmem, hp⟩

theorem length_allocateSlots (h : allocateSlots names params = (slots, names')) :
    params.length = slots.length :=
  (allocateSlots_forall₂ h).length_eq

/-- Slots are new names, and they differ. -/
theorem allocateSlots_fresh (h : allocateSlots names params = (slots, names')) :
    (∀ slot ∈ slots, ¬ names.IsTaken slot ∧ names'.IsTaken slot) ∧ slots.Nodup := by
  induction params generalizing names slots names' with
  | nil =>
    obtain ⟨rfl, rfl⟩ := h
    exact ⟨nofun, .nil⟩
  | cons p ps ih =>
    obtain ⟨rfl, rfl⟩ := h
    have hnew := names.allocateLocal_not_isTaken (p.name ++ "_mut")
    have hgrow : ∀ x, names.IsTaken x → (names.allocateLocal (p.name ++ "_mut")).2.IsTaken x :=
      fun x hx => Scopes.allocateLocal_isTaken.2 (.inl hx)
    have hfirst : (names.allocateLocal (p.name ++ "_mut")).2.IsTaken
        (names.allocateLocal (p.name ++ "_mut")).1 := Scopes.allocateLocal_isTaken.2 (.inr rfl)
    have hslots : allocateSlots (names.allocateLocal (p.name ++ "_mut")).2 ps = (_, _) := rfl
    obtain ⟨hfresh, hnodup⟩ := ih hslots
    refine ⟨fun slot hslot => ?_, List.nodup_cons.2 ⟨fun hmem => (hfresh _ hmem).1 hfirst, hnodup⟩⟩
    rcases List.mem_cons.1 hslot with rfl | hslot
    · exact ⟨hnew, (allocateSlots_isTaken rfl).1 _ hfirst⟩
    · exact ⟨mt (hgrow slot) (hfresh slot hslot).1, (hfresh slot hslot).2⟩

/-- What is allocated for the loop of a function. -/
theorem allocateTailCall_spec {label : String} {s t : LowerState} {loop : TailCall}
    (h : Lower.allocateTailCall label params s = (.ok loop, t)) :
    loop.label = label ∧ loop.params = declaredParams params ∧
      ∃ names', allocateSlots s.names (declaredParams params) = (loop.slots, names') ∧
        { s with names := names' } = t := by
  rw [Lower.allocateTailCall] at h
  obtain ⟨hloop, rfl⟩ := Prod.mk.inj h
  obtain rfl := Except.ok.inj hloop
  exact ⟨rfl, rfl, _, rfl, rfl⟩

end TailCall

end TypedLowering

/-!
## The jumps of self tail calls

A jump to the next iteration of a loop comes from a self tail call in tail position: `selfCalls`
says which call that is, and which statements write its arguments to the slots.
-/

namespace TypedLowering

open Control (Flow Jumps noJumps)
open Ir (Expr)

/-- How a back end writes the arguments of a self tail call to the slots of the loop: in which
context, between which states, by which statements. -/
abbrev SlotWrites (σ ε : Type) :=
  Context → TailCall → List Expr → LowerState → LowerState → List (Flow σ ε) → Prop

/-- The calls of a node that become jumps to the loop of the context, in tail position only. They
are lowered between the states before and after the node. -/
def selfCalls {σ ε : Type} (writes : SlotWrites σ ε) (isTail : Bool) (ctx : Context) (e : Expr)
    (s t : LowerState) : Jumps σ ε := fun own label =>
  isTail = true ∧ ∃ loop ctx' callee receiver args isNew ty loc u v,
    ctx.tailCall = some loop ∧ label = some loop.label ∧
    Within ctx e ctx' (.call callee receiver args isNew ty loc) ∧
    (discardUnitArg args).length = loop.slots.length ∧
    Grows s u ∧ writes ctx' loop args u v own ∧ v.looped = true ∧ Grows v t

variable {σ ε : Type} {writes : SlotWrites σ ε} {isTail : Bool} {ctx ctx' : Context} {e e' : Expr}
  {s s' t t' : LowerState} {own : List (Flow σ ε)} {label : Option String}

/-- The jumps of a node inside are jumps of the node around it. -/
theorem selfCalls_mono (hw : Within ctx e ctx' e') (hs : Grows s s') (ht : Grows t' t)
    (h : selfCalls writes isTail ctx' e' s' t' own label) :
    selfCalls writes isTail ctx e s t own label := by
  obtain ⟨htail, loop, ctx₁, callee, receiver, args, isNew, ty, loc, u, v, hloop, hlabel, hw₁, hlen,
    hu, hwrites, hlooped, hv⟩ := h
  exact ⟨htail, loop, ctx₁, callee, receiver, args, isNew, ty, loc, u, v, hw.tailCall ▸ hloop,
    hlabel, hw.trans hw₁, hlen, hs.trans hu, hwrites, hlooped, hv.trans ht⟩

/-- Without a loop around there are none. -/
theorem not_selfCalls (h : ctx.tailCall = none) :
    ¬ selfCalls writes isTail ctx e s t own label := by
  rintro ⟨-, loop, _, _, _, _, _, _, _, _, _, hloop, -⟩
  rw [h] at hloop
  cases hloop

/-- A value that is stored is not in tail position. -/
theorem not_selfCalls_of_not_tail : ¬ selfCalls writes false ctx e s t own label := by
  rintro ⟨htail, -⟩
  cases htail

/-- A jump goes to the loop of the context, and then the loop is used. -/
theorem selfCalls_label (h : selfCalls writes isTail ctx e s t own label) :
    (∃ loop, ctx.tailCall = some loop ∧ label = some loop.label) ∧ t.looped = true := by
  obtain ⟨-, loop, _, _, _, _, _, _, _, _, _, hloop, hlabel, -, -, -, -, hlooped, hv⟩ := h
  exact ⟨⟨loop, hloop, hlabel⟩, hv.looped hlooped⟩

/-- A call whose value is stored becomes no jump. -/
theorem Context.selfTailCall?_assign {ε : Type} (ctx : Context) (place : ε) (callee : Expr)
    (receiver : Option Expr) (args : List Expr) (isNew : Bool) :
    ctx.selfTailCall? (.assign place) callee receiver args isNew = none :=
  Option.filter_eq_none_iff.2 fun _ _ => Bool.false_ne_true

namespace Strategy

/-- Whether the value has to be returned. -/
def returns {ε : Type} : Strategy ε → Bool
  | .ret => true
  | .effect | .assign _ | .join _ => false

end Strategy

end TypedLowering
