import TypedLowering.Proofs.Control.Assignment
import TypedLowering.Proofs.Lowering.Slots
import TypedLowering.Proofs.Lowering.Uses

/-!
# Slots are mentioned nowhere

If all names that a function may mention are in use when the slots of its loop are allocated
(`InUse`), then the slots differ from them, and from all names that come up later. So nothing that
the body is lowered to mentions a slot, apart from what is lowered for the loop itself.
-/

namespace TypedLowering

open Ir (Expr Ident)

/-- Whether a name that is used is in use, or is one of the names of the targets. -/
def Scopes.Knows (names : Scopes) (inTemplate : String → String → Prop) : Use → Prop
  | .name x => names.IsTaken x ∨ x ∈ builtins
  | .binder x => names.IsTaken x
  | .template t => ∀ x, inTemplate t x → names.IsTaken x
  | .entity _ => True

/-- Whether all names that a function may mention are in use. -/
structure InUse (inTemplate : String → String → Prop) (ctx : Context) (params : List Ident)
    (body : Expr) (s : LowerState) : Prop where
  params : ∀ p ∈ params, s.names.IsTaken p.name
  body : body.AllUses (s.names.Knows inTemplate)
  sourced : Sourced (s.names.Knows inTemplate) ctx
  aliases : ∀ x ∈ s.imports.aliases, x ∈ s.names.root
  caught : ∀ x ∈ s.caught, s.names.IsTaken x

/-- What is known has nothing to do with a new name that is not one of the targets. -/
theorem Scopes.Knows.avoids {names : Scopes} {inTemplate : String → String → Prop} {x : String}
    {use : Use} (h : names.Knows inTemplate use) (hnew : ¬ names.IsTaken x)
    (hbuiltin : x ∉ builtins) : Use.Avoids inTemplate x use := by
  cases use with
  | name y =>
    rintro rfl
    exact h.elim hnew hbuiltin
  | binder y =>
    rintro rfl
    exact hnew h
  | template t => exact fun hx => hnew (h x hx)
  | entity => exact id

namespace Names

/-- A name without conflicts is the name itself or a variant. -/
theorem preventConflicts_cases (taken : List String) (name : String) :
    preventConflicts taken name = name ∨ ∃ n, preventConflicts taken name = suffixed name n := by
  obtain ⟨k, heq, -⟩ := preventConflicts_first taken name
  cases k with
  | zero => exact .inl heq
  | succ k => exact .inr ⟨k + 1, heq⟩

/-- An underscore stays. -/
theorem underscore_mem_sanitize {name : String} (h : '_' ∈ name.toList) :
    '_' ∈ (sanitize name).toList := by
  rw [sanitize, String.toList_ofList]
  cases hcs : name.toList with
  | nil => simp [hcs] at h
  | cons c cs =>
    rw [hcs] at h
    exact List.mem_append_right _ (List.mem_flatMap.2 ⟨'_', h, List.mem_cons_self⟩)

end Names

/-- No slot is called like a name of the targets. -/
theorem TailCall.IsSlot.not_mem_builtins {p : Ident} {slot : String} (h : IsSlot p slot) :
    slot ∉ builtins := by
  obtain ⟨taken, rfl⟩ := h
  have hmem : '_' ∈ (Names.sanitize (p.name ++ "_mut")).toList :=
    Names.underscore_mem_sanitize (by simp)
  have hslot : '_' ∈ (Names.preventConflicts taken (Names.sanitize (p.name ++ "_mut"))).toList := by
    rcases Names.preventConflicts_cases taken (Names.sanitize (p.name ++ "_mut")) with h | ⟨n, h⟩
    · rwa [h]
    · rw [h, Names.suffixed, String.toList_append, String.toList_append]
      exact List.mem_append_left _ (List.mem_append_left _ hmem)
  intro hbuiltin
  have hnone : ∀ x ∈ builtins, '_' ∉ x.toList := by decide
  exact hnone _ hbuiltin hslot

/-- A slot is a new name when it is allocated. -/
theorem TailCall.slot_isNew {params : List Ident} {s t : LowerState} {label slot : String}
    {loop : TailCall} (h : Lower.allocateTailCall label params s = (.ok loop, t))
    (hslot : slot ∈ loop.slots) :
    slot ∉ builtins ∧ ¬ s.names.IsTaken slot ∧ t.names.IsTaken slot := by
  obtain ⟨-, -, _, hslots, rfl⟩ := allocateTailCall_spec h
  obtain ⟨p, -, hp⟩ := exists_isSlot (allocateSlots_forall₂ hslots) hslot
  exact ⟨hp.not_mem_builtins, (allocateSlots_fresh hslots).1 slot hslot⟩

/-- The names of the parameters of a loop, with their slots. -/
def TailCall.names (t : TailCall) : List (String × String) :=
  t.bindings.map fun b => (b.1.name, b.2)

theorem TailCall.mem_names {t : TailCall} {n : String × String} (h : n ∈ t.names) :
    (∃ p ∈ t.params, n.1 = p.name) ∧ n.2 ∈ t.slots := by
  obtain ⟨b, hb, rfl⟩ := List.mem_map.1 h
  exact ⟨⟨b.1, (List.of_mem_zip hb).1, rfl⟩, (List.of_mem_zip hb).2⟩

theorem TailCall.length_bindings {params : List Ident} {s t : LowerState} {label : String}
    {loop : TailCall} (h : Lower.allocateTailCall label params s = (.ok loop, t)) :
    loop.bindings.length = loop.slots.length := by
  obtain ⟨-, hparams, _, hslots, -⟩ := allocateTailCall_spec h
  rw [bindings, List.length_zip, hparams, length_allocateSlots hslots, Nat.min_self]

/-- The node stays within reach when no loop is around. -/
theorem Within.withoutTailCall {ctx ctx' : Context} {e e' : Expr} (h : Within ctx e ctx' e') :
    Within ctx.withoutTailCall e ctx'.withoutTailCall e' :=
  ⟨h.file, rfl, h.node, h.targets⟩

namespace InUse

variable {inTemplate : String → String → Prop} {ctx ctx' : Context} {params : List Ident}
  {body : Expr} {s s₁ u t : LowerState} {label slot : String} {loop : TailCall}
  {e : Expr}

/-- Nothing that the context gives access to mentions a new name. -/
theorem sourced_new (h : InUse inTemplate ctx params body s) {x : String}
    (hnew : ¬ s.names.IsTaken x) (hbuiltin : x ∉ builtins) :
    Sourced (Use.Avoids inTemplate x) ctx where
  builtins _ hy := Scopes.Knows.avoids (.inr hy) hnew hbuiltin
  entities fullName entity hentity _ :=
    (h.sourced.entities fullName entity hentity trivial).avoids hnew hbuiltin
  inlines i hi d hd use huse := (h.sourced.inlines i hi d hd use huse).avoids hnew hbuiltin
  targets t ht := ⟨fun use huse => ((h.sourced.targets t ht).1 use huse).avoids hnew hbuiltin,
    fun d hd use huse => ((h.sourced.targets t ht).2 d hd use huse).avoids hnew hbuiltin⟩
  slots loop hloop slot hslot := (h.sourced.slots loop hloop slot hslot).avoids hnew hbuiltin

section
variable (h : InUse inTemplate ctx params body s) (hg : Grows s s₁)
  (hloop : Lower.allocateTailCall label (declaredParams params) s₁ = (.ok loop, u))
  (hslot : slot ∈ loop.slots)
include h hg hloop hslot

omit h in
/-- What is known has nothing to do with a slot. -/
theorem avoids {use : Use} (hknown : s.names.Knows inTemplate use) :
    Use.Avoids inTemplate slot use := by
  obtain ⟨hbuiltin, hnew, -⟩ := TailCall.slot_isNew hloop hslot
  exact hknown.avoids (mt (hg.taken slot) hnew) hbuiltin

/-- No self call in the body mentions a slot. -/
theorem sourced_avoids (hw : Within (ctx.withTailCall loop) body ctx' e) :
    Sourced (Use.Avoids inTemplate slot) ctx'.withoutTailCall ∧
      e.AllUses (Use.Avoids inTemplate slot) := by
  obtain ⟨hbuiltin, hnew, -⟩ := TailCall.slot_isNew hloop hslot
  have hsourced := (h.sourced_new (mt (hg.taken slot) hnew) hbuiltin).withoutTailCall
  exact hsourced.within (fun d hd use huse => avoids hg hloop hslot (h.body d hd use huse))
    hw.withoutTailCall

/-- The arguments of a self call in the body mention no slot. -/
theorem args_avoid {callee : Expr} {receiver : Option Expr} {args : List Expr} {isNew : Bool}
    {ty : Ir.Ty} {loc : Option Ir.Location}
    (hw : Within (ctx.withTailCall loop) body ctx' (.call callee receiver args isNew ty loc)) :
    ∀ arg ∈ discardUnitArg args, arg.AllUses (Use.Avoids inTemplate slot) := by
  intro arg harg
  refine (h.sourced_avoids hg hloop hslot hw).2.of_child (List.mem_cons_of_mem _ ?_)
  exact List.mem_append_right _ (mem_of_mem_discardUnitArg harg)

/-- Nothing that comes up after the slots are allocated mentions one. -/
theorem open_avoids (ht : Grows { u with looped := false } t) :
    Open (Use.Avoids inTemplate slot) t := by
  obtain ⟨-, hnew, htaken⟩ := TailCall.slot_isNew hloop hslot
  have hne : ∀ x, s₁.names.IsTaken x → x ≠ slot := fun x hx heq => hnew (heq ▸ hx)
  obtain ⟨-, -, _, -, rfl⟩ := TailCall.allocateTailCall_spec hloop
  refine Open.grows ⟨fun x hx => ?_, fun x hx => ?_, fun x hx => ?_⟩ ht
  · have hx : x ≠ slot := fun heq => hx (heq ▸ htaken)
    exact ⟨hx, hx⟩
  · exact hne x (.inl (hg.rooted h.aliases x hx))
  · have hcaught : x ∈ s.caught := hg.caught ▸ hx
    exact hne x (hg.taken x (h.caught x hcaught))

end

/-- What is evaluated for a self call may be assigned to the slots one after the other, if it
mentions no slot and leaves the parameters as they are. -/
theorem independent (h : InUse inTemplate ctx params body s) (hg : Grows s s₁)
    (hloop : Lower.allocateTailCall label (declaredParams params) s₁ = (.ok loop, u))
    {σ ε : Type} {M : Control.Machine σ ε} {L : Control.Language σ ε} {V : Control.Variables M L}
    {es : List ε} (hignores : ∀ slot ∈ loop.slots, ∀ e ∈ es, V.Ignores slot e)
    (hleaves : ∀ p ∈ loop.params, ∀ e ∈ es, V.Leaves p.name e) :
    V.Independent loop.names es := by
  obtain ⟨-, hparams, _, hslots, -⟩ := TailCall.allocateTailCall_spec hloop
  rw [← hparams] at hslots
  obtain ⟨hfresh, hnodup⟩ := TailCall.allocateSlots_fresh hslots
  have hsnd : loop.names.map (·.2) = loop.slots := by
    rw [TailCall.names, List.map_map]
    exact List.map_snd_zip (Nat.le_of_eq (TailCall.length_allocateSlots hslots).symm)
  refine ⟨hsnd ▸ hnodup, fun n hn => ?_, fun n hn => hignores n.2 (TailCall.mem_names hn).2,
    fun n hn => ?_⟩
  · obtain ⟨p, hp, hname⟩ := (TailCall.mem_names hn).1
    rw [hsnd, hname]
    rw [hparams] at hp
    have htaken := h.params p (mem_of_mem_declaredParams (mem_of_mem_declaredParams hp))
    exact fun hslot => (hfresh _ hslot).1 (hg.taken _ htaken)
  · obtain ⟨p, hp, hname⟩ := (TailCall.mem_names hn).1
    exact hname ▸ hleaves p hp

end InUse

end TypedLowering
