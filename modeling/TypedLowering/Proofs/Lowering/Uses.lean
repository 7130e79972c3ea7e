import TypedLowering.Proofs.Ir.Uses
import TypedLowering.Proofs.Lowering.Below
import TypedLowering.Proofs.Lowering.Outcome
import TypedLowering.Proofs.Lowering.Slots
import TypedLowering.Proofs.Lowering.Within

/-!
# Where names come from

Lowered code mentions names of the source, aliases of imports, new names, and a few names of the
target itself. If those that may come up are all of a kind (`Sourced`, `Open`), then so are those of
what is lowered: `Ensures` is the judgement by which the rules of a back end are shown to keep the
kind, one step after the other.
-/

namespace TypedLowering

open Ir (Expr Ident Target)

variable {P : Use → Prop}

/-- The names of the targets that lowered code mentions. -/
def builtins : List String := ["Array", "Object", "RegExp"]

/-- Whether what a strategy writes to is of a kind. -/
def Strategy.AllUses {ε : Type} (P : Use → Prop) (ofPlace : ε → Prop) : Strategy ε → Prop
  | .ret | .effect => True
  | .assign place => ofPlace place
  | .join name => P (.name name)

/-- The strategy for the value of a function has no names. -/
theorem Strategy.allUses_ofType {ε : Type} {ofPlace : ε → Prop} (isUnit : Bool) :
    (Strategy.ofType isUnit).AllUses P ofPlace := by
  cases isUnit <;> trivial

/-- Whether all uses in what a context gives access to are of a kind. -/
structure Sourced (P : Use → Prop) (ctx : Context) : Prop where
  builtins : ∀ x ∈ builtins, P (.name x)
  entities : ∀ fullName entity, ctx.file.settings.entity? fullName = some entity →
    P (.entity fullName) → P (.name entity.displayName)
  inlines : ∀ i ∈ ctx.file.settings.project.inlines, i.2.body.AllUses P
  targets : ∀ t ∈ ctx.targets, (∀ u ∈ Use.binders t.bound, P u) ∧ t.body.AllUses P
  slots : ∀ loop, ctx.tailCall = some loop → ∀ slot ∈ loop.slots, P (.name slot)

namespace Sourced

variable {ctx ctx' : Context} {e e' : Expr}

/-- Names come from the source with targets around whose names do. -/
theorem withTargets (h : Sourced P ctx) {ts : List Target}
    (ht : ∀ t ∈ ts, (∀ u ∈ Use.binders t.bound, P u) ∧ t.body.AllUses P) :
    Sourced P (ctx.withTargets ts) :=
  ⟨h.builtins, h.entities, h.inlines, ht, h.slots⟩

/-- Names come from the source without the loop around. -/
theorem withoutTailCall (h : Sourced P ctx) : Sourced P ctx.withoutTailCall :=
  ⟨h.builtins, h.entities, h.inlines, h.targets, nofun⟩

/-- Names come from the source with a loop around whose slots are of the kind. -/
theorem withTailCall (h : Sourced P ctx) {loop : TailCall}
    (hslots : ∀ slot ∈ loop.slots, P (.name slot)) : Sourced P (ctx.withTailCall loop) := by
  refine ⟨h.builtins, h.entities, h.inlines, h.targets, fun l hl => ?_⟩
  obtain rfl := Option.some.inj hl
  exact hslots

/-- The targets of a decision tree. -/
theorem tree {d : Expr} {ts : List Target} (h : Sourced P ctx)
    (he : (Expr.decisionTree d ts).AllUses P) : Sourced P (ctx.withTargets ts) := by
  obtain ⟨hu, hc⟩ := Expr.allUses_iff.1 he
  exact h.withTargets fun t ht => ⟨fun u hmem => hu u (List.mem_flatMap.2 ⟨t, ht, hmem⟩),
    hc t.body (List.mem_cons_of_mem _ (List.mem_map_of_mem ht))⟩

/-- What is reached from an expression has names of the kind. -/
theorem reaches (h : Sourced P ctx) (he : e.AllUses P) {d : Expr} (hd : ctx.Reaches e d) :
    ∀ u ∈ d.uses, P u := by
  rcases hd with hd | ⟨t, ht, hd⟩
  · exact he d hd
  · exact (h.targets t ht).2 d hd

/-- What lowering comes to is of the kind, too. -/
theorem within (h : Sourced P ctx) (he : e.AllUses P) (hw : Within ctx e ctx' e') :
    Sourced P ctx' ∧ e'.AllUses P := by
  refine ⟨⟨h.builtins, hw.file ▸ h.entities, hw.file ▸ h.inlines, fun t ht => ?_,
    hw.tailCall ▸ h.slots⟩, fun d hd => h.reaches he (hw.node d hd)⟩
  refine ⟨?_, fun d hd => h.reaches he ((hw.targets t ht).reaches hd)⟩
  rcases hw.targets t ht with ht | ⟨dispatcher, ts, htree, ht⟩
  · exact (h.targets t ht).1
  · exact fun u hu => h.reaches he htree u (List.mem_flatMap.2 ⟨t, ht, hu⟩)

end Sourced

/-- Whether all names that may still come up are of a kind: those that are free, and those that are
in the state. -/
structure Open (P : Use → Prop) (s : LowerState) : Prop where
  free : ∀ x, ¬ s.names.IsTaken x → Binds P x
  aliases : ∀ x ∈ s.imports.aliases, P (.name x)
  caught : ∀ x ∈ s.caught, P (.name x)

/-- The names that may still come up after more requests are of the kind. -/
theorem Open.grows {s t : LowerState} (h : Open P s) (hg : Grows s t) : Open P t where
  free x hx := h.free x (mt (hg.taken x) hx)
  aliases x hx := by
    rcases hg.aliases x hx with hx | hx
    · exact h.aliases x hx
    · exact (h.free x hx).1
  caught := hg.caught ▸ h.caught

/-- An alias is one from before or a new name. -/
theorem Open.imported {s : LowerState} {names : Scopes} {name : String} {p q : Prop}
    {r : String → Prop} (h : Open P s)
    (hname : (name ∈ s.imports.aliases ∧ p ∧ q) ∨
      ∃ candidate, s.names.allocateRoot candidate = (name, names) ∧ r candidate) :
    P (.name name) := by
  rcases hname with ⟨hname, -⟩ | ⟨candidate, hnew, -⟩
  · exact h.aliases name hname
  · obtain rfl : (s.names.allocateRoot candidate).1 = name := congrArg Prod.fst hnew
    exact (h.free _ (s.names.allocateRoot_not_isTaken candidate)).1

/-- A renaming of parameters gives them their new names. -/
theorem exists_of_mem_paramRenaming {params fresh : List Ident} {p : String × String}
    (h : p ∈ paramRenaming params fresh) : ∃ q ∈ fresh, p.2 = q.name := by
  obtain ⟨⟨_, q⟩, hmem, rfl⟩ := List.mem_map.1 h
  exact ⟨q, (List.of_mem_zip (List.mem_filter.1 hmem).1).2, rfl⟩

/-- The expansion of a call has names of the kind if its parameters, arguments and body do. -/
theorem allUses_bindParams {params : List Ident} {args : List Expr} {body : Expr}
    (hparams : ∀ p ∈ params, Binds P p.name)
    (hargs : ∀ arg ∈ args, arg.AllUses P) (hbody : body.AllUses P) :
    (bindParams params args body).AllUses P := by
  induction params generalizing args with
  | nil => exact hbody
  | cons p ps ih =>
    cases args with
    | nil => exact hbody
    | cons arg args =>
      refine Expr.allUses_iff.2 ⟨Use.forall_binders.2 fun id hid => ?_, fun c hc => ?_⟩
      · exact hparams id (List.mem_singleton.1 hid ▸ List.mem_cons_self)
      · rcases List.mem_cons.1 hc with rfl | hc
        · exact hargs _ List.mem_cons_self
        · obtain rfl := List.mem_singleton.1 hc
          exact ih (fun q hq => hparams q (List.mem_cons_of_mem _ hq))
            fun a ha => hargs a (List.mem_cons_of_mem _ ha)

/-- An inline function that is found is one of the project. -/
theorem mem_inlines {settings : Settings} {fullName : String} {inline : InlineFunction}
    (h : settings.inline? fullName = some inline) :
    ∃ i ∈ settings.project.inlines, i.2 = inline := by
  obtain ⟨i, hi, rfl⟩ := Option.map_eq_some_iff.1 h
  exact ⟨i, List.mem_reverse.1 (List.mem_of_find?_eq_some hi), rfl⟩

/-- An expansion consists of the body of an inline function, the arguments and new names. -/
theorem allUses_expansion {params fresh : List Ident} {args : List Expr} {body : Expr}
    (hfresh : ∀ p ∈ fresh, Binds P p.name) (hargs : ∀ arg ∈ args, arg.AllUses P)
    (hbody : body.AllUses P) :
    (bindParams fresh args (body.rename (paramRenaming params fresh))).AllUses P := by
  refine allUses_bindParams hfresh hargs (hbody.rename fun p hp => ?_)
  obtain ⟨q, hq, heq⟩ := exists_of_mem_paramRenaming hp
  exact heq ▸ (hfresh q hq).1

namespace Lower

variable {α β : Type}

/-- Where the names that may come up are of a kind, they still are afterwards, and the result is as
stated. -/
def Ensures (P : Use → Prop) (m : Lower α) (Q : α → Prop) : Prop :=
  ∀ s a t, Open P s → m s = (.ok a, t) → Open P t ∧ Q a

namespace Ensures

variable {m : Lower α} {Q R : α → Prop}

/-- What holds of the results of a computation that only grows the state. -/
theorem of_below (hm : Below m m) (h : ∀ s a t, Open P s → m s = (.ok a, t) → Q a) :
    Ensures P m Q :=
  fun s a t hs ha => ⟨hs.grows (hm.grows ha), h s a t hs ha⟩

/-- What only grows the state keeps to names of the kind. -/
theorem of_grows (hm : Below m m) : Ensures P m fun _ => True :=
  of_below hm fun _ _ _ _ _ => trivial

/-- A result that is given is as stated. -/
theorem pure {a : α} (h : Q a) : Ensures P (Pure.pure a) Q :=
  of_below (.pure a) fun _ _ _ _ hb => (pure_eq_ok.1 hb).1 ▸ h

/-- The second of two computations may use what the first one ensures. -/
theorem bind {f : α → Lower β} {S : β → Prop} (hm : Ensures P m Q)
    (hf : ∀ a, Q a → Ensures P (f a) S) : Ensures P (m >>= f) S := by
  intro s b t hs h
  obtain ⟨a, u, hma, hfa⟩ := bind_eq_ok.1 h
  obtain ⟨hu, ha⟩ := hm s a u hs hma
  exact hf a ha u b t hu hfa

/-- A failure has no result. -/
theorem fail (e : LowerError) : Ensures P (.fail e) Q :=
  fun _ _ _ _ h => absurd h fail_ne_ok

/-- A value that may be missing is as stated if it is there. -/
theorem ofOption (e : LowerError) {o : Option α} (h : ∀ a, o = some a → Q a) :
    Ensures P (.ofOption e o) Q :=
  of_below (.ofOption e o) fun _ a _ _ ha => h a (ofOption_eq_ok.1 ha).1

/-- Asking whether a node needs statements brings up no names. -/
theorem isStatement (ctx : Context) (prefer : Bool) (e : Expr) :
    Ensures P (.isStatement ctx prefer e) fun _ => True :=
  of_grows (.isStatement ctx prefer e)

/-- A choice may use its condition. -/
theorem ite {c : Prop} [Decidable c] {n : Lower α} (hm : c → Ensures P m Q)
    (hn : ¬ c → Ensures P n Q) : Ensures P (if c then m else n) Q := by
  split
  · exact hm ‹_›
  · exact hn ‹_›

/-- A new local has a name of the kind. -/
theorem allocateLocal (candidate : String) :
    Ensures P (.allocateLocal candidate) (Binds P) :=
  of_below (.allocateLocal candidate) fun s x t hs h => by
    obtain ⟨hx, -⟩ := Prod.mk.inj h
    obtain rfl := Except.ok.inj hx
    exact hs.free _ (s.names.allocateLocal_not_isTaken candidate)

/-- The slots of a loop have names of the kind. -/
theorem allocateTailCall (label : String) (params : List Ident) :
    Ensures P (.allocateTailCall label params) fun loop =>
      loop.params = declaredParams params ∧
        ∀ slot ∈ loop.slots, Binds P slot :=
  of_below (.allocateTailCall label params) fun s loop t hs h => by
    obtain ⟨-, hparams, _, hslots, -⟩ := TailCall.allocateTailCall_spec h
    exact ⟨hparams, fun slot hslot =>
      hs.free slot ((TailCall.allocateSlots_fresh hslots).1 slot hslot).1⟩

/-- The alias of a module is of the kind. -/
theorem importWhole (path : String) :
    Ensures P (.importWhole path) fun x => P (.name x) :=
  of_below (.importWhole path) fun s x t hs h => by
    obtain ⟨hx, -⟩ := Prod.mk.inj h
    obtain rfl := Except.ok.inj hx
    exact hs.imported (ImportTable.importWhole_spec rfl)

/-- A function ensures what its body does. -/
theorem inFunction (h : Ensures P m Q) : Ensures P (.inFunction m) fun r => Q r.1 := by
  rintro s ⟨a, looped⟩ t hs hm
  obtain ⟨u, hma, rfl, rfl⟩ := inFunction_eq_ok.1 hm
  have hopen : Open P { s with looped := false } := ⟨hs.free, hs.aliases, hs.caught⟩
  obtain ⟨hu, ha⟩ := h _ a u hopen hma
  exact ⟨⟨hu.free, hu.aliases, hu.caught⟩, ha⟩

/-- A handler ensures what its body does, if its parameter is of the kind. -/
theorem inHandler {param : String} (hparam : P (.name param)) (h : Ensures P m Q) :
    Ensures P (.inHandler param m) Q := by
  intro s a t hs hm
  obtain ⟨u, hma, rfl⟩ := inHandler_eq_ok.1 hm
  have hcaught : ∀ x ∈ param :: s.caught, P (.name x) := List.forall_mem_cons.2 ⟨hparam, hs.caught⟩
  have hopen : Open P { s with caught := param :: s.caught } := ⟨hs.free, hs.aliases, hcaught⟩
  obtain ⟨hu, ha⟩ := h _ a u hopen hma
  exact ⟨⟨hu.free, hu.aliases, fun x hx => hu.caught x (List.mem_of_mem_tail hx)⟩, ha⟩

/-- The expansion of a call has names of the kind. -/
theorem expandInline {ctx : Context} (h : Sourced P ctx) {args : List Expr} (callee : Expr)
    (hargs : ∀ arg ∈ args, arg.AllUses P) :
    Ensures P (TypedLowering.expandInline ctx.file callee args)
      fun e => ∀ expanded ∈ e, expanded.AllUses P :=
  of_below (.expandInline ctx.file callee args) fun s e t hs he => by
    rintro expanded rfl
    rcases expandInline_cases ctx.file callee args s with
      ⟨_, heq⟩ | ⟨_, inline, fresh, names, -, hinline, -, hparams, heq⟩
    · rw [heq] at he
      cases he
    · rw [heq] at he
      obtain rfl := Option.some.inj (Except.ok.inj (Prod.mk.inj he).1)
      obtain ⟨i, hi, rfl⟩ := mem_inlines hinline
      have hfresh : ∀ p ∈ fresh, Binds P p.name :=
        fun p hp => hs.free _ ((freshParams_spec hparams).isNew _ (List.mem_map_of_mem hp)).2
      exact allUses_expansion hfresh hargs (h.inlines i hi)

end Ensures

end Lower

end TypedLowering
