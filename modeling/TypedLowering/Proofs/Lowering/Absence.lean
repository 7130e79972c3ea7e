import TypedLowering.Proofs.Ir.Dangling
import TypedLowering.Proofs.Lowering.Below
import TypedLowering.Proofs.Lowering.Declarations
import TypedLowering.Proofs.Lowering.Hygiene
import TypedLowering.Proofs.Lowering.Slots
import TypedLowering.Proofs.Lowering.Uses

/-!
# Lowering without a name

One name is fixed. Lowering brings it into code if the source refers to it, or as the name of
something else: of an import, of a class, or of what the enclosing handler caught. `Without` says of
a computation that its result is as stated if nothing else has the name (`Absent`, `Unnamed`), so
that a back end can be shown, one rule after the other, to leave out names to which the source does
not refer.
-/

namespace TypedLowering

open Ir (Expr Ident Target)

/-! ## What else has a name -/

/-- Whether an inline function refers to nothing by the name but parameters that are kept, whatever
new names they get in an expansion. -/
structure InlineFunction.RefersToParams (inline : InlineFunction) (x : String) : Prop where
  closed : inline.body.Scoped 0
  bound : ∀ names fresh names', FreshParams names inline.args fresh names' →
    (inline.body.rename (paramRenaming inline.args fresh)).Dangles x [] → x ∈ keptNames fresh

/-- Whether an inline function refers to something outside by the name. -/
def InlineFunction.RefersOutside (inline : InlineFunction) (x : String) : Prop :=
  inline.body.Dangles x [] ∧ x ∉ inline.args.map (·.name)

/-- Whether an inline function refers to none of its parameters but those that are kept. -/
def InlineFunction.KeepsParams (inline : InlineFunction) : Prop :=
  ∀ x, ¬ inline.RefersOutside x → inline.RefersToParams x

/-- Whether nothing that a context gives access to has the name, apart from what is bound. -/
structure Unnamed (x : String) (ctx : Context) : Prop where
  builtins : x ∉ builtins
  entities : ∀ fullName entity, ctx.file.settings.entity? fullName = some entity →
    entity.displayName ≠ x
  hoists : ∀ ids, ctx.hoists ids = true → ∀ id ∈ ids, id.name ≠ x
  inlines : ∀ i ∈ ctx.file.settings.project.inlines, i.2.RefersToParams x

namespace Unnamed

variable {x : String} {ctx : Context}

/-- The name is no built-in one. -/
theorem ne_of_mem_builtins (h : Unnamed x ctx) {y : String} (hy : y ∈ TypedLowering.builtins) :
    y ≠ x :=
  fun heq => h.builtins (heq ▸ hy)

/-- The name stays unnamed with other targets around. -/
theorem withTargets (h : Unnamed x ctx) (ts : List Target) : Unnamed x (ctx.withTargets ts) :=
  ⟨h.builtins, h.entities, h.hoists, h.inlines⟩

/-- The name stays unnamed with a loop around. -/
theorem withTailCall (h : Unnamed x ctx) (loop : TailCall) : Unnamed x (ctx.withTailCall loop) :=
  ⟨h.builtins, h.entities, h.hoists, h.inlines⟩

/-- The name stays unnamed without the loop around. -/
theorem withoutTailCall (h : Unnamed x ctx) : Unnamed x ctx.withoutTailCall :=
  ⟨h.builtins, h.entities, h.hoists, h.inlines⟩

end Unnamed

/-- Whether no import of a file has the name, nor what is caught, and whether the loop around is
used. -/
structure Absent (x : String) (s t : LowerState) (looped : Bool) : Prop where
  aliases : ∀ key, t.imports.alias? key ≠ some x
  caught : x ∉ s.caught
  looped : t.looped = true → looped = true

variable {x : String}

/-- A name that is absent all along is absent in the first part. -/
theorem Absent.first {s t u : LowerState} {looped : Bool} (h : Absent x s t looped)
    (hut : Extends u t) : Absent x s u looped := by
  refine ⟨fun key hkey => ?_, h.caught, h.looped ∘ hut.looped⟩
  obtain ⟨requests, -, hrun⟩ := hut.asks
  have halias : (u.registry.run requests).imports.alias? key = some x :=
    Registry.run_alias? requests hkey
  rw [hrun] at halias
  exact h.aliases key halias

/-- A name that is absent all along is absent in the second part. -/
theorem Absent.second {s t u : LowerState} {looped : Bool} (h : Absent x s t looped)
    (hsu : Extends s u) : Absent x u t looped :=
  ⟨h.aliases, hsu.caught ▸ h.caught, h.looped⟩

/-- Whether what the statements for a node write to lacks the name: the slots of the loop, if it is
used, and the place of a strategy. Statements that select a target for a join variable also write to
the identifiers of the targets in reach, and those of trees that the node ends in. -/
structure Spares {ε : Type} (x : String) (lacks : ε → Prop) (ctx : Context) (strategy : Strategy ε)
    (looped : Bool) (e : Expr) : Prop where
  slots : looped = true → ∀ loop, ctx.tailCall = some loop → x ∉ loop.slots
  place : ∀ place, strategy = .assign place → lacks place
  join : ∀ name, strategy = .join name → name ≠ x ∧
    (∀ t ∈ ctx.targets, ∀ id ∈ t.bound, id.name ≠ x) ∧
    ∀ d inner, e.EndsIn (.decisionTree d inner) → ∀ t ∈ inner, ∀ id ∈ t.bound, id.name ≠ x

namespace Spares

variable {ε : Type} {lacks : ε → Prop} {ctx : Context} {strategy : Strategy ε} {looped : Bool}
  {e : Expr}

/-- A node that is not the value of the function around, and selects no target. -/
theorem plain (hplace : ∀ place, strategy = .assign place → lacks place)
    (hjoin : strategy.joinVariable? = none) :
    Spares x lacks ctx.withoutTailCall strategy looped e := by
  refine ⟨fun _ _ => nofun, hplace, ?_⟩
  rintro name rfl
  cases hjoin

/-- A value that is not used spares the name. -/
theorem effect : Spares x lacks ctx.withoutTailCall .effect looped e :=
  plain nofun rfl

/-- A place without the name spares it. -/
theorem assign {place : ε} (h : lacks place) :
    Spares x lacks ctx.withoutTailCall (.assign place) looped e :=
  plain (fun _ heq => Strategy.assign.inj heq ▸ h) rfl

/-- The body of a function. -/
theorem ofType {loop : Option TailCall} (isUnit : Bool)
    (hslots : looped = true → ∀ l, loop = some l → x ∉ l.slots) :
    Spares x lacks { ctx with tailCall := loop } (.ofType isUnit) looped e := by
  cases isUnit <;> exact ⟨hslots, nofun, nofun⟩

/-- A strategy that spares the name does so without the loop around. -/
theorem withoutTailCall (h : Spares x lacks ctx strategy looped e) :
    Spares x lacks ctx.withoutTailCall strategy looped e :=
  ⟨fun _ _ => nofun, h.place, h.join⟩

/-- A node that the node ends in. -/
theorem part (h : Spares x lacks ctx strategy looped e) {c : Expr} (hc : c ∈ e.lastParts) :
    Spares x lacks ctx strategy looped c :=
  ⟨h.slots, h.place, fun name hname =>
    have ⟨hne, htargets, hinner⟩ := h.join name hname
    ⟨hne, htargets, fun d inner hends => hinner d inner (.part hc hends)⟩⟩

/-- The dispatcher of a tree whose targets are lowered in place. -/
theorem dispatcher {d : Expr} {ts : List Target}
    (h : Spares x lacks ctx strategy looped (.decisionTree d ts)) :
    Spares x lacks (ctx.withTargets ts) strategy looped d :=
  ⟨h.slots, h.place, fun name hname =>
    have ⟨hne, _, hinner⟩ := h.join name hname
    ⟨hne, hinner d ts (.self _),
      fun d' inner hends => hinner d' inner (.part List.mem_cons_self hends)⟩⟩

/-- The body of a target that a success node goes to. -/
theorem target (h : Spares x lacks ctx strategy looped e) (hjoin : strategy.joinVariable? = none)
    (t : Target) : Spares x lacks ctx strategy looped t.body := by
  refine ⟨h.slots, h.place, ?_⟩
  rintro name rfl
  cases hjoin

end Spares

/-- A success node that needs no statements gives no values. -/
theorem values_eq_nil_of_isStatement {ctx : Context} {prefer : Bool} {index : Nat}
    {values : List Expr} {ty : Ir.Ty}
    (h : isStatement ctx prefer (.success index values ty) = .ok false) : values = [] := by
  have hdepth : ctx.depth (.success index values ty) ≠ 0 := by simp [Context.depth]
  obtain ⟨n, hn⟩ := Nat.exists_eq_succ_of_ne_zero hdepth
  rw [isStatement, hn, isStatementWithin] at h
  split at h
  · cases h
  · split at h
    · exact List.isEmpty_iff.1 ‹_›
    · cases h

/-! ## Expansions -/

/-- The expansion of a call refers to the name only if an argument or the body does. -/
theorem not_dangles_bindParams {params : List Ident} {args : List Expr} {body : Expr}
    {ts : List Target} (hlength : params.length = args.length)
    (hargs : ∀ arg ∈ args, ¬ arg.Dangles x ts)
    (hbody : x ∉ keptNames params → ¬ body.Dangles x ts) :
    ¬ (bindParams params args body).Dangles x ts := by
  induction params generalizing args with
  | nil => exact hbody List.not_mem_nil
  | cons p ps ih =>
    obtain _ | ⟨arg, args⟩ := args
    · cases hlength
    obtain ⟨harg, hargs⟩ := List.forall_mem_cons.1 hargs
    intro hdangles
    have hcons : bindParams (p :: ps) (arg :: args) body =
        .letIn p arg (bindParams ps args body) := rfl
    rw [hcons] at hdangles
    cases hdangles with
    | part hp hx hdangles =>
      rcases List.mem_pair.1 hp with rfl | rfl
      · exact harg hdangles
      · refine ih (Nat.succ.inj hlength) hargs (fun hps => hbody fun hmem => ?_) hdangles
        exact (List.mem_append.1 (keptNames_cons p ps ▸ hmem)).elim hx hps

/-- New names of parameters that are kept are kept. -/
theorem apply_mem_keptNames {names names' : Scopes} {params fresh : List Ident} {y : String}
    (hparams : (params.map (·.name)).Nodup) (h : FreshParams names params fresh names')
    (hy : y ∈ keptNames params) : (paramRenaming params fresh).apply y ∈ keptNames fresh := by
  obtain ⟨p, hp, hunit, rfl⟩ := exists_of_mem_keptNames hy
  obtain ⟨i, hi, rfl⟩ := List.getElem_of_mem hp
  have hfresh : i < fresh.length := h.renamed.length_eq ▸ hi
  have hrenamed := List.forall₂_iff_get.1 h.renamed |>.2 i hi hfresh
  rw [paramRenaming_apply hparams (List.getElem?_eq_getElem hi) (List.getElem?_eq_getElem hfresh)]
  refine mem_keptNames (List.getElem_mem hfresh) ?_
  rw [List.get_eq_getElem, List.get_eq_getElem] at hrenamed
  rw [hrenamed]
  exact hunit

/-- Only parameters get new names. -/
theorem paramRenaming_subset (params fresh : List Ident) :
    (paramRenaming params fresh).map (·.1) ⊆ params.map (·.name) := by
  intro y hy
  obtain ⟨_, hpair, rfl⟩ := List.mem_map.1 hy
  obtain ⟨⟨p, q⟩, hzip, rfl⟩ := List.mem_map.1 hpair
  exact List.mem_map_of_mem (List.of_mem_zip (List.mem_filter.1 hzip).1).1

/-- It is enough that the body refers to none of the parameters but those that are kept, if it binds
none of their names again. -/
theorem InlineFunction.KeepsParams.of_unshadowed {inline : InlineFunction}
    (hdistinct : (inline.args.map (·.name)).Nodup) (hclosed : inline.body.Scoped 0)
    (hunshadowed : inline.body.BindsNone (inline.args.map (·.name)))
    (hbound : ∀ x, inline.body.Dangles x [] → x ∈ inline.args.map (·.name) →
      x ∈ keptNames inline.args) : inline.KeepsParams := by
  refine fun x houtside => ⟨hclosed, fun names fresh names' hfresh hx => ?_⟩
  have hsubset := paramRenaming_subset inline.args fresh
  obtain ⟨y, hy, rfl⟩ := hx.exists_of_rename (hunshadowed.mono hsubset) (List.forall_mem_nil _) rfl
  by_cases hparam : y ∈ inline.args.map (·.name)
  · exact apply_mem_keptNames hdistinct hfresh (hbound y hy hparam)
  · rw [Ir.Renaming.apply_of_notMem fun hmem => hparam (hsubset hmem)] at houtside
    exact absurd ⟨hy, hparam⟩ houtside

/-- A function that refers to nothing outside refers to its parameters. -/
theorem InlineFunction.KeepsParams.refersToParams {inline : InlineFunction} (h : inline.KeepsParams)
    (hbound : ∀ x, inline.body.Dangles x [] → x ∈ inline.args.map (·.name)) (x : String) :
    inline.RefersToParams x :=
  h x fun houtside => houtside.2 (hbound x houtside.1)

/-- An expansion refers to what the arguments refer to. -/
theorem not_dangles_expansion {file : SourceFile} {callee expanded : Expr} {args : List Expr}
    {s : LowerState} {inline : InlineFunction} {fresh : List Ident} {ts : List Target}
    (h : Expands file callee args s expanded inline fresh) (hinline : inline.RefersToParams x)
    (hargs : ∀ arg ∈ args, ¬ arg.Dangles x ts) : ¬ expanded.Dangles x ts := by
  obtain ⟨names, hfresh⟩ := h.isFresh
  rw [h.eq]
  refine not_dangles_bindParams h.length hargs fun hx hbody => hx ?_
  have hscoped := hinline.closed.rename (paramRenaming inline.args fresh)
  exact hinline.bound _ _ _ (freshParams_spec hfresh)
    (hbody.of_scoped hscoped fun _ _ hi => absurd hi (Nat.not_lt_zero _))

/-! ## The judgement -/

namespace Lower

variable {α β : Type}

/-- Where `m` gives a result, the result is as stated if the name is absent. -/
def Without (x : String) (m : Lower α) (Q : Bool → α → Prop) : Prop :=
  ∀ s a t, m s = (.ok a, t) → Extends s t ∧ ∀ looped, Absent x s t looped → Q looped a

namespace Without

variable {m : Lower α} {Q R : Bool → α → Prop}

/-- What holds of the results of a computation that only extends the state. -/
theorem of_below (hm : Below m m)
    (h : ∀ s a t, m s = (.ok a, t) → ∀ looped, Absent x s t looped → Q looped a) :
    Without x m Q :=
  fun s a t ha => ⟨hm.state ha, h s a t ha⟩

/-- Every result is a result. -/
theorem of_any (hm : Below m m) : Without x m fun _ _ => True :=
  of_below hm fun _ _ _ _ _ _ => trivial

/-- A weaker statement holds where a stronger one does. -/
theorem imp (h : Without x m Q) (hR : ∀ looped a, Q looped a → R looped a) : Without x m R :=
  fun s a t hm =>
    have ⟨hst, hQ⟩ := h s a t hm
    ⟨hst, fun looped habsent => hR looped a (hQ looped habsent)⟩

/-- A result that is given is as stated. -/
theorem pure {a : α} (h : ∀ looped, Q looped a) : Without x (Pure.pure a) Q :=
  of_below (.pure a) fun _ _ _ hb looped _ => (pure_eq_ok.1 hb).1 ▸ h looped

/-- The second of two computations may use what the first one states. -/
theorem bind {f : α → Lower β} {S : Bool → β → Prop} (hm : Without x m Q)
    (hf : ∀ a, Without x (f a) fun looped b => Q looped a → S looped b) :
    Without x (m >>= f) S := by
  intro s b t h
  obtain ⟨a, u, hma, hfa⟩ := bind_eq_ok.1 h
  obtain ⟨hsu, hQ⟩ := hm s a u hma
  obtain ⟨hut, hS⟩ := hf a u b t hfa
  exact ⟨hsu.trans hut, fun looped habsent =>
    hS looped (habsent.second hsu) (hQ looped (habsent.first hut))⟩

/-- A failure has no result. -/
theorem fail (e : LowerError) : Without x (.fail e) Q :=
  fun _ _ _ h => absurd h fail_ne_ok

/-- A value that may be missing is the result if it is there. -/
theorem ofOption (e : LowerError) (o : Option α) :
    Without x (.ofOption e o) fun _ a => o = some a :=
  of_below (.ofOption e o) fun _ _ _ ha _ _ => (ofOption_eq_ok.1 ha).1

/-- The answer whether a node needs statements is the one of the classification. -/
theorem isStatement (ctx : Context) (prefer : Bool) (e : Expr) :
    Without x (.isStatement ctx prefer e) fun _ b =>
      TypedLowering.isStatement ctx prefer e = .ok b :=
  of_below (.isStatement ctx prefer e) fun _ _ _ h _ _ => (isStatement_eq_ok.1 h).1

/-- A choice may use its condition. -/
theorem ite {c : Prop} [Decidable c] {n : Lower α} (hm : c → Without x m Q)
    (hn : ¬ c → Without x n Q) : Without x (if c then m else n) Q := by
  split
  · exact hm ‹_›
  · exact hn ‹_›

/-- What the handler around caught is not the name. -/
theorem caught : Without x caught? fun _ o => ∀ y ∈ o, y ≠ x :=
  of_below .caught fun s o t h _ habsent y hy => by
    obtain ⟨rfl, -⟩ := read_eq_ok.1 h
    rintro rfl
    exact habsent.caught (List.mem_of_mem_head? hy)

/-- After the loop is marked, it is used. -/
theorem markLooped : Without x markLooped fun looped _ => looped = true :=
  of_below .markLooped fun s _ t h _ habsent => by
    obtain rfl := markLooped_eq_ok.1 h
    exact habsent.looped rfl

/-- The parameters of a loop, with a slot for each. -/
theorem allocateTailCall (label : String) (params : List Ident) :
    Without x (.allocateTailCall label params) fun _ loop =>
      loop.params = declaredParams params ∧ loop.params.length = loop.slots.length :=
  of_below (.allocateTailCall label params) fun s loop t h _ _ => by
    obtain ⟨-, hparams, names, hslots, rfl⟩ := TailCall.allocateTailCall_spec h
    exact ⟨hparams, hparams ▸ TailCall.length_allocateSlots hslots⟩

/-- The alias of a member is not the name. -/
theorem importMember (path selector : String) :
    Without x (.importMember path selector) fun _ y => y ≠ x :=
  of_below (.importMember path selector) fun s y t h _ habsent => by
    rintro rfl
    refine habsent.aliases (path, selector) ?_
    rw [Lower.importMember] at h
    rcases s.imports.importMember_cases s.names path selector with
      ⟨name, hname, himport⟩ | ⟨hnone, candidate, himport⟩
    · rw [himport] at h
      obtain ⟨hy, rfl⟩ := Prod.mk.inj h
      exact Except.ok.inj hy ▸ hname
    · rw [himport] at h
      obtain ⟨hy, rfl⟩ := Prod.mk.inj h
      obtain rfl := Except.ok.inj hy
      exact (ImportTable.alias?_record hnone _).trans (if_pos rfl)

/-- The alias of a module is not the name. -/
theorem importWhole (path : String) : Without x (.importWhole path) fun _ y => y ≠ x :=
  importMember path "*"

/-- A function has a loop of its own. -/
theorem inFunction (h : Without x m Q) : Without x (.inFunction m) fun _ r => Q r.2 r.1 := by
  rintro s ⟨a, looped⟩ t hm
  obtain ⟨u, hma, rfl, rfl⟩ := inFunction_eq_ok.1 hm
  obtain ⟨hu, hQ⟩ := h _ a u hma
  exact ⟨⟨id, hu.caught, hu.asks⟩, fun _ habsent =>
    hQ u.looped ⟨habsent.aliases, habsent.caught, id⟩⟩

/-- In a handler, the name may also be the parameter. -/
theorem inHandler {param : String} (h : Without x m Q) :
    Without x (.inHandler param m) fun looped a => x ≠ param → Q looped a := by
  intro s a t hm
  obtain ⟨u, hma, rfl⟩ := inHandler_eq_ok.1 hm
  obtain ⟨hu, hQ⟩ := h _ a u hma
  exact ⟨⟨hu.looped, congrArg List.tail hu.caught, hu.asks⟩, fun looped habsent hparam =>
    hQ looped ⟨habsent.aliases, fun hmem => (List.mem_cons.1 hmem).elim hparam habsent.caught,
      habsent.looped⟩⟩

/-- The expansion of a call does not refer to the name if the arguments do not. -/
theorem expandInline {ctx : Context} (hctx : Unnamed x ctx) (callee : Expr) (args : List Expr) :
    Without x (TypedLowering.expandInline ctx.file callee args) fun _ o =>
      (∀ arg ∈ args, ¬ arg.Dangles x ctx.targets) → ∀ e ∈ o, ¬ e.Dangles x ctx.targets :=
  of_below (.expandInline ctx.file callee args) fun s o t ho _ _ hargs e he => by
    obtain rfl := Option.mem_def.1 he
    obtain ⟨inline, fresh, hexpands⟩ := expandInline_expands ho
    obtain ⟨name, hname⟩ := hexpands.isInline
    obtain ⟨i, hi, rfl⟩ := mem_inlines hname
    exact not_dangles_expansion hexpands (hctx.inlines i hi) hargs

/-- What a declaration is lowered to. -/
theorem inDeclaration (h : Without x m Q) {used : List String} {s t : LowerState} {a : α}
    (hm : Lower.inDeclaration used m s = (.ok a, t))
    (haliases : ∀ key, t.imports.alias? key ≠ some x)
    (hcaught : x ∉ s.caught) : Q true a := by
  obtain ⟨u, hu, rfl⟩ := inDeclaration_eq_ok.1 hm
  exact (h _ a u hu).2 true ⟨haliases, hcaught, fun _ => rfl⟩

end Without

end Lower

end TypedLowering
