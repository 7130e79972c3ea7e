import TypedLowering.Proofs.Lowering.Declarations
import TypedLowering.Proofs.Lowering.Uses

/-!
# The names that lowering makes

Lowering makes local names: slots for loops, temporaries, and parameters of inline functions where
they are expanded. Which names these are is only known at the end, so `Makes` says of a computation
that the names it makes are new and differ (`Registry.Gains`), and that its result is as stated for
every reading of names under which they are what they were made for (`Naming.Fits`).
-/

namespace TypedLowering

open Ir (Expr Ident Target)

/-- What a local name is made for. -/
inductive LocalKind where
  /-- The slot of a parameter, for a function that may become a loop. -/
  | slot
  /-- The join variable of a decision tree, or the bound of a counting loop. -/
  | temporary
  /-- A parameter of an inline function that is expanded. -/
  | inlined
  deriving DecidableEq, Repr

/-- What a name of that kind is called if nothing else is. -/
def LocalKind.Candidate (file : SourceFile) : LocalKind → String → Prop
  | .slot, x => ∃ p : Ident, x = p.name ++ "_mut"
  | .temporary, x => x = "matchResult" ∨ x = "limit"
  | .inlined, x => ∃ i ∈ file.settings.project.inlines, ∃ p ∈ i.2.args, x = p.name

/-- Whether a name of that kind may be called like this: like a candidate, or a variant of it. -/
def LocalKind.Names (file : SourceFile) (kind : LocalKind) (x : String) : Prop :=
  ∃ taken candidate, kind.Candidate file candidate ∧
    x = Names.preventConflicts taken (Names.sanitize candidate)

/-! ## New names -/

/-- Whether local names are made between two states of the names: they are new, they stay local, and
they differ. -/
structure Registry.Gains (file : SourceFile) (r : Registry) (made : List (LocalKind × String))
    (t : Registry) : Prop where
  isNew : ∀ l ∈ made, ¬ r.names.IsTaken l.2
  isLocal : ∀ l ∈ made, l.2 ∈ t.names.current ∧ l.2 ∉ t.names.root
  distinct : (made.map (·.2)).Nodup
  named : ∀ l ∈ made, l.1.Names file l.2

namespace Registry.Gains

variable {file : SourceFile} {r u t : Registry} {as bs : List (LocalKind × String)}

/-- Where nothing is made, nothing is gained. -/
theorem nil (r t : Registry) : Gains file r [] t :=
  ⟨nofun, nofun, .nil, nofun⟩

/-- What two parts make is gained by both together. -/
theorem append (h : Gains file r as u) (h' : Gains file u bs t) (hr : r.Widens u)
    (ht : u.Widens t) : Gains file r (as ++ bs) t where
  isNew l hl := by
    rcases List.mem_append.1 hl with hl | hl
    · exact h.isNew l hl
    · exact mt (Or.imp (hr.root l.2) (hr.current l.2)) (h'.isNew l hl)
  isLocal l hl := by
    rcases List.mem_append.1 hl with hl | hl
    · obtain ⟨hcurrent, hroot⟩ := h.isLocal l hl
      exact ⟨ht.current l.2 hcurrent, fun hmem =>
        (ht.rooted l.2 hmem).elim hroot fun hnew => hnew.current hcurrent⟩
    · exact h'.isLocal l hl
  distinct := by
    -- The first names are taken when the others are made.
    rw [List.map_append, List.nodup_append]
    refine ⟨h.distinct, h'.distinct, ?_⟩
    rintro x hx _ hy rfl
    obtain ⟨l, hl, rfl⟩ := List.mem_map.1 hx
    obtain ⟨l', hl', heq⟩ := List.mem_map.1 hy
    exact h'.isNew l' hl' (.inr (heq ▸ (h.isLocal l hl).1))
  named := List.forall_mem_append.2 ⟨h.named, h'.named⟩

/-- One name. -/
theorem own {kind : LocalKind} {candidate : String} (h : kind.Candidate file candidate)
    (r : Registry) : Gains file r [(kind, (r.names.allocateLocal candidate).1)]
      (r.serve (.own candidate)).2 where
  isNew := List.forall_mem_singleton.2 (r.names.allocateLocal_not_isTaken candidate)
  isLocal := List.forall_mem_singleton.2 ⟨Scopes.mem_insert.2 (.inl rfl),
    fun hroot => r.names.allocateLocal_not_isTaken candidate (.inl hroot)⟩
  distinct := List.nodup_singleton _
  named := List.forall_mem_singleton.2 ⟨_, candidate, h, rfl⟩

/-- One name, and then others. -/
theorem cons {kind : LocalKind} {candidate : String} (hkind : kind.Candidate file candidate)
    (h : Gains file (r.serve (.own candidate)).2 bs t)
    (ht : (r.serve (.own candidate)).2.Widens t) :
    Gains file r ((kind, (r.names.allocateLocal candidate).1) :: bs) t :=
  (own hkind r).append h (serve_inner (q := .own candidate) trivial r).1 ht

/-- The slots of a loop. -/
theorem of_allocateSlots {s : LowerState} {names : Scopes} {params : List Ident}
    {slots : List String} (h : TailCall.allocateSlots s.names params = (slots, names)) :
    Gains file s.registry (slots.map (.slot, ·)) ⟨names, s.imports⟩ := by
  induction params generalizing s slots names with
  | nil =>
    obtain ⟨rfl, rfl⟩ := h
    exact .nil _ _
  | cons p ps ih =>
    obtain ⟨rfl, rfl⟩ := h
    let u : LowerState := { s with names := (s.names.allocateLocal (p.name ++ "_mut")).2 }
    have hslots : TailCall.allocateSlots u.names ps = (_, _) := rfl
    exact cons ⟨p, rfl⟩ (ih hslots) (Extends.of_allocateSlots hslots).widens

/-- New parameters of an inline function. -/
theorem of_freshParams {s : LowerState} {names : Scopes} {params fresh : List Ident}
    (hnames : ∀ p ∈ params, LocalKind.inlined.Candidate file p.name)
    (h : freshParams s.names params = (fresh, names)) :
    Gains file s.registry (fresh.map fun p => (.inlined, p.name)) ⟨names, s.imports⟩ := by
  induction params generalizing s fresh names with
  | nil =>
    obtain ⟨rfl, rfl⟩ := h
    exact .nil _ _
  | cons p ps ih =>
    obtain ⟨rfl, rfl⟩ := h
    let u : LowerState := { s with names := (s.names.allocateLocal p.name).2 }
    have hparams : freshParams u.names ps = (_, _) := rfl
    obtain ⟨hname, hnames⟩ := List.forall_mem_cons.1 hnames
    exact cons hname (ih hnames hparams) (Extends.of_freshParams hparams).widens

end Registry.Gains

/-! ## Readings of names -/

/-- What names may stand for. -/
structure Naming where
  /-- Uses that come from the source. -/
  source : Use → Prop
  imported : String → Prop
  slot : String → Prop
  temporary : String → Prop

namespace Naming

/-- Whether a name may stand for what names of a kind are made for. The new name of a parameter of
an inline function is used like one of the source. -/
def Has (N : Naming) : LocalKind → String → Prop
  | .slot, x => N.slot x
  | .temporary, x => N.temporary x
  | .inlined, x => Binds N.source x

/-- Whether names may stand for what they were made for, from a state to another one. -/
structure Fits (N : Naming) (made : List (LocalKind × String)) (s t : LowerState)
    (looped : Bool) : Prop where
  made : ∀ l ∈ made, N.Has l.1 l.2
  aliases : ∀ key x, t.imports.alias? key = some x → N.imported x
  caught : ∀ x ∈ s.caught, N.source (.name x)
  /-- Whether the loop around is used. -/
  looped : t.looped = true → looped = true

/-- The reading in which all names are of a kind, whatever they stand for. -/
def ofKind (P : Use → Prop) : Naming where
  source := P
  imported x := P (.name x)
  slot x := P (.name x)
  temporary x := P (.name x)

/-- Whether what a context gives access to is of the source. The loop around is not. -/
def Grounds (N : Naming) (ctx : Context) : Prop :=
  Sourced N.source ctx.withoutTailCall

/-- A reading that grounds a context grounds it with the targets of a tree. -/
theorem Grounds.tree {N : Naming} {ctx : Context} {d : Expr} {ts : List Target}
    (h : N.Grounds ctx) (he : (Expr.decisionTree d ts).AllUses N.source) :
    N.Grounds (ctx.withTargets ts) := by
  have hplain : Sourced N.source ctx.withoutTailCall := h
  exact hplain.tree he

end Naming

/-! ## The judgement -/

namespace Lower

variable {α β : Type}

/-- Where `m` gives a result, it has made names, and under every reading that fits them the result
is as stated. -/
def Makes (file : SourceFile) (m : Lower α) (Q : Naming → Bool → α → Prop) : Prop :=
  ∀ s a t, m s = (.ok a, t) → Extends s t ∧ ∃ made,
    Registry.Gains file s.registry made t.registry ∧
      ∀ N looped, Naming.Fits N made s t looped → Q N looped a

namespace Makes

variable {file : SourceFile} {m : Lower α} {Q R : Naming → Bool → α → Prop}

/-- What holds of the results of a computation that makes no names. -/
theorem of_below (hm : Below m m)
    (h : ∀ s a t, m s = (.ok a, t) → ∀ N looped, Naming.Fits N [] s t looped → Q N looped a) :
    Makes file m Q :=
  fun s a t ha => ⟨hm.state ha, [], .nil _ _, h s a t ha⟩

/-- A weaker statement holds where a stronger one does. -/
theorem imp (h : Makes file m Q) (hR : ∀ N looped a, Q N looped a → R N looped a) :
    Makes file m R := by
  intro s a t hm
  obtain ⟨hst, made, hmade, hQ⟩ := h s a t hm
  exact ⟨hst, made, hmade, fun N looped hfits => hR N looped a (hQ N looped hfits)⟩

/-- Every result is a result. -/
theorem of_any (hm : Below m m) : Makes file m fun _ _ _ => True :=
  of_below hm fun _ _ _ _ _ _ _ => trivial

/-- A result that is given makes no names. -/
theorem pure {a : α} (h : ∀ N looped, Q N looped a) : Makes file (Pure.pure a) Q :=
  of_below (.pure a) fun _ _ _ hb N looped _ => (pure_eq_ok.1 hb).1 ▸ h N looped

/-- The second of two computations may use what the first one states. -/
theorem bind {f : α → Lower β} {S : Naming → Bool → β → Prop} (hm : Makes file m Q)
    (hf : ∀ a, Makes file (f a) fun N looped b => Q N looped a → S N looped b) :
    Makes file (m >>= f) S := by
  intro s b t h
  obtain ⟨a, u, hma, hfa⟩ := bind_eq_ok.1 h
  obtain ⟨hsu, as, has, hQ⟩ := hm s a u hma
  obtain ⟨hut, bs, hbs, hS⟩ := hf a u b t hfa
  refine ⟨hsu.trans hut, as ++ bs, has.append hbs hsu.widens hut.widens, fun N looped hfits => ?_⟩
  -- A reading that fits at the end fits both parts: aliases are only added, and the loop stays
  -- used.
  obtain ⟨hfirst, hrest⟩ := List.forall_mem_append.1 hfits.made
  refine hS N looped ⟨hrest, hfits.aliases, hsu.caught ▸ hfits.caught, hfits.looped⟩
    (hQ N looped ⟨hfirst, fun key x hx => ?_, hfits.caught, hfits.looped ∘ hut.looped⟩)
  obtain ⟨requests, -, hrun⟩ := hut.asks
  have halias : (u.registry.run requests).imports.alias? key = some x :=
    Registry.run_alias? requests hx
  rw [hrun] at halias
  exact hfits.aliases key x halias

/-- A failure has no result. -/
theorem fail (e : LowerError) : Makes file (.fail e) Q :=
  fun _ _ _ h => absurd h fail_ne_ok

/-- A value that may be missing is the result if it is there. -/
theorem ofOption (e : LowerError) (o : Option α) :
    Makes file (.ofOption e o) fun _ _ a => o = some a :=
  of_below (.ofOption e o) fun _ _ _ ha _ _ _ => (ofOption_eq_ok.1 ha).1

/-- Asking whether a node needs statements makes no names. -/
theorem isStatement (ctx : Context) (prefer : Bool) (e : Expr) :
    Makes file (.isStatement ctx prefer e) fun _ _ _ => True :=
  of_any (.isStatement ctx prefer e)

/-- A choice may use its condition. -/
theorem ite {c : Prop} [Decidable c] {n : Lower α} (hm : c → Makes file m Q)
    (hn : ¬ c → Makes file n Q) : Makes file (if c then m else n) Q := by
  split
  · exact hm ‹_›
  · exact hn ‹_›

/-- What the handler around caught is a name of the source. -/
theorem caught : Makes file caught? fun N _ o => ∀ x ∈ o, N.source (.name x) :=
  of_below .caught fun s o t h N _ hfits x hx => by
    obtain ⟨rfl, -⟩ := read_eq_ok.1 h
    exact hfits.caught x (List.mem_of_mem_head? hx)

/-- After the loop is marked, it is used. -/
theorem markLooped : Makes file markLooped fun _ looped _ => looped = true :=
  of_below .markLooped fun s _ t h _ _ hfits => by
    obtain rfl := markLooped_eq_ok.1 h
    exact hfits.looped rfl

/-- A new temporary is read as one. -/
theorem allocateTemporary {candidate : String} (h : LocalKind.temporary.Candidate file candidate) :
    Makes file (.allocateLocal candidate) fun N _ x => N.temporary x := by
  intro s x t hx
  refine ⟨(Below.allocateLocal candidate).state hx, [(.temporary, x)], ?_, fun N _ hfits =>
    hfits.made _ List.mem_cons_self⟩
  obtain ⟨hname, rfl⟩ := Prod.mk.inj hx
  obtain rfl := Except.ok.inj hname
  exact .own h s.registry

/-- The slots of a loop, one for each parameter. -/
theorem allocateTailCall (label : String) (params : List Ident) :
    Makes file (.allocateTailCall label params) fun N _ loop =>
      loop.params = declaredParams params ∧ loop.params.length = loop.slots.length ∧
        ∀ slot ∈ loop.slots, N.slot slot := by
  intro s loop t h
  obtain ⟨-, hparams, names, hslots, rfl⟩ := TailCall.allocateTailCall_spec h
  refine ⟨(Below.allocateTailCall label params).state h, loop.slots.map (.slot, ·),
    .of_allocateSlots hslots, fun N _ hfits => ⟨hparams, ?_, fun slot hslot => ?_⟩⟩
  · exact hparams ▸ TailCall.length_allocateSlots hslots
  · exact hfits.made _ (List.mem_map_of_mem hslot)

/-- The alias of a member is read as imported. -/
theorem importMember (path selector : String) :
    Makes file (.importMember path selector) fun N _ x => N.imported x :=
  of_below (.importMember path selector) fun s x t h N _ hfits => by
    refine hfits.aliases (path, selector) x ?_
    rw [Lower.importMember] at h
    rcases s.imports.importMember_cases s.names path selector with
      ⟨name, hname, himport⟩ | ⟨hnone, candidate, himport⟩
    · rw [himport] at h
      obtain ⟨hx, rfl⟩ := Prod.mk.inj h
      exact Except.ok.inj hx ▸ hname
    · rw [himport] at h
      obtain ⟨hx, rfl⟩ := Prod.mk.inj h
      obtain rfl := Except.ok.inj hx
      exact (ImportTable.alias?_record hnone _).trans (if_pos rfl)

/-- A function has a loop of its own. -/
theorem inFunction (h : Makes file m Q) : Makes file (.inFunction m) fun N _ r => Q N r.2 r.1 := by
  rintro s ⟨a, looped⟩ t hm
  obtain ⟨u, hma, rfl, rfl⟩ := inFunction_eq_ok.1 hm
  obtain ⟨hu, made, hmade, hQ⟩ := h _ a u hma
  exact ⟨⟨id, hu.caught, hu.asks⟩, made, hmade, fun N _ hfits =>
    hQ N u.looped ⟨hfits.made, hfits.aliases, hfits.caught, id⟩⟩

/-- In a handler, the parameter is a name of the source. -/
theorem inHandler {param : String} (h : Makes file m Q) :
    Makes file (.inHandler param m) fun N looped a => N.source (.name param) → Q N looped a := by
  intro s a t hm
  obtain ⟨u, hma, rfl⟩ := inHandler_eq_ok.1 hm
  obtain ⟨hu, made, hmade, hQ⟩ := h _ a u hma
  exact ⟨⟨hu.looped, congrArg List.tail hu.caught, hu.asks⟩, made, hmade,
    fun N looped hfits hparam =>
    hQ N looped ⟨hfits.made, hfits.aliases, List.forall_mem_cons.2 ⟨hparam, hfits.caught⟩,
      hfits.looped⟩⟩

/-- The parameters of an inline function that is expanded count as of the source. -/
theorem expandInline (ctx : Context) (callee : Expr) (args : List Expr) :
    Makes ctx.file (TypedLowering.expandInline ctx.file callee args) fun N _ o => N.Grounds ctx →
      (∀ arg ∈ args, arg.AllUses N.source) → ∀ e ∈ o, e.AllUses N.source := by
  intro s o t ho
  refine ⟨(Below.expandInline ctx.file callee args).state ho, ?_⟩
  rcases expandInline_cases ctx.file callee args s with
    ⟨_, heq⟩ | ⟨_, inline, fresh, names, -, hinline, -, hparams, heq⟩
  · rw [heq] at ho
    obtain ⟨hnone, rfl⟩ := Prod.mk.inj ho
    obtain rfl := Except.ok.inj hnone
    exact ⟨[], .nil _ _, fun _ _ _ _ _ => nofun⟩
  · rw [heq] at ho
    obtain ⟨hsome, rfl⟩ := Prod.mk.inj ho
    obtain rfl := Except.ok.inj hsome
    obtain ⟨i, hi, rfl⟩ := mem_inlines hinline
    refine ⟨_, .of_freshParams (fun p hp => ⟨i, hi, p, hp, rfl⟩) hparams, ?_⟩
    intro N _ hfits hctx hargs e he
    obtain rfl := Option.some.inj he
    exact allUses_expansion (fun p hp => hfits.made _ (List.mem_map_of_mem hp)) hargs
      (hctx.inlines i hi)

end Makes

/-! ## All names of a kind -/

/-- If the names of the source and those that may still come up are of a kind, then so are those
that come up. -/
theorem Makes.ensures {file : SourceFile} {m : Lower α} {Q : Naming → Bool → α → Prop}
    (h : Makes file m Q) (P : Use → Prop) : Ensures P m (Q (.ofKind P) true) := by
  intro s a t hs hm
  obtain ⟨hext, made, hmade, hQ⟩ := h s a t hm
  have ht := hs.grows hext.grows
  refine ⟨ht, hQ _ _ ⟨?_, fun key x hx => ht.aliases x (ImportTable.mem_aliases_of_alias? hx),
    hs.caught, fun _ => rfl⟩⟩
  rintro ⟨_ | _ | _, x⟩ hl
  · exact (hs.free x (hmade.isNew _ hl)).1
  · exact (hs.free x (hmade.isNew _ hl)).1
  · exact hs.free x (hmade.isNew _ hl)

/-! ## Declarations -/

/-- Whether names are local to a declaration that uses `used`: they differ from these names, from
each other, and from all root names. -/
structure MakesLocals (file : SourceFile) (used : List String) (made : List (LocalKind × String))
    (s t : LowerState) : Prop where
  isNew : ∀ l ∈ made, l.2 ∉ used ∧ l.2 ∉ s.names.root
  isLocal : ∀ l ∈ made, l.2 ∈ t.names.closed ∧ l.2 ∉ t.names.root
  distinct : (made.map (·.2)).Nodup
  named : ∀ l ∈ made, l.1.Names file l.2

/-- The names that a declaration makes are its own. -/
theorem Makes.inDeclaration {file : SourceFile} {m : Lower α} {Q : Naming → Bool → α → Prop}
    (h : Makes file m Q) {used : List String} {s t : LowerState} {a : α}
    (hm : Lower.inDeclaration used m s = (.ok a, t)) :
    ∃ made, MakesLocals file used made s t ∧
      ∀ N looped, Naming.Fits N made s t looped → Q N looped a := by
  obtain ⟨u, hu, rfl⟩ := inDeclaration_eq_ok.1 hm
  obtain ⟨hext, made, hmade, hQ⟩ := h _ a u hu
  refine ⟨made, ⟨fun l hl => ?_, fun l hl => ?_, hmade.distinct, hmade.named⟩,
    fun N looped hfits => hQ N looped ⟨hfits.made, hfits.aliases, hfits.caught, hfits.looped⟩⟩
  · obtain ⟨hroot, hcurrent⟩ := not_or.1 (hmade.isNew l hl)
    exact ⟨fun hused => hcurrent (Scopes.mem_union.2 (.inr hused)), hroot⟩
  · obtain ⟨hcurrent, hroot⟩ := hmade.isLocal l hl
    exact ⟨Scopes.mem_union.2 (.inr hcurrent), hroot⟩

end Lower

end TypedLowering
