import TypedLowering.Lowering.Sharing
import TypedLowering.Proofs.Ir.Ownership
import TypedLowering.Proofs.Lowering.InUse

/-!
# Temporaries

If all names that a node may mention are in use (`InUse`), then a local name that is allocated while
the node is lowered is mentioned neither by the node nor by what it refers to (`Unmentioned`). What
the node was lowered to before does not mention it either, although the name was free at that time:
nothing would have changed if it had not been.
-/

namespace TypedLowering

open Ir (Expr)

/-- Whether neither a node nor what its context gives access to mentions a name, the loop around
apart. -/
structure Unmentioned (inTemplate : String → String → Prop) (ctx : Context) (e : Expr)
    (x : String) : Prop where
  context : Sourced (Use.Avoids inTemplate x) ctx.withoutTailCall
  node : e.AllUses (Use.Avoids inTemplate x)

/-- What a node does not mention, its children do not mention. -/
theorem Unmentioned.child {inTemplate : String → String → Prop} {ctx : Context} {e c : Expr}
    {x : String} (h : Unmentioned inTemplate ctx e x) (hc : c ∈ e.children) :
    Unmentioned inTemplate ctx c x :=
  ⟨h.context, h.node.of_child hc⟩

/-- The loop has no part in what a node mentions. -/
theorem Unmentioned.congr {inTemplate : String → String → Prop} {ctx ctx' : Context} {e : Expr}
    {x : String} (h : Unmentioned inTemplate ctx' e x)
    (hctx : ctx'.withoutTailCall = ctx.withoutTailCall) : Unmentioned inTemplate ctx e x :=
  ⟨hctx ▸ h.context, h.node⟩

/-- What is known stays known when more names are in use. -/
theorem Scopes.Knows.mono {names names' : Scopes} {inTemplate : String → String → Prop} {u : Use}
    (h : names.Knows inTemplate u) (hnames : ∀ x, names.IsTaken x → names'.IsTaken x) :
    names'.Knows inTemplate u := by
  cases u with
  | name x => exact h.imp_left (hnames x)
  | binder x => exact hnames x h
  | template t => exact fun x hx => hnames x (h x hx)
  | entity => trivial

namespace InUse

variable {inTemplate : String → String → Prop} {ctx : Context} {e c : Expr} {s t : LowerState}
  {x : String}

/-- All names are in use without the loop, too. -/
theorem withoutTailCall {params : List Ir.Ident} (h : InUse inTemplate ctx params e s) :
    InUse inTemplate ctx.withoutTailCall params e s :=
  { h with sourced := h.sourced.withoutTailCall }

/-- The names stay in use. -/
theorem grows {params : List Ir.Ident} (h : InUse inTemplate ctx params e s) (hg : Grows s t) :
    InUse inTemplate ctx params e t where
  params p hp := hg.taken _ (h.params p hp)
  body d hd u hu := (h.body d hd u hu).mono hg.taken
  sourced := {
    builtins := fun x hx => (h.sourced.builtins x hx).mono hg.taken
    entities := fun fullName entity hentity _ =>
      (h.sourced.entities fullName entity hentity trivial).mono hg.taken
    inlines := fun i hi d hd u hu => (h.sourced.inlines i hi d hd u hu).mono hg.taken
    targets := fun t ht => ⟨fun u hu => ((h.sourced.targets t ht).1 u hu).mono hg.taken,
      fun d hd u hu => ((h.sourced.targets t ht).2 d hd u hu).mono hg.taken⟩
    slots := fun loop hloop slot hslot =>
      (h.sourced.slots loop hloop slot hslot).mono hg.taken }
  aliases := hg.rooted h.aliases
  caught x hx := hg.taken x (h.caught x (hg.caught ▸ hx))

/-- The names of a child are in use, too. -/
theorem child {params : List Ir.Ident} (h : InUse inTemplate ctx params e s)
    (hc : c ∈ e.children) : InUse inTemplate ctx params c s :=
  { h with body := h.body.of_child hc }

/-- A name that is not in use is not mentioned. -/
theorem unmentioned (h : InUse inTemplate ctx [] e s) (hx : ¬ s.names.IsTaken x)
    (hbuiltin : x ∉ builtins) : Unmentioned inTemplate ctx e x :=
  ⟨(h.sourced_new hx hbuiltin).withoutTailCall, fun d hd u hu =>
    (h.body d hd u hu).avoids hx hbuiltin⟩

/-- If a name that is free was in use, then nothing that comes up would mention it. -/
theorem open_withTaken {params : List Ir.Ident} (h : InUse inTemplate ctx params e s)
    (hx : ¬ s.names.IsTaken x) : Open (Use.Avoids inTemplate x) (s.withTaken x) where
  free y hy := by
    have hne : y ≠ x := fun heq => hy (Scopes.withTaken_isTaken.2 (.inr heq))
    exact ⟨hne, hne⟩
  aliases y hy := by
    rintro rfl
    exact hx (.inl (h.aliases y hy))
  caught y hy := by
    rintro rfl
    exact hx (h.caught y hy)

/-- Nothing that comes up after a local name is allocated mentions it. -/
theorem open_allocated {params : List Ir.Ident} (h : InUse inTemplate ctx params e s)
    {candidate : String} (hx : Lower.allocateLocal candidate s = (.ok x, t)) :
    ¬ s.names.IsTaken x ∧ Open (Use.Avoids inTemplate x) t := by
  obtain ⟨hname, rfl⟩ := Prod.mk.inj hx
  obtain rfl := Except.ok.inj hname
  have hnew := s.names.allocateLocal_not_isTaken candidate
  refine ⟨hnew, fun y hy => ?_, fun y hy => ?_, fun y hy => ?_⟩
  · have hne : y ≠ (s.names.allocateLocal candidate).1 := fun heq =>
      hy (Scopes.allocateLocal_isTaken.2 (.inr heq))
    exact ⟨hne, hne⟩
  · rintro rfl
    exact hnew (.inl (h.aliases _ hy))
  · rintro rfl
    exact hnew (h.caught _ hy)

end InUse

/-- What the names of the targets do not have in common with a candidate tells a new name from
them. -/
theorem Scopes.allocateLocal_not_mem_builtins {candidate : String} (names : Scopes)
    (h : 'm' ∈ (Names.sanitize candidate).toList) :
    (names.allocateLocal candidate).1 ∉ builtins := by
  have hmem : ∀ taken, 'm' ∈ (Names.preventConflicts taken (Names.sanitize candidate)).toList := by
    intro taken
    rcases Names.preventConflicts_cases taken (Names.sanitize candidate) with h' | ⟨n, h'⟩
    · rwa [h']
    · rw [h', Names.suffixed, String.toList_append, String.toList_append]
      exact List.mem_append_left _ (List.mem_append_left _ h)
  have hnone : ∀ x ∈ builtins, 'm' ∉ x.toList := by decide
  exact fun hbuiltin => hnone _ hbuiltin (hmem _)

end TypedLowering

/-!
## Join variables

A dispatcher whose ends are its own success nodes (`EndsInSuccess`) stores the index of one of them
in the join variable. The variable is a new name, which differs from all names that may come up in
the tree (`InUse.sourced_new`, `InUse.open_join`).
-/

namespace TypedLowering

namespace Ir.Expr

/-! ## The success nodes of a dispatcher -/

/-- What is selected in an expression that may be left out. -/
@[simp] theorem selectedOption_eq (o : Option Expr) :
    selectedOption o = o.toList.flatMap selected := by
  cases o with
  | none => rw [selectedOption, Option.toList_none, List.flatMap_nil]
  | some e => rw [selectedOption, Option.toList_some, List.flatMap_singleton]

/-- What is selected in a list is selected in one of its items. -/
@[simp] theorem selectedList_eq (es : List Expr) : selectedList es = es.flatMap selected := by
  induction es with
  | nil => rw [selectedList, List.flatMap_nil]
  | cons e es ih => rw [selectedList, List.flatMap_cons, ih]

/-- What is selected in members is selected in one of their bodies. -/
@[simp] theorem selectedMembers_eq (ms : List ObjectMember) :
    selectedMembers ms = (ms.map (·.body)).flatMap selected := by
  induction ms with
  | nil => rw [selectedMembers, List.map_nil, List.flatMap_nil]
  | cons m ms ih =>
    obtain ⟨_, _, _, _⟩ := m
    rw [selectedMembers, List.map_cons, List.flatMap_cons, ih]

/-- What is selected in bindings is selected in one of their values. -/
@[simp] theorem selectedBindings_eq (bs : List Binding) :
    selectedBindings bs = (bs.map (·.value)).flatMap selected := by
  induction bs with
  | nil => rw [selectedBindings, List.map_nil, List.flatMap_nil]
  | cons b bs ih =>
    obtain ⟨_, _⟩ := b
    rw [selectedBindings, List.map_cons, List.flatMap_cons, ih]

/-- What is selected in a handler is selected in its body. -/
@[simp] theorem selectedHandler_eq (h : Option Handler) :
    selectedHandler h = (h.map (·.body)).toList.flatMap selected := by
  cases h with
  | none => rw [selectedHandler, Option.map_none, Option.toList_none, List.flatMap_nil]
  | some h =>
    obtain ⟨_, _⟩ := h
    rw [selectedHandler, Option.map_some, Option.toList_some, List.flatMap_singleton]

/-- The success nodes of the children are success nodes of a node that is no tree. -/
theorem selected_subset_of_child {c e : Expr} (h : ∀ k, e.scopes k = e.children.map (k, ·))
    (hc : c ∈ e.children) : c.selected ⊆ e.selected := by
  have hflat : ∀ {e : Expr}, e.selected = e.children.flatMap selected → c ∈ e.children →
      c.selected ⊆ e.selected := fun heq hc i hi => heq ▸ List.mem_flatMap.2 ⟨c, hc, hi⟩
  cases e with
  | decisionTree d ts =>
    obtain ⟨hlen, -⟩ := List.cons.inj (h (ts.length + 1))
    exact absurd (congrArg Prod.fst hlen) (Nat.ne_of_lt (Nat.lt_succ_self _))
  | success index values ty =>
    intro i hi
    rw [selected, selectedList_eq]
    exact List.mem_cons_of_mem _ (List.mem_flatMap.2 ⟨c, hc, hi⟩)
  | _ => exact hflat (by simp [selected, children, List.flatMap_append]) hc

/-- An expression that ends in success nodes of the tree around, whatever branches it takes. -/
inductive EndsInSuccess : Expr → Prop
  | success (index : Nat) (values : List Expr) (ty : Ty) : EndsInSuccess (.success index values ty)
  | ifThenElse (guard : Expr) {thenExpr elseExpr : Expr} (loc : Option Location) :
      EndsInSuccess thenExpr → EndsInSuccess elseExpr →
      EndsInSuccess (.ifThenElse guard thenExpr elseExpr loc)
  | letIn (id : Ident) (value : Expr) {body : Expr} :
      EndsInSuccess body → EndsInSuccess (.letIn id value body)
  | letRec (bindings : List Binding) {body : Expr} :
      EndsInSuccess body → EndsInSuccess (.letRec bindings body)
  | sequence {exprs : List Expr} :
      (∀ last ∈ exprs.getLast?, EndsInSuccess last) → EndsInSuccess (.sequence exprs)
  | cast {inner : Expr} (ty : Ty) : EndsInSuccess inner → EndsInSuccess (.cast inner ty)
  | tryCatch {body : Expr} {handler : Option Handler} (finalizer : Option Expr)
      (loc : Option Location) : EndsInSuccess body →
      (∀ h ∈ handler, EndsInSuccess h.body) →
      EndsInSuccess (.tryCatch body handler finalizer loc)
  | throw (error : Option Expr) (ty : Ty) (loc : Option Location) :
      EndsInSuccess (.throw error ty loc)

end Ir.Expr

/-! ## The name of the variable -/

variable {inTemplate : String → String → Prop} {ctx : Context} {params : List Ir.Ident}
  {body : Ir.Expr} {s t : LowerState}

/-- Nothing that comes up after the join variable is named mentions it. -/
theorem InUse.open_join (h : InUse inTemplate ctx params body s) {join : String}
    (hjoin : Lower.allocateLocal "matchResult" s = (.ok join, t)) :
    ¬ s.names.IsTaken join ∧ join ∉ builtins ∧ Open (Use.Avoids inTemplate join) t := by
  obtain ⟨hnew, hopen⟩ := h.open_allocated hjoin
  obtain rfl := Except.ok.inj (Prod.mk.inj hjoin).1
  exact ⟨hnew, s.names.allocateLocal_not_mem_builtins (by decide), hopen⟩

end TypedLowering
