import TypedLowering.Proofs.Ir.Renaming

/-!
# Undoing a renaming

A renaming to distinct names that an expression does not mention is undone by the pairs turned
around (`rename_swap_rename`). In the scopes that bind an old name its pair drops out on the way
forward. On the way back no pair drops out, since no scope binds a new name, so what the induction
carries is that all pairs take back what a part of them made (`rename_swap_of_subset`).
-/

namespace TypedLowering.Ir

namespace Renaming

variable {r s : Renaming}

/-- The pairs turned around. -/
def swap (r : Renaming) : Renaming :=
  r.map Prod.swap

theorem map_fst_swap (r : Renaming) : r.swap.map (·.1) = r.map (·.2) := by
  rw [swap, List.map_map]
  rfl

theorem under_subset (r : Renaming) (ids : List Ident) : r.under ids ⊆ r :=
  fun _ hp => (List.mem_filter.1 hp).1

/-- Binders of other names stop none of the pairs. -/
theorem under_of_notMem {ids : List Ident} (h : ∀ id ∈ ids, id.name ∉ r.map (·.1)) :
    r.under ids = r := by
  refine List.filter_eq_self.2 fun p hp => ?_
  rw [Bool.not_eq_true', List.any_eq_false]
  intro id hid heq
  exact h id hid (eq_of_beq heq ▸ List.mem_map_of_mem hp)

/-- Turned around, distinct pairs take a name back from what some of them made of it. -/
theorem apply_swap_apply (hr : (r.map (·.2)).Nodup) (hs : s ⊆ r) {name : String}
    (hname : name ∉ r.map (·.2)) : r.swap.apply (s.apply name) = name := by
  cases hfind : s.find? (·.1 == name) with
  | none =>
    have hsame : s.apply name = name := by rw [apply, hfind]
    rw [hsame, apply_of_notMem (by rwa [map_fst_swap])]
  | some p =>
    have hnew : s.apply name = p.2 := by rw [apply, hfind]
    have hold : p.1 = name := by simpa using List.find?_some hfind
    have hmem : (p.2, p.1) ∈ r.swap :=
      List.mem_map_of_mem (f := Prod.swap) (hs (List.mem_of_find?_eq_some hfind))
    rw [hnew, apply_of_mem (by rwa [map_fst_swap]) hmem, hold]

end Renaming

namespace Expr

/-- The names that an expression mentions, where it refers to them or binds them. -/
def names (e : Expr) : List String :=
  e.allUses.filterMap Use.variable?

theorem mem_names_of_uses {e : Expr} {u : Use} {x : String} (hu : u ∈ e.uses)
    (hx : u.variable? = some x) : x ∈ e.names :=
  List.mem_filterMap.2 ⟨u, List.mem_flatMap.2 ⟨e, e.self_mem_subterms, hu⟩, hx⟩

theorem names_subset_of_child {c e : Expr} (hc : c ∈ e.children) : c.names ⊆ e.names := by
  intro x hx
  obtain ⟨u, hu, hx⟩ := List.mem_filterMap.1 hx
  obtain ⟨d, hd, hu⟩ := List.mem_flatMap.1 hu
  exact List.mem_filterMap.2
    ⟨u, List.mem_flatMap.2 ⟨d, subterms_trans hd (mem_subterms_of_child hc), hu⟩, hx⟩

/-- What a node binds in one of its children is mentioned by the node. -/
theorem mem_names_of_binds {e : Expr} {p : Binders × Expr} (hp : p ∈ e.scopedChildren) {id : Ident}
    (hid : id ∈ p.1.ids) : id.name ∈ e.names := by
  have hmem : ∀ {ids : List Ident}, id ∈ ids → .name id.name ∈ Use.binders ids := fun h =>
    List.mem_flatMap.2 ⟨id, h, List.mem_cons_self⟩
  refine mem_names_of_uses (u := .name id.name) ?_ rfl
  cases e with
  | lambda arg body name | delegate args body name =>
    obtain rfl := List.mem_singleton.1 hp
    exact hmem hid
  | letIn b value body =>
    simp only [scopedChildren, List.mem_cons, List.not_mem_nil, or_false] at hp
    rcases hp with rfl | rfl
    · exact absurd hid List.not_mem_nil
    · exact hmem hid
  | letRec bindings body =>
    obtain ⟨c, -, rfl⟩ := List.mem_map.1 hp
    exact hmem hid
  | forLoop b start limit body isUp loc =>
    simp only [scopedChildren, List.mem_cons, List.not_mem_nil, or_false] at hp
    rcases hp with rfl | rfl | rfl
    · exact absurd hid List.not_mem_nil
    · exact absurd hid List.not_mem_nil
    · exact hmem hid
  | tryCatch body handler finalizer loc =>
    rcases List.mem_cons.1 hp with rfl | hp
    · exact absurd hid List.not_mem_nil
    rcases List.mem_append.1 hp with hp | hp
    · obtain ⟨h, rfl, rfl⟩ := Option.map_eq_some_iff.1 (Option.mem_toList.1 hp)
      exact hmem hid
    · obtain ⟨c, -, rfl⟩ := List.mem_map.1 hp
      exact absurd hid List.not_mem_nil
  | decisionTree dispatcher targets =>
    rcases List.mem_cons.1 hp with rfl | hp
    · exact absurd hid List.not_mem_nil
    · obtain ⟨t, ht, rfl⟩ := List.mem_map.1 hp
      exact List.mem_flatMap.2 ⟨t, ht, hmem hid⟩
  | object members ty base =>
    rcases List.mem_append.1 hp with hp | hp
    · obtain ⟨m, hm, rfl⟩ := List.mem_map.1 hp
      exact List.mem_flatMap.2 ⟨m, hm, hmem hid⟩
    · obtain ⟨c, -, rfl⟩ := List.mem_map.1 hp
      exact absurd hid List.not_mem_nil
  | _ =>
    obtain ⟨c, -, rfl⟩ := List.mem_map.1 hp
    exact absurd hid List.not_mem_nil

theorem map_eq_self {α : Type} {f : α → α} {xs : List α} (h : ∀ x ∈ xs, f x = x) : xs.map f = xs :=
  (List.map_congr_left h).trans (List.map_id xs)

/-- A node with the same children is the same node. -/
theorem mapChildren_eq_self {e : Expr} {f : Expr → Expr} (h : ∀ c ∈ e.children, f c = c) :
    e.mapChildren f = e := by
  have hoption : ∀ {o : Option Expr}, (∀ c ∈ o.toList, f c = c) → o.map f = o := by
    rintro (_ | c) ho
    · rfl
    · exact congrArg some (ho c List.mem_cons_self)
  cases e with
  | option value ty loc => rw [mapChildren, hoption h]
  | throw error ty loc => rw [mapChildren, hoption h]
  | object members ty base =>
    obtain ⟨hmembers, hbase⟩ := List.forall_mem_append.1 h
    rw [mapChildren, hoption hbase, map_eq_self]
    rintro ⟨name, args, body, kind⟩ hm
    rw [hmembers body (List.mem_map_of_mem hm)]
  | call callee receiver args isNew ty loc =>
    obtain ⟨hcallee, hrest⟩ := List.forall_mem_cons.1 h
    obtain ⟨hreceiver, hargs⟩ := List.forall_mem_append.1 hrest
    rw [mapChildren, hcallee, hoption hreceiver, map_eq_self hargs]
  | decisionTree dispatcher targets =>
    obtain ⟨hdispatcher, htargets⟩ := List.forall_mem_cons.1 h
    rw [mapChildren, hdispatcher, map_eq_self]
    rintro ⟨bound, body⟩ ht
    rw [htargets body (List.mem_map_of_mem ht)]
  | letRec bindings body =>
    obtain ⟨hvalues, hbody⟩ := List.forall_mem_append.1 h
    rw [mapChildren, hbody body List.mem_cons_self, map_eq_self]
    rintro ⟨id, value⟩ hb
    rw [hvalues value (List.mem_map_of_mem hb)]
  | tryCatch body handler finalizer loc =>
    obtain ⟨hbody, hrest⟩ := List.forall_mem_cons.1 h
    obtain ⟨hhandler, hfinalizer⟩ := List.forall_mem_append.1 hrest
    rw [mapChildren, hbody, hoption hfinalizer]
    cases handler with
    | none => rfl
    | some handler =>
      obtain ⟨param, body⟩ := handler
      rw [Option.map_some, hhandler body List.mem_cons_self]
  | _ => simp_all [mapChildren, children, map_eq_self]

variable {r s : Renaming}

/-- What a part of the pairs made of an expression, all pairs turned around take back. -/
theorem rename_swap_of_subset (hr : (r.map (·.2)).Nodup) (hs : s ⊆ r) {e : Expr}
    (hfresh : ∀ x ∈ e.names, x ∉ r.map (·.2)) : (e.rename s).rename r.swap = e := by
  induction e using induction_on_children generalizing s with
  | h e ih =>
    have hchild : ∀ c ∈ e.children, (c.rename s).rename r.swap = c := fun c hc =>
      ih c hc hs fun x hx => hfresh x (names_subset_of_child hc hx)
    -- On the way back all pairs still apply in the scopes of the node.
    have hscope : ∀ {ids c}, (.of ids, c) ∈ e.scopedChildren →
        (c.rename (s.under ids)).rename (r.swap.under ids) = c := by
      intro ids c hp
      have hc : c ∈ e.children := map_snd_scopedChildren e ▸ List.mem_map_of_mem hp
      rw [Renaming.under_of_notMem]
      · exact ih c hc (List.Subset.trans (Renaming.under_subset s ids) hs)
          fun x hx => hfresh x (names_subset_of_child hc hx)
      · intro id hid
        rw [Renaming.map_fst_swap]
        exact hfresh _ (mem_names_of_binds hp hid)
    cases e with
    | ident id =>
      have hname : id.name ∉ r.map (·.2) :=
        hfresh _ (mem_names_of_uses (u := .name id.name) List.mem_cons_self rfl)
      rw [rename, rename, Renaming.apply_swap_apply hr hs hname]
    | lambda arg body name | delegate args body name =>
      rw [rename, rename, hscope List.mem_cons_self]
    | letIn id value body =>
      rw [rename, rename, hchild value List.mem_cons_self,
        hscope (List.mem_cons_of_mem _ List.mem_cons_self)]
    | letRec bindings body =>
      let ids := bindings.map (·.ident)
      simp only [rename, renameBindings_eq, List.map_map]
      exact mapChildren_eq_self (e := .letRec bindings body)
        (f := fun c => (c.rename (s.under ids)).rename (r.swap.under ids))
        fun c hc => hscope (List.mem_map_of_mem hc)
    | forLoop id start limit body isUp loc =>
      rw [rename, rename, hchild start (by simp [children]), hchild limit (by simp [children]),
        hscope (by simp [scopedChildren])]
    | tryCatch body handler finalizer loc =>
      have hfinalizer : (finalizer.map (rename s)).map (rename r.swap) = finalizer := by
        cases finalizer with
        | none => rfl
        | some f => exact congrArg some (hchild f (by simp [children]))
      rw [rename, rename, hchild body List.mem_cons_self, renameOption_eq, renameOption_eq,
        hfinalizer]
      cases handler with
      | none => rfl
      | some handler =>
        obtain ⟨param, body⟩ := handler
        rw [renameHandler, renameHandler, hscope (by simp [scopedChildren])]
    | decisionTree dispatcher targets =>
      rw [rename, rename, hchild dispatcher List.mem_cons_self, renameTargets_eq, renameTargets_eq,
        List.map_map, map_eq_self]
      rintro ⟨bound, body⟩ ht
      have hp : (.of bound, body) ∈ (decisionTree dispatcher targets).scopedChildren :=
        List.mem_cons_of_mem _ (List.mem_map.2 ⟨_, ht, rfl⟩)
      exact congrArg (Target.mk bound) (hscope hp)
    | literal | imported | debugger => rfl
    | _ =>
      simp only [rename, renameList_eq, renameOption_eq, renameMembers_eq, List.map_map,
        Option.map_map]
      exact mapChildren_eq_self (f := fun c => (c.rename s).rename r.swap) hchild

/-- A renaming to distinct names that the expression mentions nowhere, neither as references nor as
binders, is undone by the pairs turned around. -/
theorem rename_swap_rename {r : Renaming} (hr : (r.map (·.2)).Nodup) {e : Expr}
    (hfresh : ∀ p ∈ r, p.2 ∉ e.names) : (e.rename r).rename r.swap = e := by
  refine rename_swap_of_subset hr (List.Subset.refl r) fun x hx hnew => ?_
  obtain ⟨p, hp, rfl⟩ := List.mem_map.1 hnew
  exact hfresh p hp hx

/-- Forward the function keeps its own `b`, and backward it finds no binder of `x` or `y`. -/
theorem sums_rename_back :
    ([("a", "x"), ("b", "y")].map (·.2)).Nodup ∧
      (∀ p ∈ [("a", "x"), ("b", "y")], p.2 ∉ sums.names) ∧
      sums.rename [("a", "x"), ("b", "y")] =
        .sequence [
          .binary .plus (.ident (int "x")) (.ident (int "y")) (.number .int32) none,
          .delegate [int "b"]
            (.binary .plus (.ident (int "x")) (.ident (int "b")) (.number .int32) none) none] ∧
      (sums.rename [("a", "x"), ("b", "y")]).rename [("x", "a"), ("y", "b")] = sums := by
  have hr : ([("a", "x"), ("b", "y")].map (·.2)).Nodup := by decide
  have hfresh : ∀ p ∈ [("a", "x"), ("b", "y")], p.2 ∉ sums.names := by decide
  exact ⟨hr, hfresh, rfl, rename_swap_rename hr hfresh⟩

end Expr

end TypedLowering.Ir
