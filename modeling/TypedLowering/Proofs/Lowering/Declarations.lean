import TypedLowering.Ir.Declaration
import TypedLowering.Proofs.Lowering.Below

/-!
# Declarations one after the other

The declarations of a file are lowered in turn (`InTurn`), each in a scope of its own that holds the
names it uses (`InScope`). An import is introduced by the first declaration that asks for it. Its
alias is then new to all names that this declaration and those before it use
(`InTurn.introduced`).
-/

namespace TypedLowering

/-- The names that a declaration uses. -/
def Ir.Leaf.used : Ir.Leaf → List String
  | .action a => a.used
  | .member m => m.used
  | .classDecl c => c.used

/-! ## Requests within a declaration -/

namespace Registry

variable {r t : Registry} {x : String}

/-- What requests within a declaration do to the scopes. -/
structure Widens (r t : Registry) : Prop where
  root : ∀ x ∈ r.names.root, x ∈ t.names.root
  closed : t.names.closed = r.names.closed
  current : ∀ x ∈ r.names.current, x ∈ t.names.current
  reserved : t.names.reserved = r.names.reserved
  /-- A root name that is added is new. -/
  rooted : ∀ x ∈ t.names.root, x ∈ r.names.root ∨ r.IsNew x

namespace Widens

variable {u : Registry}

/-- What is new to a wider registry is new to the narrower one. -/
theorem isNew (h : Widens r t) (hx : t.IsNew x) : r.IsNew x where
  root := mt (h.root x) hx.root
  closed := h.closed ▸ hx.closed
  current := mt (h.current x) hx.current
  reserved := h.reserved ▸ hx.reserved

/-- A registry is as wide as itself. -/
theorem refl (r : Registry) : Widens r r :=
  ⟨fun _ => id, rfl, fun _ => id, rfl, fun _ => .inl⟩

/-- Registries that widen step by step widen altogether. -/
theorem trans (h : Widens r t) (h' : Widens t u) : Widens r u where
  root x := h'.root x ∘ h.root x
  closed := h'.closed.trans h.closed
  current x := h'.current x ∘ h.current x
  reserved := h'.reserved.trans h.reserved
  rooted x hx := by
    rcases h'.rooted x hx with hx | hx
    · exact h.rooted x hx
    · exact .inr (h.isNew hx)

end Widens

/-- One request within a declaration: the scopes are widened, and an alias that is added is new. -/
theorem serve_inner {q : Request} (hq : q.IsInner) (r : Registry) :
    Widens r (r.serve q).2 ∧ ∀ x ∈ (r.serve q).2.imports.aliases,
      x ∈ r.imports.aliases ∨ r.IsNew x := by
  have himport : ∀ key, q.import? = some key → Widens r (r.serve q).2 ∧
      ∀ x ∈ (r.serve q).2.imports.aliases, x ∈ r.imports.aliases ∨ r.IsNew x := by
    intro key hkey
    rcases serve_import (r := r) hkey with ⟨name, -, hserve⟩ | ⟨-, name, hnew, hserve⟩
    · rw [hserve]
      exact ⟨.refl r, fun x hx => .inl hx⟩
    · rw [hserve]
      refine ⟨⟨fun x hx => Scopes.mem_insert.2 (.inr hx), rfl, fun _ => id, rfl, fun x hx => ?_⟩,
        fun x hx => ?_⟩
      · rcases Scopes.mem_insert.1 hx with rfl | hx
        · exact .inr hnew
        · exact .inl hx
      · refine (ImportTable.mem_aliases_record hx).imp_right ?_
        rintro rfl
        exact hnew
  cases q with
  | whole path => exact himport (path, "*") rfl
  | member path selector => exact himport (path, selector) rfl
  | own candidate =>
    exact ⟨⟨fun _ => id, rfl, fun x hx => Scopes.mem_insert.2 (.inr hx), rfl, fun _ => .inl⟩,
      fun x hx => .inl hx⟩
  | root | enter | leave => exact hq.elim

/-- Requests within a declaration widen the scopes, and an alias that they add is new. -/
theorem run_inner {requests : List Request} (hinner : ∀ q ∈ requests, q.IsInner) (r : Registry) :
    Widens r (r.run requests) ∧ ∀ x ∈ (r.run requests).imports.aliases,
      x ∈ r.imports.aliases ∨ r.IsNew x := by
  induction requests generalizing r with
  | nil => exact ⟨.refl r, fun x hx => .inl hx⟩
  | cons q requests ih =>
    obtain ⟨hq, hinner⟩ := List.forall_mem_cons.1 hinner
    obtain ⟨hfirst, halias⟩ := serve_inner hq r
    obtain ⟨hrest, halias'⟩ := ih hinner (r.serve q).2
    refine ⟨hfirst.trans hrest, fun x hx => ?_⟩
    rcases halias' x hx with hx | hx
    · exact halias x hx
    · exact .inr (hfirst.isNew hx)

end Registry

/-- A state that extends another has the wider registry. -/
theorem Extends.widens {s t : LowerState} (h : Extends s t) :
    Registry.Widens s.registry t.registry := by
  obtain ⟨requests, hinner, hrun⟩ := h.asks
  exact hrun ▸ (Registry.run_inner hinner s.registry).1

/-! ## One declaration -/

/-- What lowering a declaration that uses `used` does to the state: a scope with these names is
entered, requests are made in it, and it is left. -/
def InScope (used : List String) (s t : LowerState) : Prop :=
  ∃ u, Extends { s with names := (s.names.enter used).2 } u ∧
    t = { u with names := u.names.leave s.names.current }

namespace Lower

variable {α : Type} {m : Lower α} {used : List String} {s t : LowerState} {a : α}

/-- What runs in a declaration starts with the names it uses and ends with their closing. -/
theorem inDeclaration_eq_ok :
    inDeclaration used m s = (.ok a, t) ↔
      ∃ u, m { s with names := (s.names.enter used).2 } = (.ok a, u) ∧
        { u with names := u.names.leave s.names.current } = t := by
  simp only [inDeclaration, Prod.mk.injEq]
  constructor
  · rintro ⟨ha, rfl⟩
    exact ⟨_, Prod.ext ha rfl, rfl⟩
  · rintro ⟨u, hm, rfl⟩
    rw [hm]
    exact ⟨rfl, rfl⟩

/-- What only asks for local names and imports may run in the scope of a declaration. -/
theorem Below.inScope (hm : Below m m) (h : inDeclaration used m s = (.ok a, t)) :
    InScope used s t := by
  obtain ⟨u, hu, rfl⟩ := inDeclaration_eq_ok.1 h
  exact ⟨u, hm.state hu, rfl⟩

end Lower

namespace InScope

variable {used : List String} {s t : LowerState} {x : String}

/-- The names of the root scope and of the declarations that were left stay, and those that this one
uses come to them. -/
theorem keeps (h : InScope used s t) :
    (∀ x ∈ s.names.root, x ∈ t.names.root) ∧
      ∀ x, x ∈ s.names.closed ∨ x ∈ used → x ∈ t.names.closed := by
  obtain ⟨u, hu, rfl⟩ := h
  refine ⟨hu.widens.root, fun x hx => Scopes.mem_union.2 ?_⟩
  rcases hx with hx | hx
  · exact .inl (hu.widens.closed.symm ▸ hx)
  · exact .inr (hu.widens.current x (Scopes.mem_union.2 (.inr hx)))

/-- An alias that is added is new to all names in use, and to those that the declaration uses. -/
theorem alias_isNew (h : InScope used s t) (hx : x ∈ t.imports.aliases)
    (hnew : x ∉ s.imports.aliases) :
    x ∉ s.names.root ∧ x ∉ s.names.closed ∧ x ∉ used := by
  obtain ⟨u, hu, rfl⟩ := h
  obtain ⟨requests, hinner, hrun⟩ := hu.asks
  obtain ⟨-, halias⟩ := Registry.run_inner hinner
    (LowerState.registry { s with names := (s.names.enter used).2 })
  rw [hrun] at halias
  have hisNew := (halias x hx).resolve_left hnew
  exact ⟨hisNew.root, hisNew.closed, fun hmem =>
    hisNew.current (Scopes.mem_union.2 (.inr hmem))⟩

end InScope

/-- What lowering declarations does to the state between them. -/
structure Passes (s t : LowerState) : Prop where
  root : ∀ x ∈ s.names.root, x ∈ t.names.root
  closed : ∀ x ∈ s.names.closed, x ∈ t.names.closed
  /-- A name of a declaration that was left becomes no root name. -/
  rooted : ∀ x ∈ s.names.closed, x ∉ s.names.root → x ∉ t.names.root
  aliases : (∀ x ∈ s.imports.aliases, x ∈ s.names.root) → ∀ x ∈ t.imports.aliases, x ∈ t.names.root
  caught : t.caught = s.caught
  asks : ∃ requests, s.registry.run requests = t.registry

namespace Passes

variable {s t u : LowerState}

/-- Nothing passes at first. -/
theorem refl (s : LowerState) : Passes s s :=
  ⟨fun _ => id, fun _ => id, fun _ _ => id, id, rfl, [], rfl⟩

/-- What passes step by step passes altogether. -/
theorem trans (h : Passes s t) (h' : Passes t u) : Passes s u where
  root x := h'.root x ∘ h.root x
  closed x := h'.closed x ∘ h.closed x
  rooted x hx hroot := h'.rooted x (h.closed x hx) (h.rooted x hx hroot)
  aliases := h'.aliases ∘ h.aliases
  caught := h'.caught.trans h.caught
  asks := by
    obtain ⟨requests, hrun⟩ := h.asks
    obtain ⟨more, hrun'⟩ := h'.asks
    exact ⟨requests ++ more, by rw [Registry.run_append, hrun, hrun']⟩

/-- An alias that is recorded stays. -/
theorem alias? (h : Passes s t) {key : ImportKey} {x : String}
    (hx : s.imports.alias? key = some x) : t.imports.alias? key = some x := by
  obtain ⟨requests, hrun⟩ := h.asks
  have halias : (s.registry.run requests).imports.alias? key = some x :=
    Registry.run_alias? requests hx
  rwa [hrun] at halias

end Passes

/-- One declaration. -/
theorem InScope.passes {used : List String} {s t : LowerState} (h : InScope used s t) :
    Passes s t := by
  obtain ⟨hroot, hclosed⟩ := h.keeps
  obtain ⟨u, hu, rfl⟩ := h
  refine ⟨hroot, fun x hx => hclosed x (.inl hx), fun x hx hnew hmem => ?_, hu.grows.rooted,
    hu.caught, ?_⟩
  · exact (hu.widens.rooted x hmem).elim hnew fun hisNew => hisNew.closed hx
  · obtain ⟨requests, -, hrun⟩ := hu.asks
    refine ⟨.enter used :: requests ++ [.leave s.names.current], ?_⟩
    rw [Registry.run_append]
    exact congrArg (fun r => (r.serve (.leave s.names.current)).2) hrun

/-! ## Declarations in turn -/

/-- Declarations that are lowered one after the other. -/
inductive InTurn {α : Type} (lower : Ir.Leaf → Lower α) :
    List Ir.Leaf → LowerState → LowerState → Prop
  | nil (s : LowerState) : InTurn lower [] s s
  | cons {leaf : Ir.Leaf} {leaves : List Ir.Leaf} {s u t : LowerState} {a : α}
      (first : lower leaf s = (.ok a, u)) (rest : InTurn lower leaves u t) :
      InTurn lower (leaf :: leaves) s t

/-- Declarations in turn pass the state on as each of them does. -/
theorem InTurn.passes {α : Type} {lower : Ir.Leaf → Lower α} {leaves : List Ir.Leaf}
    {s t : LowerState} (h : InTurn lower leaves s t)
    (hscope : ∀ leaf s a t, lower leaf s = (.ok a, t) → InScope leaf.used s t) : Passes s t := by
  induction h with
  | nil s => exact .refl s
  | cons first rest ih => exact (hscope _ _ _ _ first).passes.trans ih

/-- The local name `x` was introduced by one of the declarations: those before it were lowered
without it, and none of them uses this name, nor does the declaration itself. -/
def Introduced {α : Type} (lower : Ir.Leaf → Lower α) (leaves : List Ir.Leaf) (s t : LowerState)
    (x : String) : Prop :=
  ∃ before leaf after u v a, leaves = before ++ leaf :: after ∧
    InTurn lower before s u ∧ x ∉ u.imports.aliases ∧
    lower leaf u = (.ok a, v) ∧ x ∈ v.imports.aliases ∧ InTurn lower after v t ∧
    ∀ l ∈ before ++ [leaf], x ∉ l.used

/-- Each alias that declarations add was introduced by one of them. -/
theorem InTurn.introduced {α : Type} {lower : Ir.Leaf → Lower α} {leaves : List Ir.Leaf}
    {s t : LowerState} {x : String} (h : InTurn lower leaves s t)
    (hscope : ∀ leaf s a t, lower leaf s = (.ok a, t) → InScope leaf.used s t)
    (hx : x ∈ t.imports.aliases) (hnew : x ∉ s.imports.aliases) :
    x ∉ s.names.root ∧ x ∉ s.names.closed ∧ Introduced lower leaves s t x := by
  induction h with
  | nil => exact absurd hx hnew
  | @cons leaf leaves s u t a first rest ih =>
    have hfirst := hscope leaf s a u first
    by_cases hu : x ∈ u.imports.aliases
    · obtain ⟨hroot, hclosed, hused⟩ := hfirst.alias_isNew hu hnew
      exact ⟨hroot, hclosed, [], leaf, leaves, s, u, a, rfl, .nil s, hnew, first, hu, rest,
        List.forall_mem_singleton.2 hused⟩
    · obtain ⟨hroot, hclosed, before, leaf', after, v, w, b, rfl, hbefore, hv, hleaf, hw, hafter,
        hused⟩ := ih hx hu
      obtain ⟨hkeep, hclose⟩ := hfirst.keeps
      refine ⟨mt (hkeep x) hroot, fun hmem => hclosed (hclose x (.inl hmem)), leaf :: before, leaf',
        after, v, w, b, rfl, .cons first hbefore, hv, hleaf, hw, hafter, ?_⟩
      exact List.forall_mem_cons.2 ⟨fun hmem => hclosed (hclose x (.inr hmem)), hused⟩

end TypedLowering
