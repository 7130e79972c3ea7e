import TypedLowering.Ir.Traversal

/-!
# Subterms and children

The subterms of an expression are the expression and the subterms of its children (`subterms_eq`).
So what holds of an expression whenever it holds of its children holds of all expressions
(`Expr.induction_on_children`), and a subterm of a subterm is a subterm.
-/

namespace TypedLowering.Ir.Expr

/-- The subterms of an expression that may be left out. -/
@[simp] theorem subtermsOption_eq (o : Option Expr) :
    subtermsOption o = o.toList.flatMap subterms := by
  cases o with
  | none => rw [subtermsOption, Option.toList_none, List.flatMap_nil]
  | some e => rw [subtermsOption, Option.toList_some, List.flatMap_singleton]

/-- The subterms of a list are those of its items. -/
@[simp] theorem subtermsList_eq (es : List Expr) : subtermsList es = es.flatMap subterms := by
  induction es with
  | nil => rw [subtermsList, List.flatMap_nil]
  | cons e es ih => rw [subtermsList, List.flatMap_cons, ih]

/-- The subterms of members are those of their bodies. -/
@[simp] theorem subtermsMembers_eq (ms : List ObjectMember) :
    subtermsMembers ms = (ms.map (·.body)).flatMap subterms := by
  induction ms with
  | nil => rw [subtermsMembers, List.map_nil, List.flatMap_nil]
  | cons m ms ih =>
    obtain ⟨_, _, _, _⟩ := m
    rw [subtermsMembers, List.map_cons, List.flatMap_cons, ih]

/-- The subterms of targets are those of their bodies. -/
@[simp] theorem subtermsTargets_eq (ts : List Target) :
    subtermsTargets ts = (ts.map (·.body)).flatMap subterms := by
  induction ts with
  | nil => rw [subtermsTargets, List.map_nil, List.flatMap_nil]
  | cons t ts ih =>
    obtain ⟨_, _⟩ := t
    rw [subtermsTargets, List.map_cons, List.flatMap_cons, ih]

/-- The subterms of bindings are those of their values. -/
@[simp] theorem subtermsBindings_eq (bs : List Binding) :
    subtermsBindings bs = (bs.map (·.value)).flatMap subterms := by
  induction bs with
  | nil => rw [subtermsBindings, List.map_nil, List.flatMap_nil]
  | cons b bs ih =>
    obtain ⟨_, _⟩ := b
    rw [subtermsBindings, List.map_cons, List.flatMap_cons, ih]

/-- The subterms of a handler are those of its body. -/
@[simp] theorem subtermsHandler_eq (h : Option Handler) :
    subtermsHandler h = (h.map (·.body)).toList.flatMap subterms := by
  cases h with
  | none => rw [subtermsHandler, Option.map_none, Option.toList_none, List.flatMap_nil]
  | some h =>
    obtain ⟨_, _⟩ := h
    rw [subtermsHandler, Option.map_some, Option.toList_some, List.flatMap_singleton]

/-- The subterms are the expression itself and the subterms of its children. -/
theorem subterms_eq (e : Expr) : e.subterms = e :: e.children.flatMap subterms := by
  cases e <;> rw [subterms] <;> simp [children, List.flatMap_append]

/-- An expression is a subterm of itself. -/
theorem self_mem_subterms (e : Expr) : e ∈ e.subterms := by
  rw [subterms_eq]
  exact List.mem_cons_self

/-- A subterm is the expression or a subterm of a child. -/
theorem mem_subterms {d e : Expr} : d ∈ e.subterms ↔ d = e ∨ ∃ c ∈ e.children, d ∈ c.subterms := by
  rw [subterms_eq, List.mem_cons, List.mem_flatMap]

/-- A child is smaller than its parent. -/
theorem size_lt_of_mem_children {c e : Expr} (h : c ∈ e.children) : c.size < e.size := by
  obtain ⟨before, after, hsplit⟩ := List.append_of_mem h
  rw [size, size, subterms_eq e, hsplit, List.flatMap_append, List.flatMap_cons]
  simp only [List.length_cons, List.length_append]
  omega

/-- Induction over expressions by their children. -/
theorem induction_on_children {p : Expr → Prop} (h : ∀ e, (∀ c ∈ e.children, p c) → p e)
    (e : Expr) : p e :=
  h e fun c hc =>
    have := size_lt_of_mem_children hc
    induction_on_children h c
termination_by e.size

/-- A subterm of a subterm is a subterm. -/
theorem subterms_trans {c d e : Expr} (hc : c ∈ d.subterms) (hd : d ∈ e.subterms) :
    c ∈ e.subterms := by
  induction e using induction_on_children with
  | h e ih =>
    rcases mem_subterms.1 hd with rfl | ⟨x, hx, hd⟩
    · exact hc
    · exact mem_subterms.2 (.inr ⟨x, hx, ih x hx hd⟩)

/-- A child is a subterm. -/
theorem mem_subterms_of_child {c e : Expr} (h : c ∈ e.children) : c ∈ e.subterms :=
  mem_subterms.2 (.inr ⟨c, h, c.self_mem_subterms⟩)

end TypedLowering.Ir.Expr
