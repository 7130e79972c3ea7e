import TypedLowering.Ir.Declaration
import TypedLowering.Ir.Renaming
import TypedLowering.Proofs.Ir.Subterms

/-!
# Names in use

What code says about names: which identifiers it mentions, which variables it binds, and which
foreign code and which entities it refers to (`Use`). A renaming adds no uses but those of its new
names (`AllUses.rename`).
-/

namespace TypedLowering

/-- A use of a name. -/
inductive Use where
  /-- The identifier occurs, as a reference or where it is bound. -/
  | name (name : String)
  /-- A variable of that name is bound. -/
  | binder (name : String)
  /-- The template occurs, with whatever names it mentions. -/
  | template (template : String)
  /-- The class of an entity is referred to. -/
  | entity (fullName : String)

/-- Whether a variable of a name may be bound, where uses are of a kind. -/
def Binds (P : Use → Prop) (x : String) : Prop :=
  P (.name x) ∧ P (.binder x)

/-- The variable that a use is of. -/
def Use.variable? : Use → Option String
  | .name x | .binder x => some x
  | .template _ | .entity _ => none

namespace Use

/-- The uses of variables where they are bound. -/
def binders (ids : List Ir.Ident) : List Use :=
  ids.flatMap fun id => [.name id.name, .binder id.name]

/-- What is said of all binders is said of each identifier. -/
theorem forall_binders {P : Use → Prop} {ids : List Ir.Ident} :
    (∀ u ∈ binders ids, P u) ↔ ∀ id ∈ ids, Binds P id.name := by
  simp only [binders, Binds, List.forall_mem_flatMap, List.forall_mem_cons, List.not_mem_nil,
    false_imp_iff, implies_true, and_true]

end Use

namespace Ir

/-- The class that values of a kind are made with. -/
def Aggregate.uses : Aggregate → List Use
  | .record entity _ | .union _ entity _ => [.entity entity]
  | .array _ | .tuple | .anonymous _ => []

/-- The class that a test asks for. -/
def TestKind.uses : TestKind → List Use
  | .type (.declared entity _) => [.entity entity]
  | _ => []

namespace Expr

/-- The uses of a node, apart from those of its sub-expressions. -/
def uses : Expr → List Use
  | .ident id => [.name id.name]
  | .aggregate kind _ _ => kind.uses
  | .test _ kind _ => kind.uses
  | .lambda arg _ _ => Use.binders [arg]
  | .delegate args _ _ => Use.binders args
  | .object members _ _ => members.flatMap fun m => Use.binders m.args
  | .emit template _ _ _ _ => [.template template]
  | .decisionTree _ targets => targets.flatMap fun t => Use.binders t.bound
  | .letIn id _ _ | .forLoop id .. => Use.binders [id]
  | .letRec bindings _ => Use.binders (bindings.map (·.ident))
  | .tryCatch _ handler _ _ => Use.binders (handler.map (·.param)).toList
  | _ => []

/-- Whether all uses in an expression are of a kind. -/
def AllUses (P : Use → Prop) (e : Expr) : Prop :=
  ∀ d ∈ e.subterms, ∀ u ∈ d.uses, P u

variable {P : Use → Prop} {e : Expr}

/-- All uses of an expression are its own and those of its children. -/
theorem allUses_iff : e.AllUses P ↔ (∀ u ∈ e.uses, P u) ∧ ∀ c ∈ e.children, c.AllUses P := by
  constructor
  · exact fun h => ⟨h e e.self_mem_subterms,
      fun c hc d hd => h d (mem_subterms.2 (.inr ⟨c, hc, hd⟩))⟩
  · rintro ⟨he, hc⟩ d hd
    rcases mem_subterms.1 hd with rfl | ⟨c, hmem, hd⟩
    · exact he
    · exact hc c hmem d hd

/-- The uses of the expression itself are of the kind. -/
theorem AllUses.uses (h : e.AllUses P) : ∀ u ∈ e.uses, P u :=
  (allUses_iff.1 h).1

/-- The uses of a child are of the kind. -/
theorem AllUses.of_child {c : Expr} (h : e.AllUses P) (hc : c ∈ e.children) : c.AllUses P :=
  (allUses_iff.1 h).2 c hc

/-- Casts have no uses of their own. -/
theorem AllUses.uncast (h : e.AllUses P) : e.uncast.AllUses P := by
  induction e using induction_on_children with
  | h e ih =>
    cases e with
    | cast inner ty => exact ih inner List.mem_cons_self (h.of_child List.mem_cons_self)
    | _ => exact h

/-! ## Renaming -/

/-- What may be left out is renamed if it is there. -/
@[simp] theorem renameOption_eq (r : Renaming) (o : Option Expr) :
    renameOption r o = o.map (rename r) := by
  cases o <;> rfl

/-- A list is renamed item by item. -/
@[simp] theorem renameList_eq (r : Renaming) (es : List Expr) :
    renameList r es = es.map (rename r) := by
  induction es with
  | nil => rfl
  | cons e es ih => rw [renameList, ih, List.map_cons]

/-- The bodies of members are renamed one by one. -/
@[simp] theorem renameMembers_eq (r : Renaming) (ms : List ObjectMember) :
    renameMembers r ms = ms.map fun m => ⟨m.name, m.args, m.body.rename r, m.kind⟩ := by
  induction ms with
  | nil => rfl
  | cons m ms ih =>
    obtain ⟨_, _, _, _⟩ := m
    rw [renameMembers, ih, List.map_cons]

/-- The bodies of targets are renamed one by one, under what they bind. -/
@[simp] theorem renameTargets_eq (r : Renaming) (ts : List Target) :
    renameTargets r ts = ts.map fun t => ⟨t.bound, t.body.rename (r.under t.bound)⟩ := by
  induction ts with
  | nil => rfl
  | cons t ts ih =>
    obtain ⟨_, _⟩ := t
    rw [renameTargets, ih, List.map_cons]

/-- The values of bindings are renamed one by one. -/
@[simp] theorem renameBindings_eq (r : Renaming) (bs : List Binding) :
    renameBindings r bs = bs.map fun b => ⟨b.ident, b.value.rename r⟩ := by
  induction bs with
  | nil => rfl
  | cons b bs ih =>
    obtain ⟨_, _⟩ := b
    rw [renameBindings, ih, List.map_cons]

/-- The body of a handler is renamed under its parameter. -/
@[simp] theorem renameHandler_eq (r : Renaming) (h : Option Handler) :
    renameHandler r h = h.map fun h => ⟨h.param, h.body.rename (r.under [h.param])⟩ := by
  cases h with
  | none => rfl
  | some h =>
    obtain ⟨_, _⟩ := h
    rfl

/-- The children of a renamed expression are renamed children. -/
theorem exists_of_mem_children_rename {r : Renaming} {c : Expr} (h : c ∈ (e.rename r).children) :
    ∃ d ∈ e.children, ∃ r' ⊆ r, c = d.rename r' := by
  have hunder : ∀ ids, r.under ids ⊆ r := fun ids p hp => (List.mem_filter.1 hp).1
  have hsame : ∀ {e : Expr}, (e.rename r).children = e.children.map (rename r) →
      c ∈ (e.rename r).children → ∃ d ∈ e.children, ∃ r' ⊆ r, c = d.rename r' := by
    intro e heq h
    rw [heq] at h
    obtain ⟨d, hd, rfl⟩ := List.mem_map.1 h
    exact ⟨d, hd, r, List.Subset.refl r, rfl⟩
  cases e with
  | lambda arg body name =>
    obtain rfl := List.mem_singleton.1 h
    exact ⟨body, List.mem_cons_self, _, hunder _, rfl⟩
  | delegate args body name =>
    obtain rfl := List.mem_singleton.1 h
    exact ⟨body, List.mem_cons_self, _, hunder _, rfl⟩
  | letIn id value body =>
    simp only [rename, children, List.mem_cons, List.not_mem_nil, or_false] at h
    rcases h with rfl | rfl
    · exact ⟨value, by simp [children], r, List.Subset.refl r, rfl⟩
    · exact ⟨body, by simp [children], _, hunder _, rfl⟩
  | letRec bindings body =>
    simp only [rename, children, renameBindings_eq, List.map_map, List.mem_append, List.mem_map,
      List.mem_singleton] at h
    rcases h with ⟨b, hb, rfl⟩ | rfl
    · exact ⟨b.value, List.mem_append_left _ (List.mem_map_of_mem hb), _, hunder _, rfl⟩
    · exact ⟨body, by simp [children], _, hunder _, rfl⟩
  | forLoop id start limit body isUp loc =>
    simp only [rename, children, List.mem_cons, List.not_mem_nil, or_false] at h
    rcases h with rfl | rfl | rfl
    · exact ⟨start, by simp [children], r, List.Subset.refl r, rfl⟩
    · exact ⟨limit, by simp [children], r, List.Subset.refl r, rfl⟩
    · exact ⟨body, by simp [children], _, hunder _, rfl⟩
  | tryCatch body handler finalizer loc =>
    simp only [rename, children, renameHandler_eq, renameOption_eq, List.mem_cons, List.mem_append,
      Option.mem_toList, Option.map_map, Option.map_eq_some_iff] at h
    rcases h with rfl | ⟨hd, rfl, rfl⟩ | ⟨fin, rfl, rfl⟩
    · exact ⟨body, by simp [children], r, List.Subset.refl r, rfl⟩
    · exact ⟨hd.body, by simp [children], _, hunder _, rfl⟩
    · exact ⟨fin, by simp [children], r, List.Subset.refl r, rfl⟩
  | decisionTree dispatcher targets =>
    simp only [rename, children, renameTargets_eq, List.map_map, List.mem_cons, List.mem_map] at h
    rcases h with rfl | ⟨t, ht, rfl⟩
    · exact ⟨dispatcher, List.mem_cons_self, r, List.Subset.refl r, rfl⟩
    · exact ⟨t.body, List.mem_cons_of_mem _ (List.mem_map_of_mem ht), _, hunder _, rfl⟩
  | option value | throw value =>
    exact hsame (by cases value <;> simp [rename, children]) h
  | object members ty base =>
    exact hsame (by cases base <;> simp [rename, children, Function.comp_def]) h
  | call callee receiver =>
    exact hsame (by cases receiver <;> simp [rename, children]) h
  | _ => exact hsame (by simp [rename, children]) h

/-- What is inside a renamed expression is what was inside it, renamed. -/
theorem exists_of_mem_subterms_rename {r : Renaming} {d : Expr} (h : d ∈ (e.rename r).subterms) :
    ∃ c ∈ e.subterms, ∃ r', d = c.rename r' := by
  induction e using induction_on_children generalizing r with
  | h e ih =>
    rcases mem_subterms.1 h with rfl | ⟨x, hx, hd⟩
    · exact ⟨e, e.self_mem_subterms, r, rfl⟩
    · obtain ⟨y, hy, r', -, rfl⟩ := exists_of_mem_children_rename hx
      obtain ⟨c, hc, hrename⟩ := ih y hy hd
      exact ⟨c, mem_subterms.2 (.inr ⟨y, hy, hc⟩), hrename⟩

/-- A renamed node has the uses of the node, and at most a new name. -/
theorem mem_uses_rename {r : Renaming} {u : Use} (h : u ∈ (e.rename r).uses) :
    u ∈ e.uses ∨ ∃ p ∈ r, u = .name p.2 := by
  cases e with
  | ident id =>
    obtain rfl := List.mem_singleton.1 h
    rw [Renaming.apply]
    split
    · rename_i old new hfind
      exact .inr ⟨_, List.mem_of_find?_eq_some hfind, rfl⟩
    · exact .inl List.mem_cons_self
  | object | decisionTree | letRec | tryCatch =>
    refine .inl ?_
    simpa [rename, uses, List.flatMap_map, Function.comp_def] using h
  | _ => exact .inl h

/-- A renaming whose new names are of a kind keeps an expression of that kind. -/
theorem AllUses.rename {r : Renaming} (h : e.AllUses P) (hr : ∀ p ∈ r, P (.name p.2)) :
    (e.rename r).AllUses P := by
  induction e using induction_on_children generalizing r with
  | h e ih =>
    rw [allUses_iff] at h
    refine allUses_iff.2 ⟨fun u hu => ?_, fun c hc => ?_⟩
    · rcases mem_uses_rename hu with hu | ⟨p, hp, rfl⟩
      · exact h.1 u hu
      · exact hr p hp
    · obtain ⟨d, hd, r', hr', rfl⟩ := exists_of_mem_children_rename hc
      exact ih d hd (h.2 d hd) fun p hp => hr p (hr' hp)

/-- All uses in an expression. -/
def allUses (e : Expr) : List Use :=
  e.subterms.flatMap uses

/-- The list of all uses has those of the expression and no others. -/
theorem forall_allUses : (∀ u ∈ e.allUses, P u) ↔ e.AllUses P :=
  List.forall_mem_flatMap

end Expr

/-! ## Declarations -/

/-- The uses in a function or a value: its name, its parameters and its body. -/
def Member.uses (m : Member) : List Use :=
  .name m.name :: Use.binders m.args ++ m.body.allUses

/-- The uses in a declaration. -/
def Leaf.uses : Leaf → List Use
  | .action a => a.body.allUses
  | .member m => m.uses
  | .classDecl c =>
    .name c.name :: .entity c.entity :: (c.constructor.toList ++ c.members).flatMap Member.uses

/-- The names that a declaration mentions. -/
def Leaf.names (leaf : Leaf) : List String :=
  leaf.uses.filterMap Use.variable?

/-- The uses of a member are its name, its parameters and those of its body. -/
theorem Member.forall_uses {P : Use → Prop} {m : Member} :
    (∀ u ∈ m.uses, P u) ↔
      P (.name m.name) ∧ (∀ p ∈ m.args, Binds P p.name) ∧ m.body.AllUses P := by
  rw [uses, List.forall_mem_append, List.forall_mem_cons, Use.forall_binders, Expr.forall_allUses,
    and_assoc]

end Ir

end TypedLowering
