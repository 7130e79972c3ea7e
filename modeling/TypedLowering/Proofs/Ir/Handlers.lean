import TypedLowering.Proofs.Ir.Binders
import TypedLowering.Proofs.Lowering.Uses

/-!
# Handlers in expressions

A rethrow that no handler of an expression is around stands open in it (`RethrowsAt`). Success nodes
may select targets of a decision tree from inside a handler; code for the target is then put into
the handler. `HandlersSettled` says that no handler does so: the success nodes in it are in the
dispatchers of trees in it. Both are stable under renaming and what calls of inline functions are
expanded to (`HandlersSettled.bindParams`, `RethrowsAt.of_bindParams`).
-/

namespace TypedLowering

namespace Ir.Expr

/-- The bodies of the targets of a tree. -/
def targetBodies : Expr → List Expr
  | .decisionTree _ targets => targets.map (·.body)
  | _ => []

/-- The body of a handler. -/
def handlerBodies : Expr → List Expr
  | .tryCatch _ handler _ _ => (handler.map (·.body)).toList
  | _ => []

/-- The children of a node that have around them what the node has: a dispatcher has the targets of
its tree around it, and the body of a handler the handler. -/
def ownParts : Expr → List Expr
  | .decisionTree _ targets => targets.map (·.body)
  | .tryCatch body _ finalizer _ => body :: finalizer.toList
  | e => e.children

/-- Whether an expression selects no targets of a tree around it. -/
structure IsSettled (e : Expr) : Prop where
  selected : e.selected = []
  targets : ∀ d ∈ e.subterms, ∀ b ∈ d.targetBodies, b.selected = []

/-- Whether the handlers in an expression select no targets of a tree around them. -/
def HandlersSettled (e : Expr) : Prop :=
  ∀ d ∈ e.subterms, ∀ b ∈ d.handlerBodies, b.IsSettled

instance (e : Expr) : Decidable e.IsSettled :=
  decidable_of_iff (e.selected = [] ∧ ∀ d ∈ e.subterms, ∀ b ∈ d.targetBodies, b.selected = [])
    ⟨fun h => ⟨h.1, h.2⟩, fun h => ⟨h.selected, h.targets⟩⟩

instance (e : Expr) : Decidable e.HandlersSettled :=
  inferInstanceAs (Decidable (∀ d ∈ e.subterms, ∀ b ∈ d.handlerBodies, b.IsSettled))

/-- The children of a node that are in no other handler than the node. -/
def openParts : Expr → List Expr
  | .tryCatch body _ finalizer _ => body :: finalizer.toList
  | e => e.children

/-- Whether a rethrow stands there in an expression, outside of the handlers in it. -/
inductive RethrowsAt (loc : Option Location) : Expr → Prop
  | rethrow (ty : Ty) : RethrowsAt loc (.throw none ty loc)
  | inside {e c : Expr} (hc : c ∈ e.openParts) (h : RethrowsAt loc c) : RethrowsAt loc e

variable {e c : Expr} {r : Renaming}

/-- A part that is neither in a handler nor a dispatcher is in no handler. -/
theorem mem_openParts_of_mem_ownParts (h : c ∈ e.ownParts) : c ∈ e.openParts := by
  cases e with
  | decisionTree => exact List.mem_cons_of_mem _ h
  | _ => exact h

/-- A part that is neither in a handler nor a dispatcher is a child. -/
theorem mem_children_of_mem_ownParts (h : c ∈ e.ownParts) : c ∈ e.children := by
  cases e with
  | decisionTree => exact List.mem_cons_of_mem _ h
  | tryCatch body handler finalizer =>
    rcases List.mem_cons.1 h with rfl | h
    · exact List.mem_cons_self
    · exact List.mem_cons_of_mem _ (List.mem_append_right _ h)
  | _ => exact h

/-- The body of a handler is a child. -/
theorem mem_children_of_mem_handlerBodies (h : c ∈ e.handlerBodies) : c ∈ e.children := by
  cases e with
  | tryCatch => exact List.mem_cons_of_mem _ (List.mem_append_left _ h)
  | _ => nomatch h

/-- The parts of a settled node are settled. -/
theorem IsSettled.ownPart (h : e.IsSettled) (hc : c ∈ e.ownParts) : c.IsSettled := by
  have hchild := mem_children_of_mem_ownParts hc
  refine ⟨?_, fun d hd => h.targets d (mem_subterms.2 (.inr ⟨c, hchild, hd⟩))⟩
  cases e with
  | decisionTree => exact h.targets _ (self_mem_subterms _) c hc
  | success => cases h.selected
  | _ =>
    have hselected := h.selected
    rw [selected_eq_flatMap rfl, List.flatMap_eq_nil_iff] at hselected
    exact hselected c hchild

/-- The handlers of an expression are settled if its own handler and those of its children are. -/
theorem handlersSettled_iff : e.HandlersSettled ↔
    (∀ b ∈ e.handlerBodies, b.IsSettled) ∧ ∀ c ∈ e.children, c.HandlersSettled := by
  constructor
  · exact fun h => ⟨h e e.self_mem_subterms,
      fun c hc d hd => h d (mem_subterms.2 (.inr ⟨c, hc, hd⟩))⟩
  · rintro ⟨he, hchildren⟩ d hd
    rcases mem_subterms.1 hd with rfl | ⟨c, hc, hd⟩
    · exact he
    · exact hchildren c hc d hd

/-- What holds of the handlers of an expression holds of those of its children. -/
theorem HandlersSettled.child (h : e.HandlersSettled) (hc : c ∈ e.children) : c.HandlersSettled :=
  (handlersSettled_iff.1 h).2 c hc

/-! ## Renaming -/

/-- The bodies of targets are renamed. -/
theorem exists_of_mem_targetBodies_rename {b : Expr} (h : b ∈ (e.rename r).targetBodies) :
    ∃ c ∈ e.targetBodies, ∃ r', b = c.rename r' := by
  cases e with
  | decisionTree d ts =>
    rw [rename, targetBodies, renameTargets_eq, List.map_map] at h
    obtain ⟨t, ht, rfl⟩ := List.mem_map.1 h
    exact ⟨t.body, List.mem_map_of_mem ht, _, rfl⟩
  | _ => nomatch h

/-- The body of a handler is renamed. -/
theorem exists_of_mem_handlerBodies_rename {b : Expr} (h : b ∈ (e.rename r).handlerBodies) :
    ∃ c ∈ e.handlerBodies, ∃ r', b = c.rename r' := by
  cases e with
  | tryCatch body handler =>
    rcases handler with _ | ⟨param, caught⟩
    · nomatch h
    · exact ⟨caught, List.mem_singleton_self _, _, List.mem_singleton.1 h⟩
  | _ => nomatch h

/-- A renaming keeps an expression settled. -/
theorem IsSettled.rename (h : e.IsSettled) (r : Renaming) : (e.rename r).IsSettled := by
  refine ⟨(selected_rename r e).trans h.selected, fun d hd b hb => ?_⟩
  obtain ⟨c, hc, r', rfl⟩ := exists_of_mem_subterms_rename hd
  obtain ⟨t, ht, r'', rfl⟩ := exists_of_mem_targetBodies_rename hb
  exact (selected_rename r'' t).trans (h.targets c hc t ht)

/-- A renaming keeps handlers settled. -/
theorem HandlersSettled.rename (h : e.HandlersSettled) (r : Renaming) :
    (e.rename r).HandlersSettled := by
  intro d hd b hb
  obtain ⟨c, hc, r', rfl⟩ := exists_of_mem_subterms_rename hd
  obtain ⟨t, ht, r'', rfl⟩ := exists_of_mem_handlerBodies_rename hb
  exact (h c hc t ht).rename r''

/-- The open parts of a renamed expression are renamed open parts. -/
theorem exists_of_mem_openParts_rename {d : Expr} (h : d ∈ (e.rename r).openParts) :
    ∃ c ∈ e.openParts, ∃ r', d = c.rename r' := by
  have hchildren : (e.rename r).openParts = (e.rename r).children → e.openParts = e.children →
      ∃ c ∈ e.openParts, ∃ r', d = c.rename r' := by
    intro hrenamed hself
    rw [hrenamed] at h
    obtain ⟨c, hc, r', -, heq⟩ := exists_of_mem_children_rename h
    exact ⟨c, hself ▸ hc, r', heq⟩
  cases e with
  | tryCatch body handler finalizer =>
    rcases List.mem_cons.1 h with rfl | h
    · exact ⟨body, List.mem_cons_self, _, rfl⟩
    · cases finalizer with
      | none => nomatch h
      | some e =>
        exact ⟨e, List.mem_cons_of_mem _ (List.mem_singleton_self _), _, List.mem_singleton.1 h⟩
  | _ => exact hchildren rfl rfl

/-- A rethrow has no names in it. -/
theorem RethrowsAt.of_rename {loc : Option Location} (h : (e.rename r).RethrowsAt loc) :
    e.RethrowsAt loc := by
  generalize hd : e.rename r = d at h
  induction h generalizing e r with
  | rethrow ty =>
    cases e with
    | throw error =>
      cases error <;> cases hd
      exact .rethrow ty
    | _ => cases hd
  | inside hc _ ih =>
    subst hd
    obtain ⟨c, hc, r', heq⟩ := exists_of_mem_openParts_rename hc
    exact .inside hc (ih heq.symm)

end Ir.Expr

open Ir (Expr Ident)

/-! ## Expansions -/

/-- What holds of the arguments and the body holds of the expansion, if it is passed on by a
`let`. -/
theorem bindParams_induction {p : Expr → Prop} {params : List Ident} {args : List Expr}
    {body : Expr} (hlet : ∀ id arg rest, p arg → p rest → p (.letIn id arg rest))
    (hargs : ∀ arg ∈ args, p arg) (hbody : p body) : p (bindParams params args body) := by
  induction params generalizing args with
  | nil => exact hbody
  | cons id params ih =>
    cases args with
    | nil => exact hbody
    | cons arg args =>
      obtain ⟨harg, hargs⟩ := List.forall_mem_cons.1 hargs
      exact hlet id arg _ harg (ih hargs)

namespace Ir.Expr

variable {params : List Ident} {args : List Expr} {body : Expr}

/-- An expansion is settled if the arguments and the body are. -/
theorem IsSettled.bindParams (hargs : ∀ arg ∈ args, arg.IsSettled) (hbody : body.IsSettled) :
    (bindParams params args body).IsSettled := by
  refine bindParams_induction (fun id arg rest harg hrest => ⟨?_, fun d hd b hb => ?_⟩) hargs hbody
  · rw [Expr.selected, harg.selected, hrest.selected, List.append_nil]
  · rcases mem_subterms.1 hd with rfl | ⟨c, hc, hdc⟩
    · nomatch hb
    · rcases List.mem_pair.1 hc with rfl | rfl
      · exact harg.targets d hdc b hb
      · exact hrest.targets d hdc b hb

/-- The handlers of an expansion are those of the arguments and of the body. -/
theorem HandlersSettled.bindParams (hargs : ∀ arg ∈ args, arg.HandlersSettled)
    (hbody : body.HandlersSettled) : (bindParams params args body).HandlersSettled := by
  refine bindParams_induction (fun id arg rest harg hrest => ?_) hargs hbody
  refine handlersSettled_iff.2 ⟨nofun, fun c hc => ?_⟩
  rcases List.mem_pair.1 hc with rfl | rfl
  · exact harg
  · exact hrest

/-- A rethrow that stands open in an expansion does so in an argument or in the body. -/
theorem RethrowsAt.of_bindParams {loc : Option Location}
    (h : (bindParams params args body).RethrowsAt loc) :
    (∃ arg ∈ args, arg.RethrowsAt loc) ∨ body.RethrowsAt loc := by
  revert h
  refine bindParams_induction (p := fun e => e.RethrowsAt loc →
    (∃ arg ∈ args, arg.RethrowsAt loc) ∨ body.RethrowsAt loc)
    (fun id arg rest harg hrest h => ?_) (fun arg harg h => .inl ⟨arg, harg, h⟩) .inr
  cases h with
  | inside hc h =>
    rcases List.mem_pair.1 hc with rfl | rfl
    · exact harg h
    · exact hrest h

end Ir.Expr

end TypedLowering
