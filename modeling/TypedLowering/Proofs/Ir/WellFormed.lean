import TypedLowering.Ir.Declaration
import TypedLowering.Proofs.Ir.Subterms
import TypedLowering.Session.Basic

/-!
# Well-formed expressions

What a front end promises: success nodes stand in the dispatcher of their tree and name one of its
targets, entities are known, no type test is on a type without a run-time form, and a rethrow stands
in a handler. `WellFormed` says so of an expression, by what surrounds each node.
-/

namespace TypedLowering.Ir

/-- What surrounds a node. -/
structure Surroundings where
  /-- How many targets a success node may choose from. -/
  targets : Nat
  /-- Whether there is a handler around. -/
  caught : Bool

/-- Nothing around. -/
def Surroundings.top : Surroundings := ⟨0, false⟩

namespace Expr

/-- The children of a node, with what surrounds them. A tree gives its dispatcher its targets to
choose from; the bodies of targets may not choose. -/
def parts (w : Surroundings) : Expr → List (Surroundings × Expr)
  | .decisionTree dispatcher targets =>
    ({ w with targets := targets.length }, dispatcher) ::
      targets.map fun t => ({ w with targets := 0 }, t.body)
  | .tryCatch body handler finalizer _ =>
    (w, body) :: (handler.toList.map fun h => ({ w with caught := true }, h.body)) ++
      finalizer.toList.map (w, ·)
  | e => e.children.map (w, ·)

/-- Whether a node itself is in place. -/
def Fits (settings : Settings) (w : Surroundings) : Expr → Prop
  | .aggregate (.record entity _) _ _ | .aggregate (.union _ entity _) _ _
  | .test _ (.type (.declared entity _)) _ => (settings.entity? entity).isSome
  | .test _ (.type .unit) _ | .test _ (.type (.option _)) _ | .test _ (.type (.param _)) _ => False
  | .success index _ _ => index < w.targets
  | .throw none _ _ => w.caught = true
  | _ => True

/-- An expression whose nodes are all in place. -/
inductive WellFormed (settings : Settings) : Surroundings → Expr → Prop
  | node {w : Surroundings} {e : Expr} (fits : e.Fits settings w)
      (parts : ∀ p ∈ e.parts w, WellFormed settings p.1 p.2) : WellFormed settings w e

variable {settings : Settings} {w : Surroundings} {e : Expr}

theorem WellFormed.fits (h : WellFormed settings w e) : e.Fits settings w := by
  cases h with
  | node fits _ => exact fits

theorem WellFormed.part (h : WellFormed settings w e) {p : Surroundings × Expr}
    (hp : p ∈ e.parts w) : WellFormed settings p.1 p.2 := by
  cases h with
  | node _ parts => exact parts p hp

/-- The parts of a node are its children. -/
theorem mem_children_of_mem_parts {p : Surroundings × Expr} (h : p ∈ e.parts w) :
    p.2 ∈ e.children := by
  cases e with
  | decisionTree dispatcher targets =>
    rcases List.mem_cons.1 h with rfl | h
    · exact List.mem_cons_self
    · obtain ⟨t, ht, rfl⟩ := List.mem_map.1 h
      exact List.mem_cons_of_mem _ (List.mem_map_of_mem ht)
  | tryCatch body handler finalizer =>
    rcases List.mem_append.1 h with h | h
    · rcases List.mem_cons.1 h with rfl | h
      · exact List.mem_cons_self
      · obtain ⟨hd, hmem, rfl⟩ := List.mem_map.1 h
        obtain rfl := Option.mem_toList.1 hmem
        exact List.mem_cons_of_mem _ (List.mem_append_left _ (List.mem_singleton_self _))
    · obtain ⟨e, he, rfl⟩ := List.mem_map.1 h
      exact List.mem_cons_of_mem _ (List.mem_append_right _ he)
  | _ =>
    obtain ⟨c, hc, rfl⟩ := List.mem_map.1 h
    exact hc

/-- A handler around does no harm. -/
theorem WellFormed.handled (h : WellFormed settings w e) :
    WellFormed settings { w with caught := true } e := by
  induction h with
  | @node w e fits _ ih =>
    refine .node ?_ fun p hp => ?_
    · cases e with
      | throw error =>
        cases error with
        | none => exact rfl
        | some => exact trivial
      | aggregate kind => cases kind <;> exact fits
      | test value kind =>
        cases kind with
        | type ty => cases ty <;> exact fits
        | option | unionCase => exact fits
      | _ => exact fits
    · cases e with
      | decisionTree dispatcher targets =>
        rcases List.mem_cons.1 hp with rfl | hp
        · exact ih _ List.mem_cons_self
        · obtain ⟨t, ht, rfl⟩ := List.mem_map.1 hp
          exact ih ({ w with targets := 0 }, t.body)
            (List.mem_cons_of_mem _ (List.mem_map_of_mem ht))
      | tryCatch body handler finalizer =>
        rcases List.mem_append.1 hp with hp | hp
        · rcases List.mem_cons.1 hp with rfl | hp
          · exact ih _ (List.mem_append_left _ List.mem_cons_self)
          · obtain ⟨hd, hmem, rfl⟩ := List.mem_map.1 hp
            exact ih ({ w with caught := true }, hd.body)
              (List.mem_append_left _ (List.mem_cons_of_mem _ (List.mem_map_of_mem hmem)))
        · obtain ⟨e, he, rfl⟩ := List.mem_map.1 hp
          exact ih (w, e) (List.mem_append_right _ (List.mem_map_of_mem he))
      | _ =>
        obtain ⟨c, hc, rfl⟩ := List.mem_map.1 hp
        exact ih (w, c) (List.mem_map_of_mem hc)

end Expr

/-! ## Declarations -/

/-- The expressions of a declaration. -/
def Leaf.bodies : Leaf → List Expr
  | .action a => [a.body]
  | .member m => [m.body]
  | .classDecl c => c.constructor.toList.map (·.body) ++ c.members.map (·.body)

/-- A declaration of well-formed expressions; the entity of a class is known. -/
structure Leaf.WellFormed (settings : Settings) (leaf : Leaf) : Prop where
  entity : ∀ c, leaf = .classDecl c → (settings.entity? c.entity).isSome
  bodies : ∀ e ∈ leaf.bodies, e.WellFormed settings .top

end TypedLowering.Ir
