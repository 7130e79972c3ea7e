import TypedLowering.Proofs.Ir.Uses
import TypedLowering.Proofs.Ir.WellFormed

/-!
# Which tree a success node belongs to

A success node belongs to the innermost decision tree in whose dispatcher it stands, and the bodies
of targets have none of their own. `Scoped k e` says so of an expression whose success nodes,
outside the dispatchers of its own trees, choose from `k` targets. -/

namespace TypedLowering.Ir.Expr

/-- The children of a node, with the number of targets that their success nodes choose from. -/
def scopes (k : Nat) : Expr → List (Nat × Expr)
  | .decisionTree dispatcher targets =>
    (targets.length, dispatcher) :: targets.map fun t => (0, t.body)
  | e => e.children.map (k, ·)

/-- An expression whose success nodes choose from `k` targets. -/
inductive Scoped : Nat → Expr → Prop
  | node {k : Nat} {e : Expr}
      (selects : ∀ index values ty, e = .success index values ty → index < k)
      (parts : ∀ p ∈ e.scopes k, Scoped p.1 p.2) : Scoped k e

variable {k : Nat} {e : Expr}

namespace Scoped

theorem selects (h : Scoped k e) {index : Nat} {values : List Expr} {ty : Ty}
    (he : e = .success index values ty) : index < k := by
  cases h with
  | node selects _ => exact selects index values ty he

theorem part (h : Scoped k e) {p : Nat × Expr} (hp : p ∈ e.scopes k) : Scoped p.1 p.2 := by
  cases h with
  | node _ parts => exact parts p hp

/-- The children of a node that is no tree choose from the same targets. -/
theorem child (h : Scoped k e) (hscopes : e.scopes k = e.children.map (k, ·)) {c : Expr}
    (hc : c ∈ e.children) : Scoped k c := by
  have hp : (k, c) ∈ e.scopes k := hscopes ▸ List.mem_map_of_mem hc
  exact h.part hp

theorem dispatcher {d : Expr} {ts : List Target} (h : Scoped k (.decisionTree d ts)) :
    Scoped ts.length d :=
  h.part List.mem_cons_self

theorem target {d : Expr} {ts : List Target} (h : Scoped k (.decisionTree d ts)) {t : Target}
    (ht : t ∈ ts) : Scoped 0 t.body :=
  h.part (List.mem_cons_of_mem _ (List.mem_map_of_mem ht))

theorem ident (k : Nat) (id : Ident) : Scoped k (.ident id) :=
  .node (by rintro _ _ _ ⟨⟩) (List.forall_mem_nil _)

theorem success {index : Nat} {ty : Ty} (h : index < k) : Scoped k (.success index [] ty) :=
  .node (by rintro _ _ _ ⟨⟩; exact h) (List.forall_mem_nil _)

/-- More targets to choose from do no harm. -/
theorem mono (h : Scoped k e) {n : Nat} (hn : k ≤ n) : Scoped n e := by
  induction h generalizing n with
  | @node k e selects parts ih =>
    refine .node (fun _ _ _ he => Nat.lt_of_lt_of_le (selects _ _ _ he) hn) fun p hp => ?_
    cases e with
    | decisionTree => exact parts p hp
    | _ =>
      obtain ⟨c, hc, rfl⟩ := List.mem_map.1 hp
      exact ih (k, c) (List.mem_map_of_mem hc) hn

end Scoped

/-- The parts of a renamed expression are renamed parts. -/
theorem exists_of_mem_scopes_rename {r : Renaming} {p : Nat × Expr}
    (h : p ∈ (e.rename r).scopes k) :
    ∃ q ∈ e.scopes k, ∃ r', p = (q.1, q.2.rename r') := by
  have hsame : ∀ {e : Expr}, (e.rename r).scopes k = (e.rename r).children.map (k, ·) →
      e.scopes k = e.children.map (k, ·) → p ∈ (e.rename r).scopes k →
      ∃ q ∈ e.scopes k, ∃ r', p = (q.1, q.2.rename r') := by
    intro e hrenamed he hp
    rw [hrenamed] at hp
    obtain ⟨c, hc, rfl⟩ := List.mem_map.1 hp
    obtain ⟨d, hd, r', -, rfl⟩ := exists_of_mem_children_rename hc
    exact ⟨(k, d), he ▸ List.mem_map_of_mem hd, r', rfl⟩
  cases e with
  | decisionTree dispatcher ts =>
    rw [rename, renameTargets_eq] at h
    rcases List.mem_cons.1 h with rfl | h
    · exact ⟨(ts.length, dispatcher), List.mem_cons_self, r, by rw [List.length_map]⟩
    · obtain ⟨t', ht', rfl⟩ := List.mem_map.1 h
      obtain ⟨t, ht, rfl⟩ := List.mem_map.1 ht'
      exact ⟨(0, t.body), List.mem_cons_of_mem _ (List.mem_map_of_mem ht), r.under t.bound, rfl⟩
  | _ => exact hsame (by rw [rename]; rfl) rfl h

/-- Success nodes do not depend on names. -/
theorem Scoped.rename (h : Scoped k e) (r : Renaming) : Scoped k (e.rename r) := by
  induction h generalizing r with
  | @node k e selects _ ih =>
    refine .node (fun index values ty he => ?_) fun p hp => ?_
    · cases e with
      | success index' values' ty' =>
        rw [Expr.rename] at he
        cases he
        exact selects index values' ty rfl
      | _ => rw [Expr.rename] at he; cases he
    · obtain ⟨q, hq, r', rfl⟩ := exists_of_mem_scopes_rename hp
      exact ih q hq r'

end TypedLowering.Ir.Expr
