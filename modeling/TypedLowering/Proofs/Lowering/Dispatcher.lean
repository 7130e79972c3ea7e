import TypedLowering.Lowering.Classification
import TypedLowering.Proofs.Ir.Subterms

/-!
# Dispatchers

The dispatcher of a decision tree branches, binds and casts on the way to its success nodes, and
these stand nowhere else (`IsDispatcher`). Where no success nodes are in reach, whether an
expression needs statements can be read off the expression (`isStatement_of_isPlain`).
-/

namespace TypedLowering

namespace Ir.Expr

/-- Whether an expression has no decision trees and no success nodes in it. -/
def IsPlain (e : Expr) : Prop :=
  ∀ d ∈ e.subterms, (∀ dispatcher targets, d ≠ .decisionTree dispatcher targets) ∧
    ∀ index values ty, d ≠ .success index values ty

theorem IsPlain.of_child {c e : Expr} (h : e.IsPlain) (hc : c ∈ e.children) : c.IsPlain :=
  fun d hd => h d (mem_subterms.2 (.inr ⟨c, hc, hd⟩))

theorem isPlain_ident (id : Ident) : (ident id).IsPlain := by
  intro d hd
  obtain rfl := List.mem_singleton.1 hd
  exact ⟨nofun, nofun⟩

/-- A dispatcher of those targets: its success nodes select targets, with a value for each
identifier that the target binds. -/
inductive IsDispatcher (targets : List Target) : Expr → Prop
  | success {index : Nat} {values : List Expr} {ty : Ty} {t : Target} :
      targets[index]? = some t → values.length = t.bound.length → (∀ v ∈ values, v.IsPlain) →
      IsDispatcher targets (.success index values ty)
  | ifThenElse {guard thenExpr elseExpr : Expr} {loc : Option Location} :
      guard.IsPlain → IsDispatcher targets thenExpr → IsDispatcher targets elseExpr →
      IsDispatcher targets (.ifThenElse guard thenExpr elseExpr loc)
  | letIn {id : Ident} {value body : Expr} :
      value.IsPlain → IsDispatcher targets body → IsDispatcher targets (.letIn id value body)
  | cast {inner : Expr} {ty : Ty} :
      IsDispatcher targets inner → IsDispatcher targets (.cast inner ty)

/-- Whether an expression without success nodes in reach has to be lowered to statements. -/
def needsStatements : Expr → Bool
  | .set .. | .setIndex .. | .sequence _ | .letIn .. | .letRec .. | .whileLoop .. | .forLoop ..
  | .tryCatch .. | .throw .. | .debugger _ => true
  | .emit _ _ isStatement _ _ => isStatement
  | .cast expr _ => expr.needsStatements
  | .ifThenElse _ thenExpr elseExpr _ => thenExpr.needsStatements || elseExpr.needsStatements
  | _ => false

end Ir.Expr

open Ir (Expr Target)

theorem isStatementWithin_of_isPlain {n : Nat} {targets : List Target} {e : Expr}
    (hn : e.size ≤ n) (h : e.IsPlain) :
    isStatementWithin n targets false e = .ok e.needsStatements := by
  induction n generalizing e with
  | zero =>
    rw [Expr.size, Expr.subterms_eq, List.length_cons] at hn
    exact absurd hn (Nat.not_succ_le_zero _)
  | succ n ih =>
    have hchild : ∀ c ∈ e.children, isStatementWithin n targets false c = .ok c.needsStatements :=
      fun c hc => ih (Nat.le_of_lt_succ (Nat.lt_of_lt_of_le (Expr.size_lt_of_mem_children hc) hn))
        (h.of_child hc)
    cases e with
    | cast inner ty => exact hchild inner List.mem_cons_self
    | ifThenElse guard thenExpr elseExpr loc =>
      have hthen := hchild thenExpr (by simp [Expr.children])
      have helse := hchild elseExpr (by simp [Expr.children])
      simp only [isStatementWithin, Expr.needsStatements, Bool.false_eq_true, if_false, hthen]
      cases thenExpr.needsStatements with
      | true => rfl
      | false => exact helse
    | decisionTree dispatcher ts => exact absurd rfl ((h _ (Expr.self_mem_subterms _)).1 _ _)
    | success index values ty => exact absurd rfl ((h _ (Expr.self_mem_subterms _)).2 _ _ _)
    | _ => rfl

/-- A conditional is a statement where statements are preferred. -/
theorem isStatement_of_prefers (ctx : Context) (guard thenExpr elseExpr : Expr)
    (loc : Option Ir.Location) :
    isStatement ctx true (.ifThenElse guard thenExpr elseExpr loc) = .ok true := by
  have hpos : ctx.depth (.ifThenElse guard thenExpr elseExpr loc) ≠ 0 := by
    simp [Context.depth]
  obtain ⟨k, hk⟩ := Nat.exists_eq_succ_of_ne_zero hpos
  rw [isStatement, hk]
  rfl

theorem isStatement_of_isPlain (ctx : Context) {e : Expr} (h : e.IsPlain) :
    isStatement ctx false e = .ok e.needsStatements := by
  refine isStatementWithin_of_isPlain ?_ h
  have hnodes : e.size ≤ ctx.nodes e := by
    rw [Context.nodes, List.flatMap_cons, List.length_append]
    exact Nat.le_add_right _ _
  have hsquare : ctx.nodes e + 1 ≤ (ctx.nodes e + 1) * (ctx.nodes e + 1) :=
    Nat.le_mul_of_pos_left _ (Nat.succ_pos _)
  rw [Context.depth]
  omega

end TypedLowering
