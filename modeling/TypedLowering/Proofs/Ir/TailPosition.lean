import TypedLowering.Ir.Expr

/-!
# Tail positions

An expression has the value of one of its nodes in tail position: of a branch, of the last item of a
sequence, of the body of a let or a try expression or of a handler, of a leaf of a dispatcher, or of
the target that a leaf selects. If none of these nodes is there for its effects alone, the
expression has a value wherever its evaluation comes to its end (`IsValued`).
-/

namespace TypedLowering.Ir.Expr

/-- Whether a node is only evaluated for its effects. -/
def isEffectOnly : Expr → Bool
  | .set .. | .setIndex .. | .whileLoop .. | .forLoop .. | .debugger _ | .sequence [] => true
  | .emit _ _ isStatement _ _ => isStatement
  | _ => false

/-- The nodes in tail position of an expression whose success nodes select from these targets. -/
inductive InTail : List Target → Expr → Expr → Prop
  | self {targets : List Target} {e : Expr} : InTail targets e e
  | cast {targets : List Target} {inner d : Expr} {ty : Ty} :
    InTail targets inner d → InTail targets (.cast inner ty) d
  | thenBranch {targets : List Target} {guard thenExpr elseExpr d : Expr} {loc : Option Location} :
    InTail targets thenExpr d → InTail targets (.ifThenElse guard thenExpr elseExpr loc) d
  | elseBranch {targets : List Target} {guard thenExpr elseExpr d : Expr} {loc : Option Location} :
    InTail targets elseExpr d → InTail targets (.ifThenElse guard thenExpr elseExpr loc) d
  | dispatcher {targets inner : List Target} {dispatcher d : Expr} :
    InTail inner dispatcher d → InTail targets (.decisionTree dispatcher inner) d
  | target {targets inner : List Target} {dispatcher d : Expr} {t : Target} :
    t ∈ inner → InTail targets t.body d → InTail targets (.decisionTree dispatcher inner) d
  | selected {targets : List Target} {index : Nat} {values : List Expr} {ty : Ty} {d : Expr}
      {t : Target} :
    targets[index]? = some t → InTail targets t.body d →
      InTail targets (.success index values ty) d
  | letBody {targets : List Target} {id : Ident} {value body d : Expr} :
    InTail targets body d → InTail targets (.letIn id value body) d
  | letRecBody {targets : List Target} {bindings : List Binding} {body d : Expr} :
    InTail targets body d → InTail targets (.letRec bindings body) d
  | lastItem {targets : List Target} {es : List Expr} {last d : Expr} :
    InTail targets last d → InTail targets (.sequence (es ++ [last])) d
  | tryBody {targets : List Target} {body d : Expr} {handler : Option Handler}
      {finalizer : Option Expr} {loc : Option Location} :
    InTail targets body d → InTail targets (.tryCatch body handler finalizer loc) d
  | handlerBody {targets : List Target} {body d : Expr} {handler : Handler}
      {finalizer : Option Expr} {loc : Option Location} :
    InTail targets handler.body d → InTail targets (.tryCatch body (some handler) finalizer loc) d

/-- Whether each node in tail position has a value. -/
def IsValued (targets : List Target) (e : Expr) : Prop :=
  ∀ d, InTail targets e d → d.isEffectOnly = false

theorem IsValued.part {targets targets' : List Target} {e d : Expr} (h : IsValued targets e)
    (hd : ∀ {c}, InTail targets' d c → InTail targets e c) : IsValued targets' d :=
  fun c hc => h c (hd hc)

theorem IsValued.lastItem {targets : List Target} {last : Expr}
    (h : IsValued targets (.sequence [last])) : IsValued targets last :=
  h.part fun hd => @InTail.lastItem _ [] _ _ hd

/-- The rest of a sequence has the same value. -/
theorem IsValued.tail {targets : List Target} {e e' : Expr} {es : List Expr}
    (h : IsValued targets (.sequence (e :: e' :: es))) :
    IsValued targets (.sequence (e' :: es)) := by
  rintro d hd
  generalize hseq : Expr.sequence (e' :: es) = seq at hd
  cases hd with
  | self => exact hseq ▸ rfl
  | lastItem hd =>
    rw [Expr.sequence.inj hseq] at h
    exact h d (@InTail.lastItem _ (e :: _) _ _ hd)
  | _ => cases hseq

end TypedLowering.Ir.Expr
