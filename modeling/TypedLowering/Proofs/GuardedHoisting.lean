import TypedLowering.Proofs.Dart.Flags
import TypedLowering.Proofs.Dart.ShortCircuit
import TypedLowering.Proofs.Lowering.Hygiene
import TypedLowering.Proofs.OperandOrder
import TypedLowering.Proofs.TailCalls

/-!
# Hoisted statements stay under their guard

In Dart the statements that an operand of a logical operation or a branch of a conditional needs run
only if the operand or the branch is selected, and the value is that of the selected part, at any
depth of nesting (`captured_shortCircuits`). The value passes through temporaries, whose names are
new. The body of an inline function may bind a name that is not in use at the call, and if this is
the name of a temporary, then it shadows the temporary under the guard (`shadowedTemporary_fails`).
-/

namespace TypedLowering

open Control

/-- If all names that a node may mention are in use, then what a logical operation or a conditional
is lowered to has the short-circuit meaning. -/
theorem captured_shortCircuits {inTemplate : String → String → Prop} {n : Nat} {ctx : Context}
    {e : Ir.Expr} {s t : LowerState} {v : Dart.Hoisted Dart.Expr}
    (huse : InUse inTemplate ctx [] e s) (h : (Dart.rules n).captured ctx e s = (.ok v, t)) :
    Dart.ShortCircuits inTemplate ctx e true v :=
  (Dart.Yields.expr rfl huse h).shortCircuits

/-! ## An operand that is guarded -/

/-- The operation `x && (z <- w; z)`. -/
def guardedUpdate : Ir.Expr :=
  .logical .and (.ident (flag "x")) updatedFlag .boolean none

/-- The update under a guard is captured, and only runs if the guard holds. -/
theorem guardedUpdate_shortCircuits : ∃ v t n l r tmps,
    InUse (fun _ _ => False) (.ofFile bareFile) [] guardedUpdate savedState ∧
    (Dart.rules 8).captured (.ofFile bareFile) guardedUpdate savedState = (.ok v, t) ∧
    v.before.length = 2 ∧
    Dart.Yields (fun _ _ => False) n (.ofFile bareFile) (.ident (flag "x")) true l ∧
    Dart.Yields (fun _ _ => False) n (.ofFile bareFile) updatedFlag true r ∧
    (∀ x ∈ tmps, guardedUpdate.AllUses (Use.Avoids (fun _ _ => False) x)) ∧
    Dart.Flags.evaluation.SameUpTo tmps (Dart.Flags.evaluation.performs v)
      (.logical id false (Dart.Flags.evaluation.performs l)
        (Dart.Flags.evaluation.performs r)) := by
  have huse : InUse (fun _ _ => False) (.ofFile bareFile) [] guardedUpdate savedState :=
    .of_bare _ nofun (by decide)
  obtain ⟨v, t, h, hlength⟩ : ∃ v t,
      (Dart.rules 8).captured (.ofFile bareFile) guardedUpdate savedState = (.ok v, t) ∧
      v.before.length = 2 := ⟨_, _, rfl, rfl⟩
  obtain ⟨n, l, r, ⟨hl, -⟩, ⟨hr, -⟩, tmps, htmps, hmeans⟩ := captured_shortCircuits huse h
  exact ⟨v, t, n, l, r, tmps, huse, h, hlength, hl, hr, fun x hx => (htmps x hx).node,
    hmeans _ _ (Dart.Flags.evaluation_local _)⟩

/-! ## A temporary that is shadowed -/

/-- `f p = let mutable tmp_1 = p in tmp_1`. -/
def shadowingLocal : InlineFunction where
  args := [flag "p"]
  body := .letIn (mutableFlag "tmp_1") (.ident (flag "p")) (.ident (mutableFlag "tmp_1"))

/-- The call `f b` of the inline function. -/
def shadowingCall : Ir.Expr :=
  .call inlineCallee none [.ident (flag "b")] false .boolean none

/-- A declaration that uses `a` and `b` is being lowered. -/
def usesFlags : LowerState :=
  ⟨⟨[], [], ["a", "b"], []⟩, [], .empty, [], false⟩

/-- The operation `a && f b`, where `a` holds and `b` does not. The value of the right operand is
false, and that of the operation is true: under the guard, the temporary of the operation is the
local of `f`. -/
theorem shadowedTemporary_fails : ∃ v r t u,
    (Dart.rules 12).captured (.ofFile (inlineFile shadowingLocal))
      (.logical .and (.ident (flag "a")) shadowingCall .boolean none) usesFlags = (.ok v, t) ∧
    (Dart.rules 11).captured (.ofFile (inlineFile shadowingLocal)) shadowingCall usesFlags =
      (.ok r, u) ∧
    ∃ flags : Dart.Flags, flags "a" = true ∧ flags "b" = false ∧
      (flags.inScopes r.before).value r.value = false ∧
      (flags.inScopes v.before).value v.value = true :=
  ⟨_, _, _, _, rfl, rfl, (· == "a"), rfl, by decide, by decide, by decide⟩

end TypedLowering
