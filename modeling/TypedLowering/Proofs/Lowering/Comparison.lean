import TypedLowering.Lowering.Inlining

/-!
# Comparing computations step by step

A relation between computations is a comparison (`Lower.Comparison`) if it is passed on by running
one computation after the other, holds of steps that succeed and have nothing to do with handlers,
and of failures other than that of a rethrow without a handler. What is built from such steps alone
is then related to itself, and what is lowered with related parts is related.
-/

namespace TypedLowering

/-- The failure of a rethrow without a handler around. -/
def unhandled (loc : Option Ir.Location) : LowerError :=
  .unsupported .rethrowOutsideHandler loc

/-- The state with other handlers around. -/
def LowerState.withHandlers (s : LowerState) (params : List String) : LowerState :=
  { s with caught := params }

namespace Lower

variable {α β : Type}

/-- Whether a computation may have that result. -/
def Returns (m : Lower α) (a : α) : Prop := ∃ s t, m s = (.ok a, t)

/-- A step that succeeds and has nothing to do with handlers. -/
def IsStep (m : Lower α) : Prop :=
  ∀ s : LowerState, ∃ a t, m s = (.ok a, t) ∧ t.caught = s.caught ∧
    ∀ params, m (s.withHandlers params) = (.ok a, t.withHandlers params)

namespace IsStep

/-- A value is a step. -/
theorem pure (a : α) : IsStep (Pure.pure a : Lower α) :=
  fun s => ⟨a, s, rfl, rfl, fun _ => rfl⟩

/-- The allocation of a local name is a step. -/
theorem allocateLocal (candidate : String) : IsStep (.allocateLocal candidate) :=
  fun _ => ⟨_, _, rfl, rfl, fun _ => rfl⟩

/-- The allocation of the names of a loop is a step. -/
theorem allocateTailCall (label : String) (params : List Ir.Ident) :
    IsStep (.allocateTailCall label params) :=
  fun _ => ⟨_, _, rfl, rfl, fun _ => rfl⟩

/-- The import of a member is a step. -/
theorem importMember (path selector : String) : IsStep (.importMember path selector) :=
  fun _ => ⟨_, _, rfl, rfl, fun _ => rfl⟩

/-- The resolution of an import is a step. -/
theorem resolveImport (file : SourceFile) (ref : Ir.ImportRef) :
    IsStep (.resolveImport file ref) :=
  fun _ => ⟨_, _, rfl, rfl, fun _ => rfl⟩

/-- A mark that the loop is used is a step. -/
theorem markLooped : IsStep .markLooped :=
  fun _ => ⟨_, _, rfl, rfl, fun _ => rfl⟩

/-- The expansion of a call is a step. -/
theorem expandInline (file : SourceFile) (callee : Ir.Expr) (args : List Ir.Expr) :
    IsStep (TypedLowering.expandInline file callee args) := by
  intro s
  unfold TypedLowering.expandInline
  split
  · split
    · exact ⟨_, _, rfl, rfl, fun _ => rfl⟩
    · split
      · exact ⟨_, _, rfl, rfl, fun _ => rfl⟩
      · split <;> exact ⟨_, _, rfl, rfl, fun _ => rfl⟩
  · exact ⟨_, _, rfl, rfl, fun _ => rfl⟩

end IsStep

/-- A relation that the steps of lowering respect. -/
structure Comparison (R : ∀ {α : Type}, Lower α → Lower α → Prop) : Prop where
  step {α : Type} {m : Lower α} (h : IsStep m) : R m m
  fail {α : Type} {e : LowerError} (h : ∀ loc, e ≠ unhandled loc) : R (fail e : Lower α) (fail e)
  bind {α β : Type} {m m' : Lower α} {f f' : α → Lower β} (hm : R m m')
    (hf : ∀ a, m.Returns a → R (f a) (f' a)) : R (m >>= f) (m' >>= f')
  inFunction {α : Type} {m m' : Lower α} (h : R m m') : R (inFunction m) (inFunction m')

/-- To find out whether statements are needed never fails for want of a handler. -/
theorem isStatementWithin_ne_unhandled (n : Nat) (targets : List Ir.Target) (prefer : Bool)
    (e : Ir.Expr) (loc : Option Ir.Location) :
    isStatementWithin n targets prefer e ≠ .error (unhandled loc) := by
  have hor : ∀ {first second : Except LowerError Bool}, first ≠ .error (unhandled loc) →
      second ≠ .error (unhandled loc) →
      (do if ← first then return true else second) ≠ .error (unhandled loc) := by
    intro first second hfirst hsecond
    rcases first with error | _ | _
    · exact fun h => hfirst h
    · exact hsecond
    · nofun
  have hany : ∀ {ts : List Ir.Target} {p : Ir.Target → Except LowerError Bool},
      (∀ t, p t ≠ .error (unhandled loc)) → ts.anyM p ≠ .error (unhandled loc) := by
    intro ts p hp
    induction ts with
    | nil => nofun
    | cons t ts ih =>
      rw [List.anyM]
      rcases h : p t with error | _ | _
      · exact fun herror => hp t (h.trans herror)
      · exact ih
      · nofun
  induction n generalizing targets prefer e with
  | zero => nofun
  | succ n ih =>
    cases e with
    | cast => exact ih _ _ _
    | ifThenElse guard thenExpr elseExpr =>
      rw [isStatementWithin]
      split
      · nofun
      · exact hor (ih _ _ _) (ih _ _ _)
    | decisionTree dispatcher inner =>
      rw [isStatementWithin]
      split
      · nofun
      · exact hor (ih _ _ _) (hany fun t => ih _ _ _)
    | success index values =>
      rw [isStatementWithin]
      split
      · nofun
      · split
        · exact ih _ _ _
        · nofun
    | _ => nofun

namespace Comparison

variable {R : ∀ {α : Type}, Lower α → Lower α → Prop} (hR : Comparison R)
include hR

/-- A value compares with itself. -/
theorem pure (a : α) : R (Pure.pure a : Lower α) (Pure.pure a) :=
  hR.step (.pure a)

/-- Results may be changed on both sides. -/
theorem bind_pure {m m' : Lower α} (h : R m m') (f : α → β) :
    R (do return f (← m)) (do return f (← m')) :=
  hR.bind h fun a _ => hR.pure (f a)

/-- A missing value is a failure on both sides, or on neither. -/
theorem ofOption {e : LowerError} (he : ∀ loc, e ≠ unhandled loc) (o : Option α) :
    R (.ofOption e o) (.ofOption e o) := by
  cases o with
  | none => exact hR.fail he
  | some a => exact hR.pure a

/-- The question whether a node needs statements compares with itself. -/
theorem isStatement (ctx : Context) (prefer : Bool) (e : Ir.Expr) :
    R (.isStatement ctx prefer e) (.isStatement ctx prefer e) := by
  rw [Lower.isStatement]
  rcases h : TypedLowering.isStatement ctx prefer e with error | b
  · refine hR.fail fun loc herror => ?_
    subst herror
    exact isStatementWithin_ne_unhandled _ _ _ _ loc h
  · exact hR.pure b

omit hR in

/-- A choice compares if both of its branches do. -/
theorem ite (_ : Comparison R) {c : Prop} [Decidable c] {m m' n n' : Lower α} (hm : R m m')
    (hn : R n n') : R (if c then m else n) (if c then m' else n') := by
  split
  · exact hm
  · exact hn

/-- A search compares with itself if each of its tests does. -/
theorem anyM {xs : List α} {p : α → Lower Bool} (h : ∀ x, R (p x) (p x)) :
    R (xs.anyM p) (xs.anyM p) := by
  induction xs with
  | nil => exact hR.pure false
  | cons x xs ih =>
    refine hR.bind (h x) fun b _ => ?_
    cases b with
    | true => exact hR.pure true
    | false => exact ih

end Comparison

end Lower

end TypedLowering
