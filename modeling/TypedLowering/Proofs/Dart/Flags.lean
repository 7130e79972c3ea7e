import Mathlib.Logic.Function.Basic
import TypedLowering.Proofs.Dart.Blocks
import TypedLowering.Proofs.Dart.ShortCircuit

/-!
# Flags

A machine for statements that compute Booleans. All variables have a Boolean at any time, and it is
false where none is given. The machine knows no scopes; where a block declares a variable that there
is outside of it already, the block has to be left (`Flags.inScopes`).
-/

namespace TypedLowering.Dart

open Control
open Function (update update_self update_of_ne update_eq_self update_idem update_comm)

/-- The Boolean of each variable. -/
abbrev Flags := String → Bool

namespace Flags

/-- The Boolean that an expression is, if it consists of constants, variables, negations, logical
operations and conditionals. -/
def value (a : Flags) : Expr → Bool
  | .literal (.bool value) => value
  | .ident ⟨name, _, none⟩ => a name
  | .unary .not operand => !value a operand
  | .logical .and left right => value a left && value a right
  | .logical .or left right => value a left || value a right
  | .conditional test thenExpr elseExpr =>
    bif value a test then value a thenExpr else value a elseExpr
  | _ => false

/-- The flags after an assignment or a declaration. Nothing else changes them. -/
def after (a : Flags) : Stmt → Flags
  | .assign (.ident ⟨name, _, none⟩) e => update a name (a.value e)
  | .declare id _ init => update a id.name (init.elim false a.value)
  | _ => a

/-- The machine of flags. -/
def machine : Machine Stmt Expr where
  State := Flags
  step code a ok b := ok = true ∧ b = a.after code
  test e a r b := r = some (a.value e) ∧ b = a
  start _ a ok b := ok = true ∧ b = a
  next _ a r b := r = some false ∧ b = a
  pick _ _ a r b := r = some none ∧ b = a
  catches _ a b := b = a
  pick_tests h := by cases h.1

/-! ## Evaluation -/

/-- Code that only reads the flags. -/
def reads {α : Type} (f : Flags → α) : Behaviour Flags α := fun a r b => r = .value (f a) ∧ b = a

/-- Code that only writes the flags. -/
def writes (f : Flags → Flags) : Behaviour Flags Unit := fun a r b => r = .value () ∧ b = f a

theorem reads_bind_iff {α β : Type} {f : Flags → α} {k : α → Behaviour Flags β} {a b : Flags}
    {r : Outcome β} : (reads f >>= k) a r b ↔ k (f a) a r b := by
  constructor
  · rintro (⟨_, ⟨⟨⟩, -⟩, -⟩ | ⟨_, m, ⟨⟨⟩, rfl⟩, h⟩)
    exact h
  · exact fun h => .inr ⟨_, a, ⟨rfl, rfl⟩, h⟩

theorem reads_logical (op : LogicalOp) (left right : Expr) :
    reads (value · (.logical op left right)) =
      .logical id op.decider (reads (value · left)) (reads (value · right)) := by
  ext a r b
  rw [Behaviour.logical, reads_bind_iff]
  cases op <;> cases hl : value a left <;>
    simp [reads, value, hl, LogicalOp.decider, Behaviour.pure_iff]

theorem reads_conditional (guard thenExpr elseExpr : Expr) :
    reads (value · (.conditional guard thenExpr elseExpr)) =
      .conditional id (reads (value · guard)) (reads (value · thenExpr))
        (reads (value · elseExpr)) := by
  ext a r b
  rw [Behaviour.conditional, reads_bind_iff]
  cases hg : value a guard <;> simp [reads, value, hg]

theorem ofTest_reads (f : Flags → Bool) :
    Behaviour.ofTest (fun a r b => r = some (f a) ∧ b = a) = reads f := by
  ext a r b
  cases r with
  | value c =>
    constructor
    · rintro ⟨hc, hb⟩
      exact ⟨congrArg _ (Option.some.inj hc), hb⟩
    · rintro ⟨hc, hb⟩
      exact ⟨congrArg _ (Outcome.value.inj hc), hb⟩
  | exit =>
    constructor
    · rintro ⟨⟨⟨⟩, -⟩, -⟩
    · rintro ⟨⟨⟩, -⟩

theorem ofAction_writes (f : Flags → Flags) :
    Behaviour.ofAction (fun a ok b => ok = true ∧ b = f a) = writes f := by
  ext a r b
  cases r with
  | value => exact and_congr_left fun _ => ⟨fun _ => rfl, fun _ => rfl⟩
  | exit =>
    constructor
    · rintro ⟨⟨⟨⟩, -⟩, -⟩
    · rintro ⟨⟨⟩, -⟩

theorem reads_pure {α β : Type} (f : Flags → α) (g : α → β) :
    (do return g (← reads f)) = reads fun a => g (f a) := by
  ext a r b
  rw [reads_bind_iff]
  rfl

theorem reads_writes {α : Type} (f : Flags → α) (g : α → Flags → Flags) :
    (do writes (g (← reads f))) = writes fun a => g (f a) a := by
  ext a r b
  rw [reads_bind_iff]
  rfl

variable {a : Flags} {x : String} {v : Bool}

/-- How code computes with flags. -/
def evaluation : Evaluation machine where
  Value := Bool
  get a := a
  set a := update a
  get_set a x v := update_self x v a
  set_get a x := update_eq_self x a
  set_set a _ v w := update_idem v w a
  eval e := reads (value · e)
  null := false
  holds := id
  eval_variable _ _ := rfl
  eval_null := rfl
  eval_logical := reads_logical
  eval_conditional := reads_conditional
  eval_trivial e _ := reads_pure (value · e) fun _ => ()
  test_eq e := (ofTest_reads _).trans (reads_pure (value · e) id).symm
  test_not e := (ofTest_reads _).trans (reads_pure (value · e) not).symm
  step_expr e := (ofAction_writes _).trans (reads_writes (value · e) fun _ a => a).symm
  step_assign x _ e :=
    (ofAction_writes _).trans (reads_writes (value · e) fun v a => update a x v).symm
  step_declare x _ _ e :=
    (ofAction_writes _).trans (reads_writes (value · e) fun v a => update a x v).symm
  step_declare_none _ _ := ofAction_writes _

/-- The value of an expression is not that of a variable which it does not mention. -/
theorem value_update {inTemplate : String → String → Prop} {e : Expr}
    (h : e.AllUses (Use.Avoids inTemplate x)) : value (update a x v) e = a.value e := by
  fun_induction value a e with
  | case1 b => rfl
  | case2 name ty => exact update_of_ne h _ _
  | case3 operand ih => rw [value, ih h]
  | case4 left right ihl ihr => rw [value, ihl h.1, ihr h.2]
  | case5 left right ihl ihr => rw [value, ihl h.1, ihr h.2]
  | case6 test thenExpr elseExpr htest ihg iht =>
    rw [value, ihg h.1, htest, cond_true, iht h.2.1]
  | case7 test thenExpr elseExpr htest ihg ihe =>
    rw [value, ihg h.1, htest, cond_false, ihe h.2.2]
  | case8 e hliteral hident hnot hand hor hconditional =>
    exact value.eq_7 _ e hliteral hident hnot hand hor hconditional

theorem after_update {inTemplate : String → String → Prop} {code : Stmt}
    (h : code.AllUses (Use.Avoids inTemplate x)) :
    after (update a x v) code = update (a.after code) x v := by
  unfold after
  split
  · rw [value_update h.2]
    exact update_comm (Ne.symm h.1) _ _ _
  · rename_i id kind init
    have hinit : init.elim false (value (update a x v)) = init.elim false a.value := by
      cases init with
      | none => rfl
      | some e => exact value_update h.2
    rw [hinit]
    exact update_comm (Ne.symm h.1.1) _ _ _
  · rfl

/-- Code has nothing to do with the flags that it does not mention. -/
theorem evaluation_local (inTemplate : String → String → Prop) : evaluation.Local inTemplate where
  eval := by
    intro x e h v a r b
    constructor
    · rintro ⟨rfl, rfl⟩
      exact ⟨a, ⟨congrArg _ (value_update h), rfl⟩, rfl⟩
    · rintro ⟨_, ⟨rfl, rfl⟩, rfl⟩
      exact ⟨congrArg _ (value_update h).symm, rfl⟩
  code x v := {
    step := by
      intro code h a ok b
      constructor
      · rintro ⟨hok, rfl⟩
        exact ⟨_, ⟨hok, rfl⟩, after_update h⟩
      · rintro ⟨_, ⟨hok, rfl⟩, rfl⟩
        exact ⟨hok, (after_update h).symm⟩
    test := by
      intro e h a r b
      constructor
      · rintro ⟨rfl, rfl⟩
        exact ⟨a, ⟨congrArg _ (value_update h), rfl⟩, rfl⟩
      · rintro ⟨_, ⟨rfl, rfl⟩, rfl⟩
        exact ⟨congrArg _ (value_update h).symm, rfl⟩
    start := fun _ => .stay _
    next := fun _ => .stay _
    pick := fun _ _ => .stay _
    catches := fun _ a _ b =>
      ⟨fun h => ⟨a, rfl, h⟩, by rintro ⟨_, rfl, rfl⟩; rfl⟩ }

/-! ## Scopes -/

/-- The flags behind a block: a variable that the block declares is not the one outside of it. -/
def leave (a : Flags) (body : List Stmt) (b : Flags) : Flags :=
  fun x => if x ∈ introduced body then a x else b x

mutual

/-- The flags after a statement, where the branches of a conditional are scopes. -/
def stmtInScopes (a : Flags) : Stmt → Flags
  | .ifElse guard thenBody elseBody =>
    bif a.value guard then a.leave thenBody (inScopes a thenBody)
    else a.leave elseBody (inScopes a elseBody)
  | stmt => a.after stmt

/-- The flags after statements, where the branches of conditionals are scopes. -/
def inScopes (a : Flags) : List Stmt → Flags
  | [] => a
  | stmt :: stmts => inScopes (stmtInScopes a stmt) stmts

end

end Flags

end TypedLowering.Dart
