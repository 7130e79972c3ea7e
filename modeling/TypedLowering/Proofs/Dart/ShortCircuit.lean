import TypedLowering.Proofs.Control.Behaviour
import TypedLowering.Proofs.Dart.Update
import TypedLowering.Proofs.Lowering.Temporaries

/-!
# Statements that are hoisted out of an expression

An expression with the statements before it is performed by running the statements and evaluating
the expression (`Evaluation.performs`). Where an operand that may be left out needs statements,
these stand in an `if` statement, and a new local takes the value. So logical operations and
conditionals keep their short-circuit meaning, but for the local (`logical_sameBut`,
`conditional_sameBut`, `conditionalStmts_sameBut`).
-/

namespace TypedLowering.Dart

open Control Lower

/-- The value of the left operand that decides a logical operation. -/
def LogicalOp.decider : LogicalOp → Bool
  | .and => false
  | .or => true

/-- The condition under which the right operand is needed, where the left one is in a variable. -/
def LogicalOp.guard (tmp : Ident) : LogicalOp → Expr
  | .and => .ident tmp
  | .or => .unary .not (.ident tmp)

/-- How the expressions of a machine are evaluated, and what its statements do with their values.
Conditions are Booleans, and a variable that is declared without a value is null. -/
structure Evaluation (M : Machine Stmt Expr) extends Memory M.State where
  eval : Expr → Behaviour M.State Value
  null : Value
  /-- Whether a condition is met that has the value. -/
  holds : Value → Bool
  eval_variable (x : String) (ty : Ty) : eval (.ident (.own x ty)) = toMemory.load x
  eval_null : eval .null = pure null
  eval_logical (op : LogicalOp) (left right : Expr) :
    eval (.logical op left right) = .logical holds op.decider (eval left) (eval right)
  eval_conditional (guard thenExpr elseExpr : Expr) :
    eval (.conditional guard thenExpr elseExpr) =
      .conditional holds (eval guard) (eval thenExpr) (eval elseExpr)
  /-- A trivial expression has a value and no effects. -/
  eval_trivial (e : Expr) : e.isTrivial = true → (do let _ ← eval e) = pure ()
  test_eq (e : Expr) : .ofTest (M.test e) = (do return holds (← eval e))
  test_not (e : Expr) : .ofTest (M.test (.unary .not e)) = (do return !holds (← eval e))
  step_expr (e : Expr) : .ofAction (M.step (.expr e)) = (do let _ ← eval e)
  step_assign (x : String) (ty : Ty) (e : Expr) :
    .ofAction (M.step (.assign (.ident (.own x ty)) e)) = (do toMemory.store x (← eval e))
  step_declare (x : String) (ty : Ty) (kind : VarKind) (e : Expr) :
    .ofAction (M.step (.declare (.own x ty) kind (some e))) = (do toMemory.store x (← eval e))
  step_declare_none (x : String) (ty : Ty) :
    .ofAction (M.step (.declare (.own x ty) .var none)) = toMemory.store x null

/-- Runs statements, which have no value. -/
def execute (M : Machine Stmt Expr) (stmts : List Stmt) : Behaviour M.State Unit :=
  .ofRuns (runAll M (flows stmts))

section
variable {M : Machine Stmt Expr}

/-- No statements do nothing. -/
@[simp] theorem execute_nil : execute M [] = pure () := by
  rw [execute, flows_nil, runAll_nil, Behaviour.ofRuns_exit_normal]

/-- The first part of a block is executed before the second. -/
theorem execute_append (as bs : List Stmt) :
    execute M (as ++ bs) = (do execute M as; execute M bs) := by
  rw [execute, flows_append, runAll_append, Behaviour.ofRuns_seq]
  rfl

/-- A statement is executed before those behind it. -/
theorem execute_cons (stmt : Stmt) (stmts : List Stmt) :
    execute M (stmt :: stmts) = (do execute M [stmt]; execute M stmts) :=
  execute_append [stmt] stmts

/-- A statement without control flow is executed as a step. -/
theorem execute_of_step {stmt code : Stmt} (h : stmt.flow = .step code) :
    execute M [stmt] = .ofAction (M.step code) := by
  rw [execute, flows_cons, flows_nil, h, runAll_singleton, Flow.run, Behaviour.ofRuns_act]

/-- A conditional statement tests its guard and executes one branch. -/
theorem execute_ifElse (guard : Expr) (thenBody elseBody : List Stmt) :
    execute M [.ifElse guard thenBody elseBody] =
      (do if ← .ofTest (M.test guard) then execute M thenBody else execute M elseBody) := by
  rw [execute, flows_cons, flows_nil, Stmt.flow, runAll_singleton, Flow.run,
    Behaviour.ofRuns_branch]
  rfl

end

namespace Evaluation

variable {M : Machine Stmt Expr} (V : Evaluation M)

/-- Runs the statements before an expression, and evaluates it. -/
def performs (v : Hoisted Expr) : Behaviour M.State V.Value := do
  execute M v.before
  V.eval v.value

/-- What is left of code whose value is not used. -/
def discard (p : Behaviour M.State V.Value) : Behaviour M.State V.Value := do
  let _ ← p
  return V.null

/-- What can be told of code of which the value is used or not. -/
def seen (isUsed : Bool) (p : Behaviour M.State V.Value) : Behaviour M.State V.Value :=
  if isUsed then p else V.discard p

/-- Whether code has nothing to do with the variables that it does not mention. -/
structure Local (inTemplate : String → String → Prop) : Prop where
  eval {x : String} {e : Expr} : e.AllUses (Use.Avoids inTemplate x) → V.Ignores x (V.eval e)
  code (x : String) (v : V.Value) :
    M.IsUnaffected language (Use.Avoids inTemplate x) (V.set · x v)

/-- Whether an expression with the statements before it has nothing to do with a variable. -/
structure Overlooks (x : String) (v : Hoisted Expr) : Prop where
  before : V.Ignores x (execute M v.before)
  value : V.Ignores x (V.eval v.value)

/-- A declaration stores its value. -/
theorem execute_declare (x : String) (ty : Ty) (kind : VarKind) (e : Expr) :
    execute M [.declare (.own x ty) kind (some e)] = (do V.store x (← V.eval e)) := by
  rw [execute_of_step rfl, V.step_declare]

/-- A declaration without a value stores null. -/
theorem execute_declare_none (x : String) (ty : Ty) (stmts : List Stmt) :
    execute M (.declare (.own x ty) .var none :: stmts) =
      (do V.store x V.null; execute M stmts) := by
  rw [execute_cons, execute_of_step rfl, V.step_declare_none]

/-- An assignment to a local stores its value. -/
theorem execute_assign (x : String) (ty : Ty) (e : Expr) :
    execute M [.assign (.ident (.own x ty)) e] = (do V.store x (← V.eval e)) := by
  rw [execute_of_step rfl, V.step_assign]

/-- A value that is not used is evaluated for its effects, if there are any. -/
theorem execute_effect (e : Expr) :
    execute M (if e.isTrivial then [] else [.expr e]) = (do let _ ← V.eval e) := by
  split
  · rename_i h
    rw [execute_nil, V.eval_trivial e h]
  · rw [execute_of_step rfl, V.step_expr]

/-- A conditional statement executes the branch that the value of its guard tells. -/
theorem execute_branch (guard : Expr) (thenBody elseBody : List Stmt) :
    execute M [.ifElse guard thenBody elseBody] =
      (do if V.holds (← V.eval guard) then execute M thenBody else execute M elseBody) := by
  rw [execute_ifElse, V.test_eq, bind_assoc]
  simp only [pure_bind]

/-- The condition is met unless the left operand decides. -/
theorem test_guard (x : String) (ty : Ty) (op : LogicalOp) :
    .ofTest (M.test (op.guard (.own x ty))) = (do return V.holds (← V.load x) != op.decider) := by
  cases op with
  | and =>
    rw [LogicalOp.guard, V.test_eq, V.eval_variable]
    simp [LogicalOp.decider]
  | or =>
    rw [LogicalOp.guard, V.test_not, V.eval_variable]
    simp [LogicalOp.decider]

variable {V} {x : String} {ty : Ty}

/-- What overlooks a local performs the same, whatever the local holds. -/
theorem Overlooks.performs {v : Hoisted Expr} (h : V.Overlooks x v) : V.Ignores x (V.performs v) :=
  fun w => Behaviour.unaffected_bind (h.before w) fun _ => h.value w

/-- Code that does not use a local overlooks it. -/
theorem Local.overlooks {inTemplate : String → String → Prop} (h : V.Local inTemplate)
    {v : Hoisted Expr}
    (hv : v.AllUses (Use.Avoids inTemplate x) (Expr.AllUses (Use.Avoids inTemplate x))) :
    V.Overlooks x v where
  before w := Behaviour.unaffected_ofRuns ((h.code x w).runAll (flows_allUses v.before hv.before))
  value := h.eval hv.value

/-- A discarded value is seen as discarded. -/
@[simp] theorem seen_discard (isUsed : Bool) (p : Behaviour M.State V.Value) :
    V.seen isUsed (V.discard p) = V.discard p := by
  cases isUsed with
  | true => rfl
  | false => simp only [seen, discard, bind_assoc, pure_bind, Bool.false_eq_true, if_false]

/-- A value is seen if both uses see it. -/
theorem seen_seen (isUsed isUsed' : Bool) (p : Behaviour M.State V.Value) :
    V.seen isUsed (V.seen isUsed' p) = V.seen (isUsed' && isUsed) p := by
  cases isUsed' with
  | true => rfl
  | false => exact V.seen_discard isUsed p

/-- What is the same up to locals is so as it is seen. -/
theorem seen_sameUpTo {xs : List String} {p q : Behaviour M.State V.Value}
    (h : V.SameUpTo xs p q) (isUsed : Bool) :
    V.SameUpTo xs (V.seen isUsed p) (V.seen isUsed q) := by
  cases isUsed with
  | true => exact h
  | false => exact h.bind fun _ _ _ => Memory.ignores_pure _

/-! ## Logical operations -/

/-- If the right operand needs no statements, then the operation is an expression. -/
theorem performs_logical (op : LogicalOp) (left : Hoisted Expr) {right : Hoisted Expr}
    (h : right.before = []) :
    V.performs ⟨left.before, .logical op left.value right.value⟩ =
      .logical V.holds op.decider (V.performs left) (V.performs right) := by
  simp only [performs, h, execute_nil, pure_bind, V.eval_logical, Behaviour.logical, bind_assoc]

/-- The temporary takes the value of the left operand, unless that of the right one is needed. -/
theorem logical_sameBut (op : LogicalOp) {left right : Hoisted Expr}
    (hleft : V.Overlooks x left) (hright : V.Overlooks x right) :
    V.SameBut x
      (V.performs ⟨left.before ++ [.declare (.own x ty) .var (some left.value),
        .ifElse (op.guard (.own x ty))
          (right.before ++ [.assign (.ident (.own x ty)) right.value]) []],
        .ident (.own x ty)⟩)
      (.logical V.holds op.decider (V.performs left) (V.performs right)) := by
  have hcode : V.performs ⟨left.before ++ [.declare (.own x ty) .var (some left.value),
      .ifElse (op.guard (.own x ty))
        (right.before ++ [.assign (.ident (.own x ty)) right.value]) []],
      .ident (.own x ty)⟩ = (do
        let v ← V.performs left
        V.store x v
        if V.holds v = op.decider then V.load x
        else (do let w ← V.performs right; V.store x w; V.load x)) := by
    simp only [performs, execute_append, execute_cons _ [_], V.execute_declare, execute_ifElse,
      V.test_guard, V.execute_assign, V.eval_variable, execute_nil, bind_assoc, pure_bind,
      Memory.store_load]
    refine bind_congr fun _ => bind_congr fun v => bind_congr fun _ => ?_
    by_cases hv : V.holds v = op.decider
    · rw [if_pos hv, if_neg (by simp [hv]), pure_bind]
    · rw [if_neg hv, if_pos (by simpa using hv)]
      simp only [bind_assoc]
  rw [hcode]
  refine .bind (.of_ignores hleft.performs) fun v => ?_
  split
  · rw [← bind_pure (V.load x), Memory.store_load]
    exact .store_pure v
  · exact .store_through hright.performs

/-! ## Conditionals -/

/-- If no branch needs statements, then the conditional is an expression. -/
theorem performs_conditional (guard : Hoisted Expr) {thenPart elsePart : Hoisted Expr}
    (hthen : thenPart.before = []) (helse : elsePart.before = []) :
    V.performs ⟨guard.before, .conditional guard.value thenPart.value elsePart.value⟩ =
      .conditional V.holds (V.performs guard) (V.performs thenPart) (V.performs elsePart) := by
  simp only [performs, hthen, helse, execute_nil, pure_bind, V.eval_conditional,
    Behaviour.conditional, bind_assoc]

/-- The temporary takes the value of the branch that the guard selects. -/
theorem conditional_sameBut {guard thenPart elsePart : Hoisted Expr} (hguard : V.Overlooks x guard)
    (hthen : V.Overlooks x thenPart) (helse : V.Overlooks x elsePart) :
    V.SameBut x
      (V.performs ⟨guard.before ++ [.declare (.own x ty) .var none] ++ [.ifElse guard.value
        (thenPart.before ++ [.assign (.ident (.own x ty)) thenPart.value])
        (elsePart.before ++ [.assign (.ident (.own x ty)) elsePart.value])], .ident (.own x ty)⟩)
      (.conditional V.holds (V.performs guard) (V.performs thenPart) (V.performs elsePart)) := by
  simp only [performs, execute_append, V.execute_declare_none, execute_nil, bind_pure_unit,
    V.execute_branch, V.execute_assign, V.eval_variable, Behaviour.conditional, bind_assoc]
  refine .bind (.of_ignores hguard.before) fun _ => .store_early hguard.value fun v => ?_
  split
  · simpa only [performs, bind_assoc] using Memory.SameBut.store_through hthen.performs
  · simpa only [performs, bind_assoc] using Memory.SameBut.store_through helse.performs

/-- A conditional of unit type needs no temporary. -/
theorem conditional_discard (guard thenPart elsePart : Hoisted Expr) :
    V.discard (V.performs ⟨guard.before ++ [] ++ [.ifElse guard.value
        (thenPart.before ++ branchEnd none thenPart.value)
        (elsePart.before ++ branchEnd none elsePart.value)], .null⟩) =
      V.discard (.conditional V.holds (V.performs guard) (V.performs thenPart)
        (V.performs elsePart)) := by
  simp only [performs, discard, branchEnd, List.append_nil, execute_append, V.execute_branch,
    V.execute_effect, V.eval_null, Behaviour.conditional, bind_assoc, pure_bind]
  refine bind_congr fun _ => bind_congr fun v => ?_
  split <;> simp only [bind_assoc, pure_bind]

/-! ## Conditionals that are statements -/

/-- If a conditional stores its value in a variable, then each branch does so. -/
theorem conditionalStmts_sameBut {guard : Hoisted Expr} (hguard : V.Overlooks x guard)
    (thenBody elseBody : List Stmt) :
    V.SameBut x
      (V.performs ⟨.declare (.own x ty) .var none ::
        (guard.before ++ [.ifElse guard.value thenBody elseBody]), .ident (.own x ty)⟩)
      (.conditional V.holds (V.performs guard)
        (V.performs ⟨.declare (.own x ty) .var none :: thenBody, .ident (.own x ty)⟩)
        (V.performs ⟨.declare (.own x ty) .var none :: elseBody, .ident (.own x ty)⟩)) := by
  simp only [performs, execute_append, V.execute_declare_none, V.execute_branch, V.eval_variable,
    Behaviour.conditional, bind_assoc]
  refine .store_early hguard.before fun _ => .store_early hguard.value fun v => ?_
  split <;> exact .store_bind _

/-- A conditional that is run for its effects runs one of its branches. -/
theorem conditionalStmts_run (guard : Hoisted Expr) (thenBody elseBody : List Stmt) :
    V.performs ⟨guard.before ++ [.ifElse guard.value thenBody elseBody], .null⟩ =
      .conditional V.holds (V.performs guard) (V.performs ⟨thenBody, .null⟩)
        (V.performs ⟨elseBody, .null⟩) := by
  simp only [performs, execute_append, V.execute_branch, Behaviour.conditional, bind_assoc]
  refine bind_congr fun _ => bind_congr fun v => ?_
  split <;> rfl

/-! ## Values that are delivered -/

/-- The value of an expression that is stored in a variable. -/
theorem stored_sameBut {v : Hoisted Expr} (h : V.Overlooks x v) :
    V.SameBut x
      (V.performs ⟨.declare (.own x ty) .var none ::
        (v.before ++ [.assign (.ident (.own x ty)) v.value]), .ident (.own x ty)⟩)
      (V.performs v) := by
  simp only [performs, execute_append, V.execute_declare_none, V.execute_assign, V.eval_variable,
    bind_assoc]
  simpa only [performs, bind_assoc] using Memory.SameBut.store_through h.performs

/-- An expression that is only evaluated for its effects. -/
theorem run_eq_discard (v : Hoisted Expr) :
    V.performs ⟨v.before ++ deliver .effect v.value, .null⟩ = V.discard (V.performs v) := by
  simp only [performs, discard, deliver, execute_append, V.execute_effect, V.eval_null, bind_assoc,
    pure_bind]

end Evaluation

end TypedLowering.Dart

/-!
## Short circuits

A logical operation or a conditional is lowered to an expression, to an expression with statements
before it, or to statements that store its value or are run for their effects (`Yields`). The code
has the short-circuit meaning in terms of what the operands are lowered to, which is stated in the
same way for the operands (`Yields.shortCircuits`). The locals that hold values in between are names
that the node does not mention.
-/

namespace TypedLowering.Dart

open Control Lower

/-- What a node is lowered to at some point of the lowering, where all names that it may mention are
in use. It becomes an expression, or statements that store its value in a variable or that are run
for their effects. The flag tells whether there is a value. -/
inductive Yields (inTemplate : String → String → Prop) (n : Nat) (ctx : Context) (e : Ir.Expr) :
    Bool → Hoisted Expr → Prop
  | expr {ctx' : Context} {hoists : Bool} {v : Hoisted Expr} {s t : LowerState} :
    ctx'.withoutTailCall = ctx.withoutTailCall → InUse inTemplate ctx' [] e s →
      (rules n).expr ctx' hoists e s = (.ok v, t) → Yields inTemplate n ctx e true v
  | stored {x : String} {ty : Ty} {stmts : List Stmt} {s t : LowerState} :
    InUse inTemplate ctx.withoutTailCall [] e s → Unmentioned inTemplate ctx e x →
      Open (Use.Avoids inTemplate x) s →
      (rules n).stmts ctx.withoutTailCall (.assign (.ident (.own x ty))) e s = (.ok stmts, t) →
      Yields inTemplate n ctx e true ⟨.declare (.own x ty) .var none :: stmts, .ident (.own x ty)⟩
  | run {stmts : List Stmt} {s t : LowerState} :
    InUse inTemplate ctx.withoutTailCall [] e s →
      (rules n).stmts ctx.withoutTailCall .effect e s = (.ok stmts, t) →
      Yields inTemplate n ctx e false ⟨stmts, .null⟩

/-- Whether code for a node does what is specified, but for temporaries. These are variables that
the node does not mention. -/
def Means (inTemplate : String → String → Prop) (ctx : Context) (e : Ir.Expr) (isUsed : Bool)
    (v : Hoisted Expr)
    (spec : ∀ {M : Machine Stmt Expr} (V : Evaluation M), Behaviour M.State V.Value) : Prop :=
  ∃ tmps : List String, (∀ x ∈ tmps, Unmentioned inTemplate ctx e x) ∧
    ∀ (M : Machine Stmt Expr) (V : Evaluation M), V.Local inTemplate →
      V.SameUpTo tmps (V.seen isUsed (V.performs v)) (V.seen isUsed (spec V))

/-- Whether code for a logical operation or a conditional has the short-circuit meaning in terms of
what its operands are lowered to, and so on for the operands. The value of a conditional of unit
type is not used. -/
def ShortCircuits (inTemplate : String → String → Prop) (ctx : Context) :
    Ir.Expr → Bool → Hoisted Expr → Prop
  | e@(.logical op left right _ _), isUsed, v => ∃ n l r,
    (Yields inTemplate n ctx left true l ∧ ShortCircuits inTemplate ctx left true l) ∧
    (Yields inTemplate n ctx right true r ∧ ShortCircuits inTemplate ctx right true r) ∧
    Means inTemplate ctx e isUsed v fun V =>
      .logical V.holds (logicalOperator op).decider (V.performs l) (V.performs r)
  | e@(.ifThenElse guard thenExpr elseExpr _), isUsed, v =>
    ∃ n g isThenUsed thenPart isElseUsed elsePart,
    (Yields inTemplate n ctx guard true g ∧ ShortCircuits inTemplate ctx guard true g) ∧
    (Yields inTemplate n ctx thenExpr isThenUsed thenPart ∧
      ShortCircuits inTemplate ctx thenExpr isThenUsed thenPart) ∧
    (Yields inTemplate n ctx elseExpr isElseUsed elsePart ∧
      ShortCircuits inTemplate ctx elseExpr isElseUsed elsePart) ∧
    ((isUsed && !e.type.isUnit) = true → isThenUsed = true ∧ isElseUsed = true) ∧
    Means inTemplate ctx e (isUsed && !e.type.isUnit) v fun V =>
      .conditional V.holds (V.performs g) (V.performs thenPart) (V.performs elsePart)
  | _, _, _ => True

variable {inTemplate : String → String → Prop} {n : Nat} {ctx ctx' : Context} {e : Ir.Expr}
  {isUsed : Bool} {v w : Hoisted Expr} {s t : LowerState} {x : String}

namespace Means

variable {spec : ∀ {M : Machine Stmt Expr} (V : Evaluation M), Behaviour M.State V.Value}

/-- Code that performs the same has the meaning. -/
theorem of_eq
    (h : ∀ {M} (V : Evaluation M), V.seen isUsed (V.performs v) = V.seen isUsed (spec V)) :
    Means inTemplate ctx e isUsed v spec :=
  ⟨[], nofun, fun _ V _ => h V ▸ .refl _⟩

/-- Code that performs the same up to a local that is not mentioned has the meaning. -/
theorem of_sameBut (hx : Unmentioned inTemplate ctx e x)
    (h : ∀ {M} (V : Evaluation M), V.Local inTemplate →
      V.SameBut x (V.performs v) (spec V)) : Means inTemplate ctx e isUsed v spec :=
  ⟨[x], List.forall_mem_singleton.2 hx, fun _ V hV =>
    Evaluation.seen_sameUpTo (.of_sameBut (h V hV)) isUsed⟩

/-- The value may pass through one more variable. -/
theorem through (hw : Means inTemplate ctx e isUsed w spec) (hx : Unmentioned inTemplate ctx e x)
    (h : ∀ {M} (V : Evaluation M), V.Local inTemplate →
      V.SameBut x (V.performs v) (V.performs w)) : Means inTemplate ctx e isUsed v spec := by
  obtain ⟨tmps, htmps, hw⟩ := hw
  refine ⟨x :: tmps, List.forall_mem_cons.2 ⟨hx, htmps⟩, fun M V hV => ?_⟩
  cases isUsed with
  | true => exact .but (h V hV) (hw M V hV)
  | false => exact .but ((h V hV).bind fun _ => .of_ignores (Memory.ignores_pure _)) (hw M V hV)

/-- The value may be left unused. -/
theorem discard (hw : Means inTemplate ctx e isUsed w spec)
    (h : ∀ {M} (V : Evaluation M), V.performs v = V.discard (V.performs w)) :
    Means inTemplate ctx e false v spec := by
  obtain ⟨tmps, htmps, hw⟩ := hw
  refine ⟨tmps, htmps, fun M V hV => ?_⟩
  have hsame := Evaluation.seen_sameUpTo (hw M V hV) false
  rw [Evaluation.seen_seen, Evaluation.seen_seen, Bool.and_false] at hsame
  rw [h V, Evaluation.seen_discard]
  exact hsame

end Means

/-- An expression is lowered without the loop around. -/
theorem Yields.of_withoutTailCall {hoists : Bool}
    (huse : InUse inTemplate ctx.withoutTailCall [] e s)
    (h : (rules n).expr ctx.withoutTailCall hoists e s = (.ok v, t)) :
    Yields inTemplate n ctx e true v := by
  have hctx : ctx.withoutTailCall.withoutTailCall = ctx.withoutTailCall := rfl
  exact .expr hctx huse h

namespace ShortCircuits

/-- What performs the same up to a local short-circuits like it. -/
theorem through (hw : ShortCircuits inTemplate ctx e isUsed w)
    (hx : Unmentioned inTemplate ctx e x)
    (h : ∀ {M} (V : Evaluation M), V.Local inTemplate →
      V.SameBut x (V.performs v) (V.performs w)) : ShortCircuits inTemplate ctx e isUsed v := by
  cases e with
  | logical =>
    obtain ⟨n, l, r, hl, hr, hw⟩ := hw
    exact ⟨n, l, r, hl, hr, hw.through hx h⟩
  | ifThenElse =>
    obtain ⟨n, g, _, a, _, b, hg, ha, hb, hused, hw⟩ := hw
    exact ⟨n, g, _, a, _, b, hg, ha, hb, hused, hw.through hx h⟩
  | _ => trivial

/-- What performs the same but discards the value short-circuits like it. -/
theorem discard (hw : ShortCircuits inTemplate ctx e isUsed w)
    (h : ∀ {M} (V : Evaluation M), V.performs v = V.discard (V.performs w)) :
    ShortCircuits inTemplate ctx e false v := by
  cases e with
  | logical =>
    obtain ⟨n, l, r, hl, hr, hw⟩ := hw
    exact ⟨n, l, r, hl, hr, hw.discard h⟩
  | ifThenElse =>
    obtain ⟨n, g, _, a, _, b, hg, ha, hb, -, hw⟩ := hw
    exact ⟨n, g, _, a, _, b, hg, ha, hb, fun h => absurd h Bool.false_ne_true, hw.discard h⟩
  | _ => trivial

end ShortCircuits

/-! ## The temporaries are new -/

/-- What a node was lowered to does not mention a name that is new afterwards. -/
theorem expr_avoids_new {hoists : Bool} (huse : InUse inTemplate ctx [] e s)
    (h : (rules n).expr ctx hoists e s = (.ok v, t)) (hx : ¬ t.names.IsTaken x)
    (hbuiltin : x ∉ builtins) :
    v.AllUses (Use.Avoids inTemplate x) (Expr.AllUses (Use.Avoids inTemplate x)) := by
  have hbelow := (rules_deepens (Nat.le_refl n)).expr ctx hoists e
  have hnew := mt ((hbelow.grows h).taken x) hx
  -- The name is free at first. If it was in use, then nothing that comes up would be this name, and
  -- the result is the same.
  exact ((rules_keepUses _ n).expr (huse.sourced_new hnew hbuiltin)
    (huse.unmentioned hnew hbuiltin).node _ v _ (huse.open_withTaken hnew)
    (hbelow.withTaken h hx)).2

/-- What a node is lowered to later does not mention the name, either. -/
theorem expr_avoids {hoists : Bool} (hx : Unmentioned inTemplate ctx e x)
    (hopen : Open (Use.Avoids inTemplate x) s)
    (h : (rules n).expr ctx.withoutTailCall hoists e s = (.ok v, t)) :
    v.AllUses (Use.Avoids inTemplate x) (Expr.AllUses (Use.Avoids inTemplate x)) :=
  ((rules_keepUses _ n).expr hx.context hx.node _ v _ hopen h).2

/-- A temporary is a new name, and nothing that comes up later mentions it. -/
theorem freshLocal_tmp {file : SourceFile} {ty : Ir.Ty} {id : Ident}
    {params : List Ir.Ident} (huse : InUse inTemplate ctx params e s)
    (h : freshLocal file "tmp" ty s = (.ok id, t)) :
    ∃ x ty', id = .own x ty' ∧ ¬ s.names.IsTaken x ∧ x ∉ builtins ∧
      Open (Use.Avoids inTemplate x) t := by
  simp only [freshLocal, bind_eq_ok, pure_eq_ok] at h
  obtain ⟨x, u, hname, ty', _, hty, rfl, rfl⟩ := h
  obtain ⟨hnew, hopen⟩ := huse.open_allocated hname
  obtain rfl := Except.ok.inj (congrArg Prod.fst hname)
  exact ⟨_, ty', rfl, hnew, s.names.allocateLocal_not_mem_builtins (by decide),
    hopen.grows ((below_lowerType file ty).grows hty)⟩

/-- Lowering an expression only grows the state. -/
theorem expr_grows {hoists : Bool} (h : (rules n).expr ctx hoists e s = (.ok v, t)) : Grows s t :=
  ((rules_deepens (Nat.le_refl n)).expr ctx hoists e).grows h

/-- Lowering statements only grows the state. -/
theorem stmts_grows {strategy : Strategy Expr} {stmts : List Stmt}
    (h : (rules n).stmts ctx strategy e s = (.ok stmts, t)) : Grows s t :=
  ((rules_deepens (Nat.le_refl n)).stmts ctx strategy e).grows h

/-- The value of a node that is captured is stored in a temporary, unless it is a unit. -/
theorem capture_yields {hoists : Bool} (hctx : ctx'.withoutTailCall = ctx.withoutTailCall)
    (huse : InUse inTemplate ctx' [] e s)
    (h : (rules n).capture ctx' hoists e s = (.ok v, t)) :
    Yields inTemplate n ctx e (!e.type.isUnit) v := by
  unfold Parts.capture at h
  split at h
  · exact absurd h fail_ne_ok
  · have huse' := huse.withoutTailCall
    rw [hctx] at h huse'
    split at h
    · rename_i hunit
      simp only [bind_eq_ok, pure_eq_ok] at h
      obtain ⟨stmts, u, hstmts, rfl, rfl⟩ := h
      rw [hunit]
      exact .run huse' hstmts
    · rename_i hunit
      simp only [bind_eq_ok, pure_eq_ok] at h
      obtain ⟨id, u, hid, stmts, _, hstmts, rfl, rfl⟩ := h
      obtain ⟨x, ty', rfl, hnew, hbuiltin, hopen⟩ := freshLocal_tmp huse hid
      rw [Bool.not_eq_true] at hunit
      rw [hunit]
      exact .stored (huse'.grows ((below_freshLocal _ _ _).grows hid))
        ((huse.unmentioned hnew hbuiltin).congr hctx) hopen hstmts

/-! ## Nodes that are expressions -/

section
variable (ih : ∀ {ctx e isUsed v}, Yields inTemplate n ctx e isUsed v →
  ShortCircuits inTemplate ctx e isUsed v)
include ih

/-- A logical operation evaluates its right operand only if the left one does not decide. -/
theorem logical_shortCircuits {hoists : Bool} {op : Ir.LogicalOp} {left right : Ir.Expr}
    {ty : Ir.Ty} {loc : Option Ir.Location} (hctx : ctx'.withoutTailCall = ctx.withoutTailCall)
    (huse : InUse inTemplate ctx' [] (.logical op left right ty loc) s)
    (h : (rules n).logical ctx' hoists (logicalOperator op) left right s = (.ok v, t)) :
    ShortCircuits inTemplate ctx (.logical op left right ty loc) true v := by
  simp only [Parts.logical, bind_eq_ok] at h
  obtain ⟨l, s₁, hl, r, s₂, hr, h⟩ := h
  have huse₁ := huse.grows (expr_grows hl)
  have huse₂ := huse₁.grows (expr_grows hr)
  have hleft := huse.child (c := left) (by simp [Ir.Expr.children])
  have hright := huse₁.child (c := right) (by simp [Ir.Expr.children])
  have hl' : Yields inTemplate n ctx left true l := .expr hctx hleft hl
  have hr' : Yields inTemplate n ctx right true r := .expr hctx hright hr
  refine ⟨n, l, r, ⟨hl', ih hl'⟩, ⟨hr', ih hr'⟩, ?_⟩
  split at h
  · rename_i hempty
    obtain ⟨rfl, -⟩ := pure_eq_ok.1 h
    exact .of_eq fun V => by
      rw [Evaluation.performs_logical _ _ (List.isEmpty_iff.1 hempty)]
  · simp only [bind_eq_ok, pure_eq_ok] at h
    obtain ⟨id, u, hid, rfl, rfl⟩ := h
    -- The temporary is named last, when the operands are lowered already.
    obtain ⟨x, ty', rfl, hnew₂, hbuiltin, -⟩ := freshLocal_tmp huse₂ hid
    have hnew₁ := mt ((expr_grows hr).taken x) hnew₂
    have hnew := mt ((expr_grows hl).taken x) hnew₁
    refine .of_sameBut ((huse.unmentioned hnew hbuiltin).congr hctx) fun V hV => ?_
    have hleft := hV.overlooks (expr_avoids_new hleft hl hnew₁ hbuiltin)
    have hright := hV.overlooks (expr_avoids_new hright hr hnew₂ hbuiltin)
    cases op with
    | and => exact Evaluation.logical_sameBut .and hleft hright
    | or => exact Evaluation.logical_sameBut .or hleft hright

/-- A conditional evaluates one of its branches only. -/
theorem conditional_shortCircuits {hoists : Bool} {guard thenExpr elseExpr : Ir.Expr}
    {loc : Option Ir.Location} (hctx : ctx'.withoutTailCall = ctx.withoutTailCall)
    (huse : InUse inTemplate ctx' [] (.ifThenElse guard thenExpr elseExpr loc) s)
    (h : (rules n).conditional ctx' hoists guard thenExpr elseExpr thenExpr.type s = (.ok v, t)) :
    ShortCircuits inTemplate ctx (.ifThenElse guard thenExpr elseExpr loc) true v := by
  simp only [Parts.conditional, bind_eq_ok] at h
  obtain ⟨g, s₁, hg, a, s₂, ha, b, s₃, hb, h⟩ := h
  have huse₁ := huse.grows (expr_grows hg)
  have huse₂ := huse₁.grows (expr_grows ha)
  have huse₃ := huse₂.grows (expr_grows hb)
  have hguard := huse.child (c := guard) (by simp [Ir.Expr.children])
  have hthen := huse₁.child (c := thenExpr) (by simp [Ir.Expr.children])
  have helse := huse₂.child (c := elseExpr) (by simp [Ir.Expr.children])
  have hg' : Yields inTemplate n ctx guard true g := .expr hctx hguard hg
  have ha' : Yields inTemplate n ctx thenExpr true a := .expr hctx hthen ha
  have hb' : Yields inTemplate n ctx elseExpr true b := .expr hctx helse hb
  refine ⟨n, g, true, a, true, b, ⟨hg', ih hg'⟩, ⟨ha', ih ha'⟩, ⟨hb', ih hb'⟩,
    fun _ => ⟨rfl, rfl⟩, ?_⟩
  have htype : (Ir.Expr.ifThenElse guard thenExpr elseExpr loc).type = thenExpr.type := rfl
  rw [htype]
  split at h
  · rename_i hempty
    obtain ⟨hthenEmpty, helseEmpty⟩ := Bool.and_eq_true_iff.1 hempty
    obtain ⟨rfl, -⟩ := pure_eq_ok.1 h
    exact .of_eq fun V => by rw [Evaluation.performs_conditional _
      (List.isEmpty_iff.1 hthenEmpty) (List.isEmpty_iff.1 helseEmpty)]
  · split at h
    · rename_i hunit
      obtain ⟨rfl, -⟩ := pure_eq_ok.1 h
      rw [hunit]
      exact .of_eq fun V => Evaluation.conditional_discard g a b
    · simp only [pure_bind, bind_eq_ok, pure_eq_ok] at h
      obtain ⟨id, u, hid, rfl, -⟩ := h
      obtain ⟨x, ty', rfl, hnew₃, hbuiltin, -⟩ := freshLocal_tmp huse₃ hid
      have hnew₂ := mt ((expr_grows hb).taken x) hnew₃
      have hnew₁ := mt ((expr_grows ha).taken x) hnew₂
      have hnew := mt ((expr_grows hg).taken x) hnew₁
      exact .of_sameBut ((huse.unmentioned hnew hbuiltin).congr hctx) fun V hV =>
        Evaluation.conditional_sameBut (hV.overlooks (expr_avoids_new hguard hg hnew₁ hbuiltin))
          (hV.overlooks (expr_avoids_new hthen ha hnew₂ hbuiltin))
          (hV.overlooks (expr_avoids_new helse hb hnew₃ hbuiltin))

omit ih in
/-- A conditional of unit type has no value that could be used. -/
theorem ShortCircuits.captured {guard thenExpr elseExpr : Ir.Expr} {loc : Option Ir.Location}
    (h : ShortCircuits inTemplate ctx (.ifThenElse guard thenExpr elseExpr loc)
      (!(Ir.Expr.ifThenElse guard thenExpr elseExpr loc).type.isUnit) v) :
    ShortCircuits inTemplate ctx (.ifThenElse guard thenExpr elseExpr loc) true v := by
  simpa only [ShortCircuits, Bool.and_self, Bool.true_and] using h

/-- Any node in the place of an expression short-circuits. -/
theorem exprRule_shortCircuits {hoists : Bool}
    (hctx : ctx'.withoutTailCall = ctx.withoutTailCall) (huse : InUse inTemplate ctx' [] e s)
    (h : (rules n).exprRule ctx' hoists e s = (.ok v, t)) :
    ShortCircuits inTemplate ctx e true v := by
  cases e with
  | logical op left right ty loc => exact logical_shortCircuits ih hctx huse h
  | ifThenElse guard thenExpr elseExpr loc =>
    simp only [Parts.exprRule, Parts.expansion?, pure_bind, Parts.isCaptured, bind_eq_ok,
      isStatement_eq_ok] at h
    obtain ⟨isCaptured, _, ⟨-, rfl⟩, h⟩ := h
    split at h
    · exact .captured (ih (capture_yields hctx huse h))
    · exact conditional_shortCircuits ih hctx huse h
  | _ => trivial

/-! ## Nodes that are statements -/

/-- The node is evaluated, and its value is stored. -/
theorem delivered_stored {stmts : List Stmt} {ty : Ty}
    (huse : InUse inTemplate ctx.withoutTailCall [] e s) (hx : Unmentioned inTemplate ctx e x)
    (hopen : Open (Use.Avoids inTemplate x) s)
    (h : (rules n).delivered ctx.withoutTailCall (.assign (.ident (.own x ty))) e s =
      (.ok stmts, t)) :
    ShortCircuits inTemplate ctx e true
      ⟨.declare (.own x ty) .var none :: stmts, .ident (.own x ty)⟩ := by
  simp only [Parts.delivered, bind_eq_ok, pure_eq_ok] at h
  obtain ⟨w, u, hw, rfl, rfl⟩ := h
  exact (ih (.of_withoutTailCall huse hw)).through hx fun V hV =>
    Evaluation.stored_sameBut (hV.overlooks (expr_avoids hx hopen hw))

/-- Any node that is stored in a local short-circuits. -/
theorem stmtsRule_stored {stmts : List Stmt} {ty : Ty}
    (huse : InUse inTemplate ctx.withoutTailCall [] e s) (hx : Unmentioned inTemplate ctx e x)
    (hopen : Open (Use.Avoids inTemplate x) s)
    (h : (rules n).stmtsRule ctx.withoutTailCall (.assign (.ident (.own x ty))) e s =
      (.ok stmts, t)) :
    ShortCircuits inTemplate ctx e true
      ⟨.declare (.own x ty) .var none :: stmts, .ident (.own x ty)⟩ := by
  cases e with
  | logical => exact delivered_stored ih huse hx hopen h
  | ifThenElse guard thenExpr elseExpr loc =>
    simp only [Parts.stmtsRule, bind_eq_ok, isStatement_eq_ok] at h
    obtain ⟨isStatement, _, ⟨-, rfl⟩, h⟩ := h
    split at h
    · simp only [Parts.conditionalStmts, bind_eq_ok, pure_eq_ok] at h
      obtain ⟨g, s₁, hg, thenBody, s₂, hthen, elseBody, s₃, helse, rfl, rfl⟩ := h
      have hguardMem : guard ∈ (Ir.Expr.ifThenElse guard thenExpr elseExpr loc).children := by
        simp [Ir.Expr.children]
      have hthenMem : thenExpr ∈ (Ir.Expr.ifThenElse guard thenExpr elseExpr loc).children := by
        simp [Ir.Expr.children]
      have helseMem : elseExpr ∈ (Ir.Expr.ifThenElse guard thenExpr elseExpr loc).children := by
        simp [Ir.Expr.children]
      have hs₁ : Grows s s₁ := expr_grows hg
      have hs₂ := hs₁.trans (stmts_grows hthen)
      have hg' : Yields inTemplate n ctx guard true g :=
        .of_withoutTailCall (huse.child hguardMem) hg
      have hthen' := Yields.stored ((huse.grows hs₁).child hthenMem) (hx.child hthenMem)
        (hopen.grows hs₁) hthen
      have helse' := Yields.stored ((huse.grows hs₂).child helseMem) (hx.child helseMem)
        (hopen.grows hs₂) helse
      exact ⟨n, g, true, _, true, _, ⟨hg', ih hg'⟩, ⟨hthen', ih hthen'⟩, ⟨helse', ih helse'⟩,
        fun _ => ⟨rfl, rfl⟩, .of_sameBut hx fun V hV => Evaluation.conditionalStmts_sameBut
          (hV.overlooks (expr_avoids (hx.child hguardMem) hopen hg)) thenBody elseBody⟩
    · exact delivered_stored ih huse hx hopen h
  | _ => trivial

/-- The node is evaluated for its effects. -/
theorem delivered_run {stmts : List Stmt} (huse : InUse inTemplate ctx.withoutTailCall [] e s)
    (h : (rules n).delivered ctx.withoutTailCall .effect e s = (.ok stmts, t)) :
    ShortCircuits inTemplate ctx e false ⟨stmts, .null⟩ := by
  simp only [Parts.delivered, bind_eq_ok, pure_eq_ok] at h
  obtain ⟨w, u, hw, rfl, rfl⟩ := h
  exact (ih (.of_withoutTailCall huse hw)).discard fun V => Evaluation.run_eq_discard w

/-- Any node that is run for its effects short-circuits. -/
theorem stmtsRule_run {stmts : List Stmt} (huse : InUse inTemplate ctx.withoutTailCall [] e s)
    (h : (rules n).stmtsRule ctx.withoutTailCall .effect e s = (.ok stmts, t)) :
    ShortCircuits inTemplate ctx e false ⟨stmts, .null⟩ := by
  cases e with
  | logical => exact delivered_run ih huse h
  | ifThenElse guard thenExpr elseExpr loc =>
    simp only [Parts.stmtsRule, bind_eq_ok, isStatement_eq_ok] at h
    obtain ⟨isStatement, _, ⟨-, rfl⟩, h⟩ := h
    split at h
    · simp only [Parts.conditionalStmts, bind_eq_ok, pure_eq_ok] at h
      obtain ⟨g, s₁, hg, thenBody, s₂, hthen, elseBody, s₃, helse, rfl, rfl⟩ := h
      have huse₁ := huse.grows (expr_grows hg)
      have huse₂ := huse₁.grows (stmts_grows hthen)
      have hg' : Yields inTemplate n ctx guard true g :=
        .of_withoutTailCall (huse.child (by simp [Ir.Expr.children])) hg
      have hthen' := Yields.run (huse₁.child (by simp [Ir.Expr.children])) hthen
      have helse' := Yields.run (huse₂.child (by simp [Ir.Expr.children])) helse
      exact ⟨n, g, false, _, false, _, ⟨hg', ih hg'⟩, ⟨hthen', ih hthen'⟩, ⟨helse', ih helse'⟩,
        fun h => absurd h Bool.false_ne_true,
        .of_eq fun V => by rw [Evaluation.conditionalStmts_run]⟩
    · exact delivered_run ih huse h
  | _ => trivial

end

/-- What a logical operation or a conditional is lowered to has the short-circuit meaning. -/
theorem Yields.shortCircuits (h : Yields inTemplate n ctx e isUsed v) :
    ShortCircuits inTemplate ctx e isUsed v := by
  -- What is delivered is lowered as an expression first, so the induction is on the depth.
  induction n generalizing ctx e isUsed v with
  | zero =>
    cases h with
    | expr _ _ h => exact absurd h fail_ne_ok
    | stored _ _ _ h => exact absurd h fail_ne_ok
    | run _ h => exact absurd h fail_ne_ok
  | succ n ih =>
    cases h with
    | expr hctx huse h => exact exprRule_shortCircuits ih hctx huse h
    | stored huse hx hopen h => exact stmtsRule_stored ih huse hx hopen h
    | run huse h => exact stmtsRule_run ih huse h

end TypedLowering.Dart
