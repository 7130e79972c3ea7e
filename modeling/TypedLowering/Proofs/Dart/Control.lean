import TypedLowering.Proofs.Dart.Depth
import TypedLowering.Proofs.Dart.Flow
import TypedLowering.Proofs.Lowering.Slots

/-!
# The discipline of lowered Dart

Statements obey the strategy that they are lowered with, and statements that run before an
expression neither return nor jump (`rules_obey`). There is one lemma for each rule, about the rule
with parts that obey.
-/

namespace TypedLowering.Dart

open Control Lower

/-- How the arguments of a self tail call are written to the slots: the statements that compute them
all, and then the assignments. -/
def writes : SlotWrites Stmt Expr := fun ctx loop args u v own =>
  ∃ n w values stmts,
    (rules n).values ctx.withoutTailCall (discardUnitArg args) u = (.ok values, w) ∧
    Parts.slotWrites ctx.file loop.bindings values.value w = (.ok stmts, v) ∧
    own = flows (values.before ++ stmts)

/-- The jumps that lowering a node with a strategy may give. -/
abbrev jumps (strategy : Strategy Expr) (ctx : Context) (e : Ir.Expr) (s t : LowerState) :
    Jumps Stmt Expr :=
  selfCalls writes strategy.isTail ctx e s t

/-- Whether statements lowered to that depth obey their strategy, and statements before an
expression do nothing but run. -/
structure Disciplined (n : Nat) : Prop where
  stmts : ∀ {ctx strategy e s stmts t}, (rules n).stmts ctx strategy e s = (.ok stmts, t) →
    Obeys strategy.returns (jumps strategy ctx e s t) (flows stmts)
  expr : ∀ {ctx hoists e s value t}, (rules n).expr ctx hoists e s = (.ok value, t) →
    Obeys false noJumps (flows value.before)

/-! ## Rules without case distinctions -/

/-- A binding of a recursive let declares a function or a variable. -/
theorem recursive_cons (r : Parts) (ctx : Context) (b : Ir.Binding) (bs : List Ir.Binding) :
    (∃ params body name, (b.value.uncast = .delegate params body name ∨
        ∃ arg, params = [arg] ∧ b.value.uncast = .lambda arg body name) ∧
      r.recursive ctx (b :: bs) = (do
        let first ← r.localFunction ctx b.ident params body
        let rest ← r.recursive ctx bs
        return first :: rest)) ∨
    r.recursive ctx (b :: bs) = (do
      let first ← r.declare ctx b.ident b.value
      let rest ← r.recursive ctx bs
      return first ++ rest) := by
  simp only [Parts.recursive]
  split
  · rename_i arg body name hvalue
    exact .inl ⟨[arg], body, name, .inr ⟨arg, rfl, hvalue⟩, rfl⟩
  · rename_i params body name hvalue
    exact .inl ⟨params, body, name, .inl hvalue, rfl⟩
  · exact .inr rfl

section
variable {n : Nat} {ctx : Context} {strategy : Strategy Expr} {hoists : Bool} {e : Ir.Expr}
  {s t : LowerState} {stmts : List Stmt} {value : Hoisted Expr}

/-- Lowering to any depth only grows the state. -/
theorem rules_grow (n : Nat) : (rules n).Deepens (rules n) :=
  rules_deepens (Nat.le_refl n)

/-! ## Values -/

/-- A value is put in its place by statements that obey the strategy. -/
theorem deliver_obeys {J : Jumps Stmt Expr} (strategy : Strategy Expr) (value : Expr) :
    Obeys strategy.returns J (flows (deliver strategy value)) := by
  cases strategy with
  | ret => exact .returns _
  | assign | join => exact .step _
  | effect =>
    rw [deliver]
    split
    · exact .nil
    · exact .step _

/-- The end of a node without a value obeys the strategy. -/
theorem deliverUnit_obeys {J : Jumps Stmt Expr} (strategy : Strategy Expr) :
    Obeys strategy.returns J (flows (deliverUnit strategy)) := by
  cases strategy with
  | ret => exact .returns _
  | effect | assign | join => exact .nil

/-- Saving operands in locals neither returns nor jumps. -/
theorem saveOperands_obeys {file : SourceFile} {operands : List (Expr × Ir.Ty)}
    {saved : Hoisted (List (Expr × Ir.Ty))}
    (h : saveOperands file operands s = (.ok saved, t)) :
    Obeys false noJumps (flows saved.before) := by
  induction operands generalizing s saved with
  | nil =>
    obtain ⟨rfl, -⟩ := pure_eq_ok.1 h
    exact .nil
  | cons operand operands ihs =>
    rw [saveOperands] at h
    split at h
    · simp only [bind_eq_ok, pure_eq_ok] at h
      obtain ⟨rest, _, hrest, rfl, rfl⟩ := h
      exact (ihs hrest :)
    · simp only [bind_eq_ok, pure_eq_ok] at h
      obtain ⟨id, _, -, rest, _, hrest, rfl, rfl⟩ := h
      exact .cons (.step _) (ihs hrest)

/-- The end of a branch neither returns nor jumps. -/
theorem branchEnd_obeys (id : Option Ident) (value : Expr) :
    Obeys false noJumps (flows (branchEnd id value)) := by
  cases id with
  | some => exact .step _
  | none =>
    rw [branchEnd]
    split
    · exact .nil
    · exact .step _

/-! ## Statements before an expression -/

variable (ih : Disciplined n)
include ih

/-- Outside of tail position there are no jumps. -/
theorem plain_obeys (h : (rules n).stmts ctx.withoutTailCall strategy e s = (.ok stmts, t)) :
    Obeys strategy.returns noJumps (flows stmts) :=
  (ih.stmts h).mono fun _ _ hJ => not_selfCalls rfl hJ

/-- What is assigned is not in tail position. -/
theorem assigned_obeys {place : Expr}
    (h : (rules n).stmts ctx (.assign place) e s = (.ok stmts, t)) :
    Obeys false noJumps (flows stmts) :=
  (ih.stmts h).mono fun _ _ hJ => not_selfCalls_of_not_tail hJ

/-- A value is delivered by statements that obey the strategy. -/
theorem delivered_obeys {J : Jumps Stmt Expr}
    (h : (rules n).delivered ctx strategy e s = (.ok stmts, t)) :
    Obeys strategy.returns J (flows stmts) := by
  simp only [Parts.delivered, bind_eq_ok, pure_eq_ok] at h
  obtain ⟨value, u, hvalue, rfl, rfl⟩ := h
  rw [flows_append]
  exact (ih.expr hvalue).append (deliver_obeys strategy value.value)

/-- The statements that capture a value neither return nor jump. -/
theorem capture_obeys (h : (rules n).capture ctx hoists e s = (.ok value, t)) :
    Obeys false noJumps (flows value.before) := by
  rw [Parts.capture] at h
  split at h
  · exact absurd h fail_ne_ok
  · dsimp only at h
    split at h
    · simp only [bind_eq_ok, pure_eq_ok] at h
      obtain ⟨stmts, _, hstmts, rfl, rfl⟩ := h
      exact plain_obeys ih hstmts
    · simp only [bind_eq_ok, pure_eq_ok] at h
      obtain ⟨id, _, -, stmts, _, hstmts, rfl, rfl⟩ := h
      exact .cons (.step _) (plain_obeys ih hstmts)

/-- The statements before the operands after those that are done neither return nor jump. -/
theorem operandsAfter_obeys {done : List (Expr × Ir.Ty)} {es : List Ir.Expr}
    {values : Hoisted (List Expr)}
    (h : (rules n).operandsAfter ctx hoists done es s = (.ok values, t)) :
    Obeys false noJumps (flows values.before) := by
  induction es generalizing done s values with
  | nil =>
    obtain ⟨rfl, -⟩ := pure_eq_ok.1 h
    exact .nil
  | cons e es ihs =>
    simp only [Parts.operandsAfter, bind_eq_ok] at h
    obtain ⟨operand, _, hoperand, h⟩ := h
    split at h
    · simp only [bind_eq_ok, pure_eq_ok] at h
      obtain ⟨_, _, ⟨rfl, rfl⟩, rest, _, hrest, rfl, rfl⟩ := h
      rw [List.nil_append, flows_append]
      exact (ih.expr hoperand).append (ihs hrest)
    · simp only [bind_eq_ok, pure_eq_ok] at h
      obtain ⟨saved, _, hsaved, rest, _, hrest, rfl, rfl⟩ := h
      rw [flows_append, flows_append, List.append_assoc]
      exact (saveOperands_obeys hsaved).append ((ih.expr hoperand).append (ihs hrest))

/-- The statements before operands from left to right neither return nor jump. -/
theorem operands_obeys {es : List Ir.Expr} {values : Hoisted (List Expr)}
    (h : (rules n).operands ctx hoists es s = (.ok values, t)) :
    Obeys false noJumps (flows values.before) :=
  operandsAfter_obeys ih h

/-- The statements before two operands neither return nor jump. -/
theorem operandPair_obeys {left right : Ir.Expr} {both : Hoisted (Expr × Expr)}
    (h : (rules n).operandPair ctx hoists left right s = (.ok both, t)) :
    Obeys false noJumps (flows both.before) := by
  simp only [Parts.operandPair, bind_eq_ok] at h
  obtain ⟨values, _, hvalues, h⟩ := h
  have hbefore : both.before = values.before := by
    rcases hlist : values.value with _ | ⟨a, _ | ⟨b, _ | ⟨c, rest⟩⟩⟩ <;>
    · rw [hlist] at h
      obtain ⟨rfl, -⟩ := pure_eq_ok.1 h
      rfl
  exact hbefore ▸ operands_obeys ih hvalues

/-- The statements before an array, a tuple, a record or a case of a union neither return nor
jump. -/
theorem aggregate_obeys {kind : Ir.Aggregate} {values : List Ir.Expr} {loc : Option Ir.Location}
    (h : (rules n).aggregate ctx hoists kind values loc s = (.ok value, t)) :
    Obeys false noJumps (flows value.before) := by
  cases kind with
  | array =>
    simp only [Parts.aggregate, bind_eq_ok, pure_eq_ok] at h
    obtain ⟨values, _, hvalues, _, _, -, rfl, -⟩ := h
    exact operands_obeys ih hvalues
  | tuple | record | union =>
    simp only [Parts.aggregate, bind_eq_ok, pure_eq_ok] at h
    obtain ⟨_, _, -, values, _, hvalues, rfl, -⟩ := h
    exact operands_obeys ih hvalues
  | anonymous => exact absurd h fail_ne_ok

/-- The statements before a call neither return nor jump. -/
theorem call_obeys {callee : Ir.Expr} {receiver : Option Ir.Expr} {args : List Ir.Expr}
    (h : (rules n).call ctx hoists callee receiver args s = (.ok value, t)) :
    Obeys false noJumps (flows value.before) := by
  simp only [Parts.call, bind_eq_ok] at h
  obtain ⟨all, _, hall, h⟩ := h
  have hbefore : value.before = all.before := by
    rcases hlist : all.value with _ | ⟨a, rest⟩ <;>
    · rw [hlist] at h
      obtain ⟨rfl, -⟩ := pure_eq_ok.1 h
      rfl
  exact hbefore ▸ operands_obeys ih hall

/-- The statements before an application to curried arguments neither return nor jump. -/
theorem applied_obeys {f : Ir.Expr} {args : List Ir.Expr}
    (h : (rules n).applied ctx hoists f args s = (.ok value, t)) :
    Obeys false noJumps (flows value.before) := by
  simp only [Parts.applied, bind_eq_ok] at h
  obtain ⟨all, _, hall, h⟩ := h
  have hbefore : value.before = all.before := by
    rcases hlist : all.value with _ | ⟨a, rest⟩ <;>
    · rw [hlist] at h
      obtain ⟨rfl, -⟩ := pure_eq_ok.1 h
      rfl
  exact hbefore ▸ operands_obeys ih hall

/-- The statements before a logical operation neither return nor jump. -/
theorem logical_obeys {op : LogicalOp} {left right : Ir.Expr}
    (h : (rules n).logical ctx hoists op left right s = (.ok value, t)) :
    Obeys false noJumps (flows value.before) := by
  simp only [Parts.logical, bind_eq_ok] at h
  obtain ⟨leftValue, _, hleft, rightValue, _, hright, h⟩ := h
  split at h
  · obtain ⟨rfl, -⟩ := pure_eq_ok.1 h
    exact (ih.expr hleft :)
  · simp only [bind_eq_ok, pure_eq_ok] at h
    obtain ⟨id, _, -, rfl, -⟩ := h
    rw [flows_append]
    refine (ih.expr hleft).append (.cons (.step _) (.choose ?_ .nil))
    rw [flows_append]
    exact (ih.expr hright).append (.step _)

/-- The statements before a conditional neither return nor jump. -/
theorem conditional_obeys {guard thenExpr elseExpr : Ir.Expr} {ty : Ir.Ty}
    (h : (rules n).conditional ctx hoists guard thenExpr elseExpr ty s = (.ok value, t)) :
    Obeys false noJumps (flows value.before) := by
  simp only [Parts.conditional, bind_eq_ok] at h
  obtain ⟨test, _, htest, thenPart, _, hthen, elsePart, _, helse, h⟩ := h
  have hbranches : ∀ id : Option Ident, Obeys false noJumps
      (flows (test.before ++ id.toList.map (fun id => .declare id .var none) ++
        [.ifElse test.value (thenPart.before ++ branchEnd id thenPart.value)
          (elsePart.before ++ branchEnd id elsePart.value)])) := by
    intro id
    rw [List.append_assoc, flows_append, flows_append]
    refine (ih.expr htest).append (.append ?_ (.choose ?_ ?_))
    · cases id with
      | none => exact .nil
      | some => exact .step _
    · rw [flows_append]
      exact (ih.expr hthen).append (branchEnd_obeys id _)
    · rw [flows_append]
      exact (ih.expr helse).append (branchEnd_obeys id _)
  split at h
  · obtain ⟨rfl, -⟩ := pure_eq_ok.1 h
    exact (ih.expr htest :)
  · split at h
    · simp only [bind_eq_ok, pure_eq_ok] at h
      obtain ⟨_, _, ⟨rfl, rfl⟩, rfl, -⟩ := h
      exact hbranches none
    · simp only [bind_eq_ok, pure_eq_ok] at h
      obtain ⟨id, _, -, _, _, ⟨rfl, rfl⟩, rfl, -⟩ := h
      exact hbranches (some id)

/-- The statements before a node that is an expression neither return nor jump. -/
theorem exprCore_obeys (h : (rules n).exprCore ctx hoists e s = (.ok value, t)) :
    Obeys false noJumps (flows value.before) := by
  cases e with
  | literal =>
    obtain ⟨rfl, -⟩ := pure_eq_ok.1 h
    exact .nil
  | option inner =>
    cases inner with
    | none =>
      obtain ⟨rfl, -⟩ := pure_eq_ok.1 h
      exact .nil
    | some => exact ih.expr h
  | aggregate => exact aggregate_obeys ih h
  | ident id =>
    rw [Parts.exprCore] at h
    split at h
    · obtain ⟨rfl, -⟩ := pure_eq_ok.1 h
      exact .nil
    · simp only [bind_eq_ok, pure_eq_ok] at h
      obtain ⟨_, _, -, rfl, -⟩ := h
      exact .nil
  | cast inner ty =>
    simp only [Parts.exprCore, bind_eq_ok] at h
    obtain ⟨inner, _, hinner, h⟩ := h
    split at h
    · obtain ⟨rfl, -⟩ := pure_eq_ok.1 h
      exact ih.expr hinner
    · simp only [bind_eq_ok, pure_eq_ok] at h
      obtain ⟨_, _, -, rfl, -⟩ := h
      exact (ih.expr hinner :)
  | imported | lambda | delegate =>
    simp only [Parts.exprCore, bind_eq_ok, pure_eq_ok] at h
    obtain ⟨_, _, -, rfl, -⟩ := h
    exact .nil
  | object => exact absurd h fail_ne_ok
  | call callee receiver args isNew ty loc =>
    rw [Parts.exprCore] at h
    split at h
    · exact absurd h fail_ne_ok
    · exact call_obeys ih h
  | apply => exact applied_obeys ih h
  | unary op =>
    simp only [Parts.exprCore, bind_eq_ok] at h
    obtain ⟨operand, _, hoperand, h⟩ := h
    cases hop : unaryOperator? op with
    | none =>
      rw [hop] at h
      obtain ⟨rfl, -⟩ := pure_eq_ok.1 h
      exact ih.expr hoperand
    | some =>
      rw [hop] at h
      obtain ⟨rfl, -⟩ := pure_eq_ok.1 h
      exact (ih.expr hoperand :)
  | binary =>
    simp only [Parts.exprCore, bind_eq_ok, pure_eq_ok] at h
    obtain ⟨_, _, hboth, _, _, -, rfl, -⟩ := h
    exact operandPair_obeys ih hboth
  | logical => exact logical_obeys ih h
  | emit =>
    simp only [Parts.exprCore, bind_eq_ok, pure_eq_ok] at h
    obtain ⟨_, _, hargs, rfl, -⟩ := h
    exact operands_obeys ih hargs
  | get | test =>
    simp only [Parts.exprCore, bind_eq_ok, pure_eq_ok] at h
    obtain ⟨_, _, hinner, _, _, -, rfl, -⟩ := h
    exact (ih.expr hinner :)
  | getIndex =>
    simp only [Parts.exprCore, bind_eq_ok, pure_eq_ok] at h
    obtain ⟨_, _, hboth, rfl, -⟩ := h
    exact operandPair_obeys ih hboth
  | ifThenElse => exact conditional_obeys ih h
  | decisionTree => exact ih.expr h
  | success =>
    simp only [Parts.exprCore, bind_eq_ok] at h
    obtain ⟨_, _, -, h⟩ := h
    exact ih.expr h
  | curry =>
    simp only [Parts.exprCore, bind_eq_ok, pure_eq_ok] at h
    obtain ⟨_, _, hinner, _, _, -, rfl, -⟩ := h
    exact (ih.expr hinner :)
  | throw | debugger | set | setIndex | letIn | letRec | sequence | whileLoop | forLoop
  | tryCatch => exact capture_obeys ih h

/-- The statements before any node in the place of an expression neither return nor jump. -/
theorem exprRule_obeys (h : (rules n).exprRule ctx hoists e s = (.ok value, t)) :
    Obeys false noJumps (flows value.before) := by
  simp only [Parts.exprRule, bind_eq_ok] at h
  obtain ⟨expanded, _, -, h⟩ := h
  cases expanded with
  | some => exact ih.expr h
  | none =>
    simp only [bind_eq_ok] at h
    obtain ⟨isCaptured, _, -, h⟩ := h
    split at h
    · exact capture_obeys ih h
    · exact exprCore_obeys ih h

/-! ## Statements without a jump -/

/-- A declaration neither returns nor jumps. -/
theorem declare_obeys {id : Ir.Ident} (h : (rules n).declare ctx id e s = (.ok stmts, t)) :
    Obeys false noJumps (flows stmts) := by
  rw [Parts.declare] at h
  split at h
  · exact plain_obeys ih h
  · simp only [bind_eq_ok, isStatement_eq_ok] at h
    obtain ⟨place, _, -, isStatement, u, ⟨-, rfl⟩, h⟩ := h
    cases isStatement with
    | true =>
      simp only [if_true, bind_eq_ok, pure_eq_ok] at h
      obtain ⟨stmts, u, h, rfl, rfl⟩ := h
      exact .cons (.step _) (plain_obeys ih h)
    | false =>
      simp only [Bool.false_eq_true, if_false, bind_eq_ok, pure_eq_ok] at h
      obtain ⟨value, u, hvalue, rfl, rfl⟩ := h
      rw [flows_append]
      exact (ih.expr hvalue).append (.step _)

/-- An assignment neither returns nor jumps. -/
theorem assignment_obeys {place : Expr}
    (h : (rules n).assignment ctx place e s = (.ok stmts, t)) :
    Obeys false noJumps (flows stmts) := by
  simp only [Parts.assignment, bind_eq_ok, isStatement_eq_ok] at h
  obtain ⟨isStatement, u, ⟨-, rfl⟩, h⟩ := h
  cases isStatement with
  | true =>
    rw [if_pos rfl] at h
    exact assigned_obeys ih h
  | false =>
    simp only [Bool.false_eq_true, if_false, bind_eq_ok, pure_eq_ok] at h
    obtain ⟨value, u, hvalue, rfl, rfl⟩ := h
    rw [flows_append]
    exact (ih.expr hvalue).append (.step _)

/-- A recursive let neither returns nor jumps. -/
theorem recursive_obeys {bs : List Ir.Binding}
    (h : (rules n).recursive ctx bs s = (.ok stmts, t)) : Obeys false noJumps (flows stmts) := by
  induction bs generalizing s stmts with
  | nil =>
    obtain ⟨rfl, -⟩ := pure_eq_ok.1 h
    exact .nil
  | cons b bs ihs =>
    rcases recursive_cons (rules n) ctx b bs with ⟨params, body, name, -, heq⟩ | heq
    · rw [heq] at h
      simp only [Parts.localFunction, bind_eq_ok, pure_eq_ok] at h
      obtain ⟨_, _, ⟨_, _, -, rfl, rfl⟩, rest, _, hrest, rfl, rfl⟩ := h
      exact .cons (.step _) (ihs hrest)
    · rw [heq] at h
      simp only [bind_eq_ok, pure_eq_ok] at h
      obtain ⟨first, _, hfirst, rest, _, hrest, rfl, rfl⟩ := h
      rw [flows_append]
      exact (declare_obeys ih hfirst).append (ihs hrest)

omit ih in
/-- A loop whose condition needs statements is left from inside. -/
theorem whileStmt_obeys {guard : Hoisted Expr} (hguard : Obeys false noJumps (flows guard.before))
    (hstmts : Obeys false noJumps (flows stmts)) :
    Obeys false noJumps [(Parts.whileStmt guard stmts).flow] := by
  rw [Parts.whileStmt]
  split
  · exact .loop (.of_obeys hstmts)
  · refine .loop ?_
    rw [flows_append]
    exact (Repeats.of_obeys hguard).append ((Repeats.leaves _).append (.of_obeys hstmts))

/-- A counting loop neither returns nor jumps out. -/
theorem forLoop_obeys {id : Ir.Ident} {start limit body : Ir.Expr} {isUp : Bool}
    (h : (rules n).forLoop ctx.withoutTailCall id start limit body isUp s = (.ok stmts, t)) :
    Obeys false noJumps (flows stmts) := by
  simp only [Parts.forLoop, bind_eq_ok, pure_eq_ok] at h
  obtain ⟨_, _, hstart, _, _, hlimit, body, _, hbody, _, _, -, rfl, rfl⟩ := h
  rw [flows_append, flows_append, List.append_assoc]
  exact (ih.expr hstart).append ((ih.expr hlimit).append (.loop (.of_obeys (plain_obeys ih hbody))))

/-- A handler obeys the strategy, without jumps. -/
theorem handler_obeys {hd : Option Ir.Handler} {clause : Option CatchClause}
    (h : (rules n).handler ctx.withoutTailCall strategy hd s = (.ok clause, t)) :
    ∀ hs, handlerFlows clause = some hs → Obeys strategy.returns noJumps hs := by
  cases hd with
  | none =>
    obtain ⟨rfl, -⟩ := pure_eq_ok.1 h
    nofun
  | some hd =>
    simp only [Parts.handler, bind_eq_ok, pure_eq_ok] at h
    obtain ⟨_, _, -, body, _, hbody, rfl, rfl⟩ := h
    rintro _ ⟨⟩
    exact plain_obeys ih hbody

/-- A finalizer neither returns nor jumps. -/
theorem finalizer_obeys {fin : Option Ir.Expr} {block : Option (List Stmt)}
    (h : (rules n).finalizer ctx.withoutTailCall fin s = (.ok block, t)) :
    ∀ zs, finalizerFlows block = some zs → Obeys false noJumps zs := by
  cases fin with
  | none =>
    obtain ⟨rfl, -⟩ := pure_eq_ok.1 h
    nofun
  | some fin =>
    simp only [Parts.finalizer, bind_eq_ok, pure_eq_ok] at h
    obtain ⟨body, _, hbody, rfl, rfl⟩ := h
    rintro _ ⟨⟩
    exact plain_obeys ih hbody

/-- Declarations of what a target binds neither return nor jump. -/
theorem bindings_obeys {ids : List Ir.Ident} {values : List Ir.Expr}
    (h : (rules n).bindings ctx ids values s = (.ok stmts, t)) :
    Obeys false noJumps (flows stmts) := by
  induction ids generalizing values s stmts with
  | nil =>
    obtain ⟨rfl, -⟩ := pure_eq_ok.1 h
    exact .nil
  | cons id ids ihs =>
    cases values with
    | nil =>
      obtain ⟨rfl, -⟩ := pure_eq_ok.1 h
      exact .nil
    | cons value values =>
      simp only [Parts.bindings, bind_eq_ok, pure_eq_ok] at h
      obtain ⟨first, _, hfirst, rest, _, hrest, rfl, rfl⟩ := h
      rw [flows_append]
      exact (declare_obeys ih hfirst).append (ihs hrest)

/-- Assignments to what a target binds neither return nor jump. -/
theorem assignments_obeys {ids : List Ir.Ident} {values : List Ir.Expr}
    (h : (rules n).assignments ctx ids values s = (.ok stmts, t)) :
    Obeys false noJumps (flows stmts) := by
  induction ids generalizing values s stmts with
  | nil =>
    obtain ⟨rfl, -⟩ := pure_eq_ok.1 h
    exact .nil
  | cons id ids ihs =>
    cases values with
    | nil =>
      obtain ⟨rfl, -⟩ := pure_eq_ok.1 h
      exact .nil
    | cons value values =>
      simp only [Parts.assignments, bind_eq_ok, pure_eq_ok] at h
      obtain ⟨_, _, -, first, _, hfirst, rest, _, hrest, rfl, rfl⟩ := h
      rw [flows_append]
      exact (assigned_obeys ih hfirst).append (ihs hrest)

/-- The statements before the values of nodes neither return nor jump. -/
theorem values_obey {es : List Ir.Expr} {values : Hoisted (List Expr)}
    (h : (rules n).values ctx es s = (.ok values, t)) :
    Obeys false noJumps (flows values.before) := by
  induction es generalizing s values with
  | nil =>
    obtain ⟨rfl, -⟩ := pure_eq_ok.1 h
    exact .nil
  | cons e es ihs =>
    simp only [Parts.values, bind_eq_ok, pure_eq_ok] at h
    obtain ⟨first, _, hfirst, rest, _, hrest, rfl, rfl⟩ := h
    rw [flows_append]
    exact (ih.expr hfirst).append (ihs hrest)

omit ih in

/-- The writes to the slots of a loop neither return nor jump. -/
theorem slotWrites_obeys {file : SourceFile} {slots : List (Ir.Ident × String)}
    {values : List Expr} (h : Parts.slotWrites file slots values s = (.ok stmts, t)) :
    Obeys false noJumps (flows stmts) := by
  induction slots generalizing values s stmts with
  | nil =>
    obtain ⟨rfl, -⟩ := pure_eq_ok.1 h
    exact .nil
  | cons slot slots ihs =>
    cases values with
    | nil =>
      obtain ⟨rfl, -⟩ := pure_eq_ok.1 h
      exact .nil
    | cons value values =>
      obtain ⟨p, slot⟩ := slot
      rw [Parts.slotWrites] at h
      split at h
      · exact ihs h
      · simp only [bind_eq_ok, pure_eq_ok] at h
        obtain ⟨_, _, -, rest, _, hrest, rfl, rfl⟩ := h
        exact .cons (.step _) (ihs hrest)

/-! ## Statements in tail position -/

/-- A self tail call is a jump of the loop around. -/
theorem tailCall_obeys {loop : TailCall} {callee : Ir.Expr} {receiver : Option Ir.Expr}
    {args : List Ir.Expr} {isNew : Bool} {ty : Ir.Ty} {loc : Option Ir.Location}
    (hloop : ctx.selfTailCall? strategy callee receiver args isNew = some loop)
    (h : (rules n).tailCall ctx loop args s = (.ok stmts, t)) :
    Obeys strategy.returns (jumps strategy ctx (.call callee receiver args isNew ty loc) s t)
      (flows stmts) := by
  simp only [Parts.tailCall, bind_eq_ok, pure_eq_ok, markLooped_eq_ok] at h
  obtain ⟨_, u, rfl, values, w, hvalues, assigned, v, hassigned, rfl, rfl⟩ := h
  obtain ⟨hctx, hrec⟩ := Option.filter_eq_some_iff.1 hloop
  simp only [TailCall.recognizes, Bool.and_eq_true, beq_iff_eq] at hrec
  have hg := (((rules_grow n).values _ _).grows hvalues).trans
    ((below_slotWrites _ _ _).grows hassigned)
  rw [flows_append]
  refine .continues ?_ ⟨hrec.1.1.1.1, loop, ctx, callee, receiver, args, isNew, ty, loc, _, _, hctx,
    rfl, .refl _ _, hrec.2, .of_looped, ⟨n, w, values, assigned, hvalues, hassigned, rfl⟩,
    hg.looped rfl, .refl _⟩
  rw [flows_append]
  exact (values_obey ih hvalues).append (slotWrites_obeys hassigned)

/-- The statements of a node inside. -/
theorem inner_obeys {ctx' : Context} {e' : Ir.Expr} {s' t' : LowerState}
    (h : (rules n).stmts ctx' strategy e' s' = (.ok stmts, t')) (hw : Within ctx e ctx' e')
    (hs : Grows s s') (ht : Grows t' t) :
    Obeys strategy.returns (jumps strategy ctx e s t) (flows stmts) :=
  (ih.stmts h).mono fun _ _ => selfCalls_mono hw hs ht

/-- A sequence obeys the strategy, as its last node does. -/
theorem sequence_obeys {es : List Ir.Expr} (hw : ∀ d ∈ es, Within ctx e ctx d)
    (h : (rules n).sequence ctx strategy es s = (.ok stmts, t)) :
    Obeys strategy.returns (jumps strategy ctx e s t) (flows stmts) := by
  induction es generalizing s stmts with
  | nil =>
    obtain ⟨rfl, -⟩ := pure_eq_ok.1 h
    exact deliverUnit_obeys strategy
  | cons d es ihs =>
    cases es with
    | nil => exact inner_obeys ih h (hw d List.mem_cons_self) (.refl _) (.refl _)
    | cons d' es =>
      simp only [Parts.sequence, bind_eq_ok, pure_eq_ok] at h
      obtain ⟨first, u, hfirst, rest, _, hrest, rfl, rfl⟩ := h
      rw [flows_append]
      refine (plain_obeys ih hfirst).append ?_
      refine (ihs (fun d hd => hw d (List.mem_cons_of_mem _ hd)) hrest).mono fun _ _ => ?_
      exact selfCalls_mono (.refl _ _) (((rules_grow n).stmts _ _ _).grows hfirst) (.refl _)

/-- The bodies of the targets. -/
theorem targetBodies_obey {ts : List Ir.Target} {bodies : List (List Stmt)}
    (hw : ∀ t ∈ ts, Within ctx e ctx t.body)
    (h : (rules n).targetBodies ctx strategy ts s = (.ok bodies, t)) :
    (∀ body ∈ bodies, Obeys strategy.returns (jumps strategy ctx e s t) (flows body)) ∧
      bodies.length = ts.length := by
  induction ts generalizing s bodies with
  | nil =>
    obtain ⟨rfl, -⟩ := pure_eq_ok.1 h
    exact ⟨nofun, rfl⟩
  | cons target ts ihs =>
    simp only [Parts.targetBodies, bind_eq_ok, pure_eq_ok] at h
    obtain ⟨body, u, hbody, rest, v, hrest, rfl, rfl⟩ := h
    have hg := ((rules_grow n).stmts _ _ _).grows hbody
    have hg' := ((rules_grow n).targetBodies _ _ _).grows hrest
    obtain ⟨hobey, hlen⟩ := ihs (fun t ht => hw t (List.mem_cons_of_mem _ ht)) hrest
    refine ⟨fun body' hbody' => ?_, by rw [List.length_cons, List.length_cons, hlen]⟩
    rcases List.mem_cons.1 hbody' with rfl | hbody'
    · exact inner_obeys ih hbody (hw target List.mem_cons_self) (.refl _) hg'
    · exact (hobey body' hbody').mono fun _ _ => selfCalls_mono (.refl _ _) hg (.refl _)

omit ih in

/-- Declarations of what targets bind neither return nor jump. -/
theorem targetVariables_obey {ts : List Ir.Target}
    (h : Parts.targetVariables ctx ts s = (.ok stmts, t)) : Obeys false noJumps (flows stmts) := by
  simp only [Parts.targetVariables, bind_eq_ok, pure_eq_ok] at h
  obtain ⟨ids, _, -, rfl, -⟩ := h
  rw [flows_eq_map, List.map_map]
  have hmap : (ids.map (Stmt.flow ∘ fun id => Stmt.declare id .late none)) =
      (ids.map fun id => Stmt.declare id .late none).map (.step (ε := Expr)) := by
    rw [List.map_map]
    rfl
  exact hmap ▸ .steps _

omit ih in
/-- The switch over the bodies; the last one is the default case. -/
theorem dispatch_obeys {J : Jumps Stmt Expr} {ret : Bool} {join : String}
    {bodies : List (List Stmt)} (h : ∀ body ∈ bodies, Obeys ret J (flows body))
    (hne : bodies ≠ []) : Obeys ret J [(Parts.dispatch join bodies).flow] := by
  refine .switch (fun c hc => ?_) fun _ => ?_
  · rw [List.mem_append, caseFlows_eq_map, List.mem_map] at hc
    rcases hc with ⟨c, hc, rfl⟩ | hc
    · obtain ⟨⟨body, i⟩, hbody, rfl⟩ := List.mem_map.1 hc
      have hmem := List.dropLast_subset _ (List.fst_mem_of_mem_zipIdx hbody)
      exact ⟨flows body, _, rfl, h body hmem, .inr rfl⟩
    · rw [List.getLast?_eq_some_getLast hne] at hc
      obtain rfl := List.mem_singleton.1 hc
      exact ⟨_, _, rfl, h _ (List.getLast_mem hne), .inr rfl⟩
  · rw [List.getLast?_eq_some_getLast hne]
    exact ⟨_, List.mem_append_right _ List.mem_cons_self, rfl⟩

/-- A decision tree obeys the strategy. -/
theorem decisionTree_obeys {d : Ir.Expr} {ts : List Ir.Target}
    (h : (rules n).decisionTree ctx strategy d ts s = (.ok stmts, t)) :
    Obeys strategy.returns (jumps strategy ctx (.decisionTree d ts) s t) (flows stmts) := by
  rw [Parts.decisionTree] at h
  split at h
  · exact inner_obeys ih h .dispatcher (.refl _) (.refl _)
  · rename_i hshared
    simp only [bind_eq_ok, pure_eq_ok] at h
    obtain ⟨join, u, hjoin, declared, v, hdeclared, select, w, hselect, bodies, _, hbodies, rfl,
      rfl⟩ := h
    have hg : Grows s w := (((Below.allocateLocal _).grows hjoin).trans
      ((Parts.Deepens.below_targetVariables _ _).grows hdeclared)).trans
      (((rules_grow n).stmts _ _ _).grows hselect)
    obtain ⟨hobey, hlen⟩ := targetBodies_obey ih (e := .decisionTree d ts)
      (fun _ => .target) hbodies
    have hne : bodies ≠ [] := by
      rintro rfl
      obtain rfl := List.length_eq_zero_iff.1 hlen.symm
      exact hshared rfl
    simp only [List.cons_append, flows_cons, flows_append, List.append_assoc]
    refine .cons (.step _) ((targetVariables_obey hdeclared).append
      ((plain_obeys ih hselect).append (dispatch_obeys (fun body hbody => ?_) hne)))
    exact (hobey body hbody).mono fun _ _ => selfCalls_mono (.refl _ _) hg (.refl _)

/-- A success node obeys the strategy. -/
theorem success_obeys {index : Nat} {values : List Ir.Expr}
    (h : (rules n).success ctx strategy index values s = (.ok stmts, t)) :
    Obeys strategy.returns (jumps strategy ctx e s t) (flows stmts) := by
  simp only [Parts.success, bind_eq_ok, target, ofOption_eq_ok] at h
  obtain ⟨target, u, ⟨htarget, rfl⟩, h⟩ := h
  have hw : Within ctx e ctx target.body := .selected (List.mem_of_getElem? htarget)
  cases strategy with
  | join name =>
    simp only [bind_eq_ok, pure_eq_ok] at h
    obtain ⟨first, _, hfirst, rfl, rfl⟩ := h
    rw [flows_append]
    exact (assignments_obeys ih hfirst).append (.step _)
  | ret | effect | assign =>
    simp only [bind_eq_ok, pure_eq_ok] at h
    obtain ⟨first, u, hfirst, body, _, hbody, rfl, rfl⟩ := h
    rw [flows_append]
    refine (bindings_obeys ih hfirst).append (inner_obeys ih hbody hw ?_ (.refl _))
    exact ((rules_grow n).bindings _ _ _).grows hfirst

/-- A conditional statement obeys the strategy, as its branches do. -/
theorem conditionalStmts_obeys {guard thenExpr elseExpr : Ir.Expr}
    (hthen : Within ctx e ctx thenExpr) (helse : Within ctx e ctx elseExpr)
    (h : (rules n).conditionalStmts ctx strategy guard thenExpr elseExpr s = (.ok stmts, t)) :
    Obeys strategy.returns (jumps strategy ctx e s t) (flows stmts) := by
  simp only [Parts.conditionalStmts, bind_eq_ok, pure_eq_ok] at h
  obtain ⟨test, u, htest, thenStmts, v, hthenStmts, elseStmts, w, helseStmts, rfl, rfl⟩ := h
  have hu : Grows s u := ((rules_grow n).expr _ _ _).grows htest
  have hv : Grows u v := ((rules_grow n).stmts _ _ _).grows hthenStmts
  have hw : Grows v w := ((rules_grow n).stmts _ _ _).grows helseStmts
  rw [flows_append]
  exact (ih.expr htest).append (.choose (inner_obeys ih hthenStmts hthen hu hw)
    (inner_obeys ih helseStmts helse (hu.trans hv) (.refl _)))

/-! ## The rules -/

/-- Any node in the place of statements obeys the strategy. -/
theorem stmtsRule_obeys (h : (rules n).stmtsRule ctx strategy e s = (.ok stmts, t)) :
    Obeys strategy.returns (jumps strategy ctx e s t) (flows stmts) := by
  have hchild : ∀ {c}, c ∈ e.children → Within ctx e ctx c := .of_child
  cases e with
  | cast inner =>
    simp only [Parts.stmtsRule, bind_eq_ok] at h
    obtain ⟨dropped, u, hdropped, h⟩ := h
    split at h
    · exact inner_obeys ih h (hchild (by simp [Ir.Expr.children]))
        ((Parts.Deepens.below_dropsCast _ _ _).grows hdropped) (.refl _)
    · exact delivered_obeys ih h
  | call callee receiver args isNew ty loc =>
    simp only [Parts.stmtsRule] at h
    cases hloop : ctx.selfTailCall? strategy callee receiver args isNew with
    | some loop =>
      rw [hloop] at h
      exact tailCall_obeys ih hloop h
    | none =>
      rw [hloop] at h
      exact delivered_obeys ih h
  | ifThenElse guard thenExpr elseExpr loc =>
    simp only [Parts.stmtsRule, bind_eq_ok, isStatement_eq_ok] at h
    obtain ⟨isStatement, u, ⟨-, rfl⟩, h⟩ := h
    cases isStatement with
    | true =>
      exact conditionalStmts_obeys ih (hchild (by simp [Ir.Expr.children]))
        (hchild (by simp [Ir.Expr.children])) h
    | false => exact delivered_obeys ih h
  | decisionTree dispatcher targets => exact decisionTree_obeys ih h
  | success index values ty => exact success_obeys ih h
  | letIn id value body =>
    simp only [Parts.stmtsRule, bind_eq_ok, pure_eq_ok] at h
    obtain ⟨first, u, hfirst, rest, _, hrest, rfl, rfl⟩ := h
    rw [flows_append]
    exact (declare_obeys ih hfirst).append (inner_obeys ih hrest
      (hchild (by simp [Ir.Expr.children])) (((rules_grow n).declare _ _ _).grows hfirst) (.refl _))
  | letRec bindings body =>
    simp only [Parts.stmtsRule, bind_eq_ok, pure_eq_ok] at h
    obtain ⟨first, u, hfirst, rest, _, hrest, rfl, rfl⟩ := h
    rw [flows_append]
    exact (recursive_obeys ih hfirst).append (inner_obeys ih hrest
      (hchild (by simp [Ir.Expr.children])) (((rules_grow n).recursive _ _).grows hfirst) (.refl _))
  | sequence exprs => exact sequence_obeys ih (fun _ => hchild) h
  | set target field value loc =>
    simp only [Parts.stmtsRule, bind_eq_ok, pure_eq_ok] at h
    obtain ⟨target, _, htarget, assigned, _, hassigned, rfl, rfl⟩ := h
    rw [flows_append, flows_append, List.append_assoc]
    exact (ih.expr htarget).append
      ((assignment_obeys ih hassigned).append (deliverUnit_obeys strategy))
  | setIndex target index value loc =>
    simp only [Parts.stmtsRule, bind_eq_ok, pure_eq_ok] at h
    obtain ⟨target, _, htarget, index, _, hindex, assigned, _, hassigned, rfl, rfl⟩ := h
    simp only [flows_append, List.append_assoc]
    exact (ih.expr htarget).append ((ih.expr hindex).append
      ((assignment_obeys ih hassigned).append (deliverUnit_obeys strategy)))
  | whileLoop guard body loc =>
    simp only [Parts.stmtsRule, bind_eq_ok, pure_eq_ok] at h
    obtain ⟨test, _, htest, body, _, hbody, rfl, rfl⟩ := h
    exact .cons (whileStmt_obeys (ih.expr htest) (plain_obeys ih hbody))
      (deliverUnit_obeys strategy)
  | forLoop id start limit body isUp loc =>
    simp only [Parts.stmtsRule, bind_eq_ok, pure_eq_ok] at h
    obtain ⟨loop, _, hloop, rfl, rfl⟩ := h
    rw [flows_append]
    exact (forLoop_obeys ih hloop).append (deliverUnit_obeys strategy)
  | tryCatch body handler finalizer loc =>
    simp only [Parts.stmtsRule, bind_eq_ok, pure_eq_ok] at h
    obtain ⟨block, _, hblock, clause, _, hclause, fin, _, hfin, rfl, rfl⟩ := h
    exact .protect (plain_obeys ih hblock) (handler_obeys ih hclause) (finalizer_obeys ih hfin)
  | throw error ty loc =>
    cases error with
    | some error =>
      simp only [Parts.stmtsRule, bind_eq_ok, pure_eq_ok] at h
      obtain ⟨value, _, hvalue, rfl, rfl⟩ := h
      rw [flows_append]
      exact (ih.expr hvalue).append (.raises _)
    | none =>
      obtain ⟨rfl, -⟩ := pure_eq_ok.1 h
      exact .raises _
  | debugger loc =>
    simp only [Parts.stmtsRule, bind_eq_ok, pure_eq_ok] at h
    obtain ⟨library, _, -, rfl, rfl⟩ := h
    exact .cons (.step _) (deliverUnit_obeys strategy)
  | emit template args isStatement ty loc =>
    cases isStatement with
    | true =>
      simp only [Parts.stmtsRule, bind_eq_ok, pure_eq_ok] at h
      obtain ⟨args, _, hargs, rfl, rfl⟩ := h
      rw [flows_append]
      exact (operands_obeys ih hargs).append (.cons (.step _) (deliverUnit_obeys strategy))
    | false => exact delivered_obeys ih h
  | literal | option | aggregate | ident | imported | lambda | delegate | object | apply | unary
  | binary | logical | get | getIndex | test | curry => exact delivered_obeys ih h

end

/-- Statements obey the strategy that they are lowered with. -/
theorem rules_obey (n : Nat) : Disciplined n := by
  induction n with
  | zero => exact ⟨fun h => absurd h fail_ne_ok, fun h => absurd h fail_ne_ok⟩
  | succ n ih => exact ⟨stmtsRule_obeys ih, exprRule_obeys ih⟩

end TypedLowering.Dart
