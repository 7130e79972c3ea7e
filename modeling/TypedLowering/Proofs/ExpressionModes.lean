import TypedLowering.Dart.Lower.Declaration
import TypedLowering.Proofs.OperandOrder

/-!
# Pure and capturing lowering agree

In Dart, a node is lowered to an expression in one of two modes: statements may run before it, or
they may not. Step by step both modes do the same, until the one without statements comes to a node
that needs some and stops there (`Lower.Agrees`). So it is for the parts that a node is lowered with
(`Parts.Agree`), and for all nodes under the rules (`rules_agree`). From any state, then, both modes
come to the same, except that the one refuses what the other captures (`modes_agree`).
-/

namespace TypedLowering

namespace Lower

variable {α β : Type}

/-- Whether two computations do the same and give a result of a kind, unless the first one stops at
a node that needs statements. -/
def Agrees (kind : α → Prop) (strict free : Lower α) : Prop :=
  ∀ s, (∃ node loc t, strict s = (.error (.statementInExpression node loc), t)) ∨
    free s = strict s ∧ ∀ a t, strict s = (.ok a, t) → kind a

namespace Agrees

variable {kind : α → Prop} {kind' : β → Prop}

/-- Computations that agree may be followed by computations that agree. -/
theorem bind {strict free : Lower α} {k k' : α → Lower β} (h : Agrees kind strict free)
    (hk : ∀ a, kind a → Agrees kind' (k a) (k' a)) :
    Agrees kind' (strict >>= k) (free >>= k') := by
  intro s
  rcases h s with ⟨node, loc, t, hstop⟩ | ⟨heq, hkind⟩
  · exact .inl ⟨node, loc, t, bind_error hstop⟩
  · rcases hs : strict s with ⟨e | a, t⟩
    · rw [bind_error hs, bind_error (heq.trans hs)]
      exact .inr ⟨rfl, nofun⟩
    · rw [bind_ok hs, bind_ok (heq.trans hs)]
      exact hk a (hkind a t hs) t

/-- A value of the kind agrees with itself. -/
theorem pure {a : α} (h : kind a) : Agrees kind (Pure.pure a) (Pure.pure a) := by
  refine fun s => .inr ⟨rfl, fun b t hb => ?_⟩
  cases hb
  exact h

/-- A failure agrees with itself. -/
theorem fail (e : LowerError) : Agrees kind (.fail e) (.fail e) :=
  fun _ => .inr ⟨rfl, nofun⟩

/-- Where the mode without statements stops, the other mode may do anything. -/
theorem stop (node : String) (loc : Option Ir.Location) (free : Lower α) :
    Agrees kind (.fail (.statementInExpression node loc)) free :=
  fun s => .inl ⟨node, loc, s, rfl⟩

/-- A step that is the same in both modes. -/
theorem same (m : Lower α) : Agrees (fun _ => True) m m :=
  fun _ => .inr ⟨rfl, fun _ _ _ => trivial⟩

/-- A choice agrees if both of its branches do. -/
theorem ite {c : Prop} [Decidable c] {m n m' n' : Lower α} (hm : Agrees kind m m')
    (hn : Agrees kind n n') : Agrees kind (if c then m else n) (if c then m' else n') := by
  split
  · exact hm
  · exact hn

end Agrees

end Lower

namespace Dart

open Lower (Agrees)

/-- Whether no statements run before. -/
def Hoisted.Bare {α : Type} (v : Hoisted α) : Prop := v.before = []

/-- In both modes parts are lowered alike. -/
def Parts.Agree (r : Parts) : Prop :=
  ∀ ctx e, Agrees Hoisted.Bare (r.expr ctx false e) (r.expr ctx true e)

namespace Parts.Agree

variable {r : Parts} (h : r.Agree)
include h

/-! ## Parts -/

omit h in
/-- Where no statements may run before, a node that is captured is an error. -/
theorem capture (ctx : Context) (e : Ir.Expr) :
    Agrees Hoisted.Bare (r.capture ctx false e) (r.capture ctx true e) :=
  .stop _ _ _

/-- Both modes agree on operands behind others. -/
theorem operandsAfter (ctx : Context) (done : List (Expr × Ir.Ty)) (es : List Ir.Expr) :
    Agrees Hoisted.Bare (r.operandsAfter ctx false done es)
      (r.operandsAfter ctx true done es) := by
  induction es generalizing done with
  | nil => exact .pure rfl
  | cons e es ih =>
    refine .bind (h ctx e) fun operand hoperand => ?_
    -- The operands before it are not saved.
    rw [Hoisted.Bare] at hoperand
    simp only [hoperand, List.isEmpty_nil, if_true, pure_bind, List.nil_append]
    exact .bind (ih _) fun rest hrest => .pure hrest

/-- Both modes agree on operands. -/
theorem operands (ctx : Context) (es : List Ir.Expr) :
    Agrees Hoisted.Bare (r.operands ctx false es) (r.operands ctx true es) :=
  h.operandsAfter ctx [] es

/-- Both modes agree on two operands. -/
theorem operandPair (ctx : Context) (left right : Ir.Expr) :
    Agrees Hoisted.Bare (r.operandPair ctx false left right)
      (r.operandPair ctx true left right) := by
  refine .bind (h.operands ctx [left, right]) fun both hboth => ?_
  split <;> exact .pure hboth

/-! ## Expressions -/

/-- Both modes agree on aggregates. -/
theorem aggregate (ctx : Context) (kind : Ir.Aggregate) (values : List Ir.Expr)
    (loc : Option Ir.Location) :
    Agrees Hoisted.Bare (r.aggregate ctx false kind values loc)
      (r.aggregate ctx true kind values loc) := by
  cases kind with
  | array =>
    exact .bind (h.operands ctx values) fun _ hvalues => .bind (.same _) fun _ _ => .pure hvalues
  | tuple | record | union =>
    exact .bind (.same _) fun _ _ => .bind (h.operands ctx values) fun _ hvalues => .pure hvalues
  | anonymous => exact .fail _

/-- Both modes agree on calls. -/
theorem call (ctx : Context) (callee : Ir.Expr) (receiver : Option Ir.Expr)
    (args : List Ir.Expr) :
    Agrees Hoisted.Bare (r.call ctx false callee receiver args)
      (r.call ctx true callee receiver args) := by
  refine .bind (h.operands ctx _) fun all hall => ?_
  split <;> exact .pure hall

/-- Both modes agree on applications. -/
theorem applied (ctx : Context) (f : Ir.Expr) (args : List Ir.Expr) :
    Agrees Hoisted.Bare (r.applied ctx false f args) (r.applied ctx true f args) := by
  refine .bind (h.operands ctx (f :: args)) fun all hall => ?_
  split <;> exact .pure hall

/-- Both modes agree on operators that may leave out their right operand. -/
theorem logical (ctx : Context) (op : LogicalOp) (left right : Ir.Expr) :
    Agrees Hoisted.Bare (r.logical ctx false op left right) (r.logical ctx true op left right) := by
  refine .bind (h ctx left) fun left hleft => .bind (h ctx right) fun right hright => ?_
  rw [Hoisted.Bare] at hright
  simp only [hright, List.isEmpty_nil, if_true]
  exact .pure hleft

/-- Both modes agree on conditionals. -/
theorem conditional (ctx : Context) (guard thenExpr elseExpr : Ir.Expr) (ty : Ir.Ty) :
    Agrees Hoisted.Bare (r.conditional ctx false guard thenExpr elseExpr ty)
      (r.conditional ctx true guard thenExpr elseExpr ty) := by
  refine .bind (h ctx guard) fun guard hguard => .bind (h ctx thenExpr) fun thenPart hthen =>
    .bind (h ctx elseExpr) fun elsePart helse => ?_
  rw [Hoisted.Bare] at hthen helse
  simp only [hthen, helse, List.isEmpty_nil, Bool.and_self, if_true]
  exact .pure hguard

/-- Both modes agree on all nodes if they agree on the parts. -/
theorem exprCore (ctx : Context) (e : Ir.Expr) :
    Agrees Hoisted.Bare (r.exprCore ctx false e) (r.exprCore ctx true e) := by
  cases e with
  | literal => exact .pure rfl
  | option value =>
    cases value with
    | none => exact .pure rfl
    | some value => exact h ctx value
  | aggregate kind values loc => exact h.aggregate ctx kind values loc
  | ident => exact .ite (.pure rfl) (.bind (.same _) fun _ _ => .pure rfl)
  | cast inner =>
    exact .bind (h ctx inner) fun _ hvalue =>
      .ite (.pure hvalue) (.bind (.same _) fun _ _ => .pure hvalue)
  | imported | lambda | delegate => exact .bind (.same _) fun _ _ => .pure rfl
  | object => exact .fail _
  | call callee receiver args => exact .ite (.fail _) (h.call ctx callee receiver args)
  | apply f args => exact h.applied ctx f args
  | unary op operand =>
    refine .bind (h ctx operand) fun value hvalue => ?_
    split <;> exact .pure hvalue
  | binary op left right =>
    exact .bind (h.operandPair ctx left right) fun _ hboth =>
      .bind (.same _) fun _ _ => .pure hboth
  | logical op left right => exact h.logical ctx _ left right
  | emit template args => exact .bind (h.operands ctx args) fun _ hargs => .pure hargs
  | get obj => exact .bind (h ctx obj) fun _ hobj => .bind (.same _) fun _ _ => .pure hobj
  | getIndex obj index =>
    exact .bind (h.operandPair ctx obj index) fun _ hboth => .pure hboth
  | test value => exact .bind (h ctx value) fun _ hvalue => .bind (.same _) fun _ _ => .pure hvalue
  | ifThenElse guard thenExpr elseExpr => exact h.conditional ctx guard thenExpr elseExpr _
  | decisionTree dispatcher targets => exact h (ctx.withTargets targets) dispatcher
  | success index => exact .bind (.same _) fun t _ => h ctx t.body
  | curry inner =>
    exact .bind (h ctx inner) fun _ hvalue => .bind (.same _) fun _ _ => .pure hvalue
  | throw | debugger | set | setIndex | letIn | letRec | sequence | whileLoop | forLoop
  | tryCatch => exact capture ctx _

/-- A node is expanded and captured in both modes alike. -/
theorem exprRule (ctx : Context) (e : Ir.Expr) :
    Agrees Hoisted.Bare (r.exprRule ctx false e) (r.exprRule ctx true e) := by
  refine .bind (.same _) fun expanded _ => ?_
  cases expanded with
  | some expanded => exact h ctx expanded
  | none =>
    refine .bind (.same _) fun isCaptured _ => ?_
    cases isCaptured with
    | true => exact capture ctx e
    | false => exact h.exprCore ctx e

end Parts.Agree

/-- Under the rules, all nodes are lowered alike in both modes. -/
theorem rules_agree (n : Nat) : (rules n).Agree := by
  induction n with
  | zero => exact fun _ _ => .fail _
  | succ n ih => exact fun ctx e => ih.exprRule ctx e

/-! ## The two modes -/

/-- Whether a node was refused because it needs statements. -/
def Refused {α : Type} (result : Except LowerError α × LowerState) : Prop :=
  ∃ node loc t, result = (.error (.statementInExpression node loc), t)

/-- What lowering a node to an expression alone comes to, compared with lowering it to an expression
that statements may run before, both from one state. -/
structure ModesAgree (alone : Except LowerError Expr × LowerState)
    (captured : Except LowerError (Hoisted Expr) × LowerState) : Prop where
  /-- An expression alone is captured without statements, and leaves the same state. -/
  ofAlone : ∀ {value t}, alone = (.ok value, t) → captured = (.ok ⟨[], value⟩, t)
  ofCaptured : ∀ {code t}, captured = (.ok code, t) → alone = (.ok code.value, t) ∨ Refused alone
  /-- With statements before it, it is no expression alone. -/
  ofStatements : ∀ {code t}, captured = (.ok code, t) → code.before ≠ [] → Refused alone
  /-- What cannot be captured fails in the same way, unless it is refused before. -/
  ofFailure : ∀ {error t}, captured = (.error error, t) → alone = (.error error, t) ∨ Refused alone

/-- The two modes in which Dart expressions are lowered agree: names, imports and the journal are
those of the same state. -/
theorem modes_agree (ctx : Context) (e : Ir.Expr) (s : LowerState) :
    ModesAgree (lowerExpr ctx e s) (captureExpr ctx e s) := by
  have hvalue : ∀ r : Lower (Hoisted Expr), (do return (← r).value : Lower Expr) s =
      ((r s).1.map (·.value), (r s).2) := by
    intro r
    simp only [bind, pure]
    rcases r s with ⟨_ | _, _⟩ <;> rfl
  rw [lowerExpr, captureExpr, Parts.captured, hvalue]
  rcases rules_agree (ctx.depth e) ctx e s with ⟨node, loc, u, hstop⟩ | ⟨heq, hbare⟩
  · -- The mode without statements stops at a node.
    rw [hstop]
    have hrefused : Refused (α := Expr) (.error (.statementInExpression node loc), u) :=
      ⟨node, loc, u, rfl⟩
    exact ⟨fun h => (by cases h), fun _ => .inr hrefused, fun _ _ => hrefused,
      fun _ => .inr hrefused⟩
  · rw [heq]
    rcases hresult : (rules (ctx.depth e)).expr ctx false e s with ⟨error | ⟨before, value⟩, t⟩
    · refine ⟨fun h => ?_, fun h => ?_, fun h _ => ?_, fun h => .inl ?_⟩ <;> cases h
      rfl
    · obtain rfl : before = [] := hbare _ _ hresult
      refine ⟨fun h => ?_, fun h => .inl ?_, fun h hne => ?_, fun h => ?_⟩ <;> cases h
      · rfl
      · rfl
      · exact absurd rfl hne

/-- The call `h (x = y) (z <- w; z)` is captured with statements before it, and so it is refused
where an expression is wanted alone. -/
theorem savedCall_refused : ∃ code t,
    captureExpr (.ofFile bareFile) savedCall savedState = (.ok code, t) ∧ code.before.length = 4 ∧
      Refused (lowerExpr (.ofFile bareFile) savedCall savedState) := by
  obtain ⟨code, t, h, hlength⟩ : ∃ code t,
      captureExpr (.ofFile bareFile) savedCall savedState = (.ok code, t) ∧
        code.before.length = 4 := ⟨_, _, rfl, rfl⟩
  have hne : code.before ≠ [] := fun hnil => by simp [hnil] at hlength
  exact ⟨code, t, h, hlength, (modes_agree _ _ _).ofStatements h hne⟩

end Dart

end TypedLowering
