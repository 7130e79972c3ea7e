import TypedLowering.JavaScript.Tree
import TypedLowering.Proofs.JavaScript.Depth
import TypedLowering.Proofs.JavaScript.Evaluation
import TypedLowering.Proofs.JavaScript.Orderly
import TypedLowering.Proofs.Lowering.Outcome

/-!
# The form of lowered expressions

What the code for an expression looks like on the outside: an operation stays one, a variable is an
identifier, and what is not noticed is not noticed in JavaScript.
-/

namespace TypedLowering.JavaScript

open Control Lower

/-- Whether an expression is an operation, and not a name, a constant or a function. -/
def Expr.isOperation (e : Expr) : Bool :=
  match e.form with
  | .ident _ | .this | .literal _ | .function _ => false
  | _ => true

theorem isFunction_of_isOperation {e : Expr} (h : e.isOperation = true) : e.isFunction = false := by
  obtain ⟨_, form⟩ := e
  cases form <;> first | rfl | cases h

variable {W : World} {ctx : Context} {e : Ir.Expr} {code : Expr} {s t : LowerState} {r : Parts}
  {n : Nat}

theorem isOperation_withLoc (code : Expr) (loc : Option Ir.Location) :
    (code.withLoc loc).isOperation = code.isOperation := by
  rw [Expr.isOperation, Expr.isOperation, Expr.form_withLoc]

theorem isFunction_withLoc (code : Expr) (loc : Option Ir.Location) :
    (code.withLoc loc).isFunction = code.isFunction := by
  rw [Expr.isFunction, Expr.isFunction, Expr.form_withLoc]

theorem invoked_eq_ok (h : r.invoked ctx e s = (.ok code, t)) :
    ∃ body, r.stmts ctx.withoutTailCall (.ofType e.type.isUnit) e s = (.ok body, t) ∧
      code = .call (.of (.function (.arrow [] (.block body)))) [] := by
  simp only [Parts.invoked, bind_eq_ok, pure_eq_ok] at h
  obtain ⟨body, u, hbody, rfl, rfl⟩ := h
  exact ⟨body, hbody, rfl⟩

/-- The ways to lower a node to an expression: as its expansion, as a function that is called at
once, or as itself. -/
inductive Parts.LowersBy (r : Parts) (ctx : Context) (e : Ir.Expr) (s : LowerState) (code : Expr)
    (t : LowerState) : Prop
  | expansion {callee expanded : Ir.Expr} {args : List Ir.Expr} {isNew : Bool} {ty : Ir.Ty}
    {loc : Option Ir.Location} {u : LowerState} (call : e = .call callee none args isNew ty loc)
    (expands : expandInline ctx.file callee args s = (.ok (some expanded), u))
    (lowers : r.expr ctx expanded u = (.ok code, t))
  | invoked {u v : LowerState} (grows : Grows s v)
    (isInvoked : Parts.isInvoked ctx e u = (.ok true, v))
    (lowers : r.invoked ctx e v = (.ok code, t))
  | core {u v : LowerState} {core : Expr} (grows : Grows s v)
    (isInvoked : Parts.isInvoked ctx e u = (.ok false, v))
    (lowers : r.exprCore ctx e v = (.ok core, t)) (located : code = core.withLoc e.location)

theorem exprRule_lowersBy (h : r.exprRule ctx e s = (.ok code, t)) : r.LowersBy ctx e s code t := by
  simp only [Parts.exprRule, bind_eq_ok] at h
  obtain ⟨expanded, u, hexpanded, h⟩ := h
  have hsu : Grows s u := (Parts.Deepens.below_expansion? ctx e).grows hexpanded
  cases expanded with
  | some expanded =>
    cases e with
    | call callee receiver args isNew ty loc =>
      cases receiver with
      | none => exact .expansion rfl hexpanded h
      | some => cases hexpanded
    | _ => cases hexpanded
  | none =>
    obtain ⟨invoked, v, hinvoked, h⟩ := bind_eq_ok.1 h
    have hsv : Grows s v := hsu.trans ((Parts.Deepens.below_isInvoked ctx e).grows hinvoked)
    cases invoked with
    | true => exact .invoked hsv hinvoked h
    | false =>
      simp only [Bool.false_eq_true, if_false, bind_eq_ok, pure_eq_ok] at h
      obtain ⟨core, w, hcore, rfl, rfl⟩ := h
      exact .core hsv hinvoked hcore rfl

/-- The code for a let is a function that is called at once. -/
theorem isOperation_of_letIn {id : Ir.Ident} {value body : Ir.Expr}
    (h : (rules n).expr ctx (.letIn id value body) s = (.ok code, t)) :
    code.isOperation = true := by
  cases n with
  | zero => exact absurd h fail_ne_ok
  | succ n =>
    cases exprRule_lowersBy h with
    | expansion call => cases call
    | invoked _ _ lowers =>
      obtain ⟨body, -, rfl⟩ := invoked_eq_ok lowers
      rfl
    | core _ isInvoked =>
      cases isInvoked

theorem isOperation_applied {f : Expr} {args : List Ir.Expr} (hf : f.isOperation = true ∨ args ≠ [])
    (h : r.applied ctx f args s = (.ok code, t)) : code.isOperation = true := by
  induction args generalizing f s with
  | nil =>
    obtain ⟨rfl, -⟩ := pure_eq_ok.1 h
    exact hf.resolve_right (· rfl)
  | cons arg args ih =>
    simp only [Parts.applied, bind_eq_ok] at h
    obtain ⟨value, u, -, h⟩ := h
    exact ih (.inl rfl) h

theorem isOperation_binary {op : Ir.BinaryOp} {left right : Ir.Expr} {ty : Ir.Ty}
    (h : r.binary ctx op left right ty s = (.ok code, t)) : code.isOperation = true := by
  simp only [Parts.binary, bind_eq_ok] at h
  obtain ⟨a, u, -, b, v, -, h⟩ := h
  cases op with
  | equal | notEqual =>
    dsimp only at h
    split at h
    · obtain ⟨rfl, -⟩ := pure_eq_ok.1 h
      rfl
    · simp only [bind_eq_ok, pure_eq_ok] at h
      obtain ⟨_, _, -, rfl, -⟩ := h
      rfl
  | divide =>
    obtain ⟨rfl, -⟩ := pure_eq_ok.1 h
    split <;> rfl
  | _ =>
    obtain ⟨rfl, -⟩ := pure_eq_ok.1 h
    rfl

/-- An operation stays an operation when its operands are lowered. -/
theorem isOperation_exprCore (he : e.isComputed = true)
    (hcast : ∀ inner ty, e ≠ .cast inner ty) (h : r.exprCore ctx e s = (.ok code, t)) :
    code.isOperation = true := by
  cases e with
  | cast inner ty => exact absurd rfl (hcast inner ty)
  | getIndex =>
    simp only [Parts.exprCore, Parts.element, bind_eq_ok, pure_eq_ok] at h
    obtain ⟨_, _, -, _, _, -, rfl, -⟩ := h
    rfl
  | unary =>
    simp only [Parts.exprCore, bind_eq_ok, pure_eq_ok] at h
    obtain ⟨_, _, -, rfl, -⟩ := h
    rfl
  | get obj access =>
    simp only [Parts.exprCore, bind_eq_ok, pure_eq_ok] at h
    obtain ⟨_, _, -, rfl, -⟩ := h
    cases access with
    | optionValue => cases he
    | _ => rfl
  | binary => exact isOperation_binary h
  | logical op =>
    simp only [Parts.exprCore, bind_eq_ok, pure_eq_ok] at h
    obtain ⟨_, _, -, _, _, -, rfl, -⟩ := h
    rfl
  | curry =>
    simp only [Parts.exprCore, bind_eq_ok, pure_eq_ok] at h
    obtain ⟨_, _, -, _, _, -, rfl, -⟩ := h
    rfl
  | call callee receiver args isNew =>
    simp only [Parts.exprCore, Parts.call, bind_eq_ok, pure_eq_ok] at h
    obtain ⟨_, _, -, _, _, -, rfl, -⟩ := h
    cases isNew <;> rfl
  | apply f args =>
    simp only [Parts.exprCore, bind_eq_ok] at h
    obtain ⟨_, _, -, h⟩ := h
    refine isOperation_applied (.inr ?_) h
    rintro rfl
    cases he
  | _ => cases he

/-- An operation stays an operation. -/
theorem isOperation_of_isComputed (he : e.isComputed = true)
    (h : (rules n).expr ctx e s = (.ok code, t)) : code.isOperation = true := by
  induction n generalizing e s code t with
  | zero => exact absurd h fail_ne_ok
  | succ n ih =>
    cases exprRule_lowersBy h with
    | @expansion callee expanded args isNew ty loc u call expands lowers =>
      subst call
      obtain ⟨inline, fresh, hexpands⟩ := expandInline_expands expands
      obtain ⟨ref, _, _, hcallee⟩ := hexpands.isImported
      -- The callee is imported, so there are arguments.
      cases args with
      | nil =>
        simp [Ir.Expr.isComputed, Ir.Expr.uncast, hcallee, Ir.Expr.isImported] at he
      | cons arg args =>
        obtain ⟨p, params, rfl⟩ := List.exists_cons_of_length_eq_add_one hexpands.length
        rw [hexpands.eq] at lowers
        exact isOperation_of_letIn lowers
    | invoked _ _ lowers =>
      obtain ⟨body, -, rfl⟩ := invoked_eq_ok lowers
      rfl
    | core _ _ lowers located =>
      subst located
      rw [isOperation_withLoc]
      by_cases hcast : ∃ inner ty, e = .cast inner ty
      · obtain ⟨inner, ty, rfl⟩ := hcast
        exact ih (show inner.isComputed = true from he) lowers
      · exact isOperation_exprCore he (fun inner ty heq => hcast ⟨inner, ty, heq⟩) lowers

/-- A reference to what is defined elsewhere is no function. -/
theorem isFunction_of_isReference (he : e.isReference = true)
    (h : (rules n).expr ctx e s = (.ok code, t)) : code.isFunction = false := by
  induction n generalizing e s code t with
  | zero => exact absurd h fail_ne_ok
  | succ n ih =>
    cases exprRule_lowersBy h with
    | expansion call =>
      subst call
      cases he
    | invoked _ _ lowers =>
      obtain ⟨body, -, rfl⟩ := invoked_eq_ok lowers
      rfl
    | core _ _ lowers located =>
      subst located
      rw [isFunction_withLoc]
      cases e with
      | cast inner => exact ih (show inner.isReference = true from he) lowers
      | ident id =>
        obtain ⟨rfl, -⟩ := pure_eq_ok.1 lowers
        cases id.isThis <;> rfl
      | imported =>
        simp only [Parts.exprCore, bind_eq_ok, pure_eq_ok] at lowers
        obtain ⟨_, _, -, _, _, -, rfl, -⟩ := lowers
        rfl
      | _ => cases he

/-- Whether code is an identifier, with the location of wherever it stands. -/
theorem form_of_isVariable {id : Ir.Ident} (hid : e.uncast = .ident id) (hthis : id.isThis = false)
    (h : (rules n).expr ctx e s = (.ok code, t)) : code.form = .ident id.name := by
  induction n generalizing e s code t with
  | zero => exact absurd h fail_ne_ok
  | succ n ih =>
    cases exprRule_lowersBy h with
    | expansion call =>
      subst call
      cases hid
    | invoked _ isInvoked =>
      cases e with
      | ident | cast => cases isInvoked
      | _ => cases hid
    | core _ _ lowers located =>
      subst located
      rw [Expr.form_withLoc]
      cases e with
      | cast inner => exact ih (show inner.uncast = _ from hid) lowers
      | ident id =>
        obtain ⟨rfl, -⟩ := pure_eq_ok.1 lowers
        cases hid
        rw [hthis]
        rfl
      | _ => cases hid

/-- What is not noticed is not noticed in JavaScript. -/
theorem run_of_silent (he : e.Silent W) (h : (rules n).expr ctx e s = (.ok code, t)) :
    code.run W = .exit .normal := by
  induction n generalizing e s code t with
  | zero => exact absurd h fail_ne_ok
  | succ n ih =>
    cases exprRule_lowersBy h with
    | expansion call =>
      subst call
      cases he
    | invoked _ isInvoked =>
      cases e with
      | literal | ident | cast => cases isInvoked
      | _ => cases he
    | core _ _ lowers located =>
      subst located
      rw [run_withLoc]
      cases e with
      | cast inner => exact ih (show inner.Silent W from he) lowers
      | ident id =>
        obtain ⟨rfl, -⟩ := pure_eq_ok.1 lowers
        cases hthis : id.isThis with
        | true => rw [if_pos rfl, run_of, ExprForm.run]
        | false =>
          have hid : W.Overlooks id.name := he.resolve_left (hthis ▸ nofun)
          rw [if_neg Bool.false_ne_true, run_ident, World.does_of_ignores hid.read]
      | literal value =>
        obtain ⟨rfl, -⟩ := pure_eq_ok.1 lowers
        rw [run_of]
        cases value <;> rw [literalForm, ExprForm.run]
      | _ => cases he

end TypedLowering.JavaScript
