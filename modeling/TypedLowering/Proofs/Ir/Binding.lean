import TypedLowering.Proofs.Ir.Uses

/-!
# Binding structure

An occurrence in an expression is given by the path that leads to it (`at?`), and comes with the
binders that stand around it, group by group. The innermost group that has the name of an identifier
binds it (`binder?`).
-/

namespace TypedLowering.Ir

/-- The identifiers that a node binds in one of its children. -/
structure Binders where
  ids : List Ident
  /-- They are the parameters of a member of an object expression. -/
  ofMember : Bool

namespace Binders

/-- No identifiers. -/
def empty : Binders := ⟨[], false⟩

/-- Identifiers that no member of an object expression has as its parameters. -/
def of (ids : List Ident) : Binders := ⟨ids, false⟩

/-- The group binds the name. -/
def binds (g : Binders) (name : String) : Bool :=
  g.ids.any (·.name == name)

end Binders

/-- The innermost of the groups that has the name, counted from the outside. -/
def binder? (name : String) : List Binders → Option Nat
  | [] => none
  | g :: gs =>
    match binder? name gs with
    | some i => some (i + 1)
    | none => if g.binds name then some 0 else none

/-- Groups further inside come first. -/
theorem binder?_append (name : String) (gs hs : List Binders) :
    binder? name (gs ++ hs) = ((binder? name hs).map (gs.length + ·)).or (binder? name gs) := by
  induction gs with
  | nil => simp [binder?]
  | cons g gs ih =>
    rw [List.cons_append, binder?, ih]
    cases binder? name hs with
    | some i => simp [Nat.add_right_comm]
    | none => simp [binder?]

theorem binder?_eq_none {name : String} {gs : List Binders} :
    binder? name gs = none ↔ ∀ g ∈ gs, g.binds name = false := by
  induction gs with
  | nil => simp [binder?]
  | cons g gs ih =>
    rw [binder?, List.forall_mem_cons, ← ih]
    cases binder? name gs <;> simp

namespace Expr

/-- The children, in evaluation order, with what the node binds in them. -/
def scopedChildren : Expr → List (Binders × Expr)
  | .lambda arg body _ => [(.of [arg], body)]
  | .delegate args body _ => [(.of args, body)]
  | .object members _ base =>
    members.map (fun m => (⟨m.args, true⟩, m.body)) ++ base.toList.map (.empty, ·)
  | .decisionTree dispatcher targets =>
    (.empty, dispatcher) :: targets.map fun t => (.of t.bound, t.body)
  | .letIn id value body => [(.empty, value), (.of [id], body)]
  | .letRec bindings body =>
    (bindings.map (·.value) ++ [body]).map (.of (bindings.map (·.ident)), ·)
  | .forLoop id start limit body _ _ =>
    [(.empty, start), (.empty, limit), (.of [id], body)]
  | .tryCatch body handler finalizer _ =>
    (.empty, body) :: ((handler.map fun h => (.of [h.param], h.body)).toList ++
      finalizer.toList.map (.empty, ·))
  | e => e.children.map (.empty, ·)

theorem map_snd_scopedChildren (e : Expr) : e.scopedChildren.map (·.2) = e.children := by
  cases e with
  | tryCatch body handler =>
    cases handler <;> simp [scopedChildren, children, Function.comp_def]
  | _ => simp [scopedChildren, children, Function.comp_def]

/-- What stands at the end of a path from child to child, and the binders around it, outermost
first, with one group for each step of the path. -/
def at? (e : Expr) : List Nat → Option (List Binders × Expr)
  | [] => some ([], e)
  | i :: path =>
    match e.scopedChildren[i]? with
    | none => none
    | some (g, c) => (c.at? path).map fun p => (g :: p.1, p.2)

@[simp] theorem at?_nil (e : Expr) : e.at? [] = some ([], e) :=
  rfl

theorem at?_cons {e c : Expr} {i : Nat} {g : Binders} (h : e.scopedChildren[i]? = some (g, c))
    (path : List Nat) : e.at? (i :: path) = (c.at? path).map fun p => (g :: p.1, p.2) := by
  rw [at?, h]

theorem at?_append {e c : Expr} {path : List Nat} {gs : List Binders}
    (h : e.at? path = some (gs, c)) (rest : List Nat) :
    e.at? (path ++ rest) = (c.at? rest).map fun p => (gs ++ p.1, p.2) := by
  induction path generalizing e gs with
  | nil =>
    cases h
    simp
  | cons i path ih =>
    rw [at?] at h
    split at h
    · cases h
    · rename_i g b hchild
      obtain ⟨⟨gs', _⟩, hpath, heq⟩ := Option.map_eq_some_iff.1 h
      cases heq
      rw [List.cons_append, at?_cons hchild, ih hpath, Option.map_map]
      rfl

/-- At the end of the path is the identifier. The node that binds it is reached after so many steps,
or there is none. -/
def OccursAt (e : Expr) (path : List Nat) (id : Ident) (binder : Option Nat) : Prop :=
  ∃ gs, e.at? path = some (gs, .ident id) ∧ binder? id.name gs = binder

/-- The expression with other children. -/
def mapChildren (f : Expr → Expr) : Expr → Expr
  | .literal value loc => .literal value loc
  | .option value ty loc => .option (value.map f) ty loc
  | .aggregate kind values loc => .aggregate kind (values.map f) loc
  | .ident id => .ident id
  | .cast expr ty => .cast (f expr) ty
  | .imported ref ty loc => .imported ref ty loc
  | .lambda arg body name => .lambda arg (f body) name
  | .delegate args body name => .delegate args (f body) name
  | .object members ty base =>
    .object (members.map fun m => { m with body := f m.body }) ty (base.map f)
  | .call callee receiver args isNew ty loc =>
    .call (f callee) (receiver.map f) (args.map f) isNew ty loc
  | .apply applied args ty loc => .apply (f applied) (args.map f) ty loc
  | .unary op operand ty loc => .unary op (f operand) ty loc
  | .binary op left right ty loc => .binary op (f left) (f right) ty loc
  | .logical op left right ty loc => .logical op (f left) (f right) ty loc
  | .emit template args isStatement ty loc => .emit template (args.map f) isStatement ty loc
  | .get obj access ty loc => .get (f obj) access ty loc
  | .getIndex obj index ty loc => .getIndex (f obj) (f index) ty loc
  | .set target field value loc => .set (f target) field (f value) loc
  | .setIndex target index value loc => .setIndex (f target) (f index) (f value) loc
  | .test expr kind loc => .test (f expr) kind loc
  | .ifThenElse guard thenExpr elseExpr loc =>
    .ifThenElse (f guard) (f thenExpr) (f elseExpr) loc
  | .decisionTree dispatcher targets =>
    .decisionTree (f dispatcher) (targets.map fun t => { t with body := f t.body })
  | .success index values ty => .success index (values.map f) ty
  | .letIn id value body => .letIn id (f value) (f body)
  | .letRec bindings body =>
    .letRec (bindings.map fun b => { b with value := f b.value }) (f body)
  | .sequence exprs => .sequence (exprs.map f)
  | .whileLoop guard body loc => .whileLoop (f guard) (f body) loc
  | .forLoop id start limit body isUp loc =>
    .forLoop id (f start) (f limit) (f body) isUp loc
  | .tryCatch body handler finalizer loc =>
    .tryCatch (f body) (handler.map fun h => { h with body := f h.body }) (finalizer.map f) loc
  | .throw error ty loc => .throw (error.map f) ty loc
  | .debugger loc => .debugger loc
  | .curry expr arity loc => .curry (f expr) arity loc

/-- All of a node but its children. -/
def node (e : Expr) : Expr :=
  e.mapChildren fun _ => default

end Expr

end TypedLowering.Ir
