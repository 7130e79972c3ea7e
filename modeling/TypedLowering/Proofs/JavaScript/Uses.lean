import TypedLowering.Proofs.Control.Frame
import TypedLowering.Proofs.JavaScript.Making

/-!
# Names in lowered JavaScript

What a program says about names (`AllUses`). If the names of the source and those that may still
come up are of a kind, then so are all names in the expression that the source is lowered to
(`expr_keepsUses`): in the reading in which all names are of that kind they are in scope.
-/

namespace TypedLowering.JavaScript

open Lower (Ensures)

mutual

/-- Whether all uses in an expression are of a kind. -/
def Expr.AllUses (P : Use → Prop) : Expr → Prop
  | ⟨_, form⟩ => form.AllUses P

/-- All names in the form of an expression are so. -/
def ExprForm.AllUses (P : Use → Prop) : ExprForm → Prop
  | .ident name => P (.name name)
  | .this | .literal _ => True
  | .array items | .sequence items => AllUsesItems P items
  | .object members => AllUsesMembers P members
  | .unary _ operand | .spread operand | .member operand _ => operand.AllUses P
  | .binary _ left right | .index left right => left.AllUses P ∧ right.AllUses P
  | .conditional test thenExpr elseExpr =>
    test.AllUses P ∧ thenExpr.AllUses P ∧ elseExpr.AllUses P
  | .call callee args | .construct callee args => callee.AllUses P ∧ AllUsesItems P args
  | .function func => func.AllUses P
  | .emit template args => P (.template template) ∧ AllUsesItems P args

/-- All names in expressions are so. -/
def AllUsesItems (P : Use → Prop) : List Expr → Prop
  | [] => True
  | e :: es => e.AllUses P ∧ AllUsesItems P es

/-- All names in the members of an object are so. -/
def AllUsesMembers (P : Use → Prop) : List ObjectMember → Prop
  | [] => True
  | ⟨_, value⟩ :: rest => value.AllUses P ∧ AllUsesMembers P rest

/-- All names in the value of a member are so. -/
def MemberValue.AllUses (P : Use → Prop) : MemberValue → Prop
  | .value value => value.AllUses P
  | .method func | .getter func | .setter func => func.AllUses P

/-- All names in a function, its parameters among them, are so. -/
def Func.AllUses (P : Use → Prop) : Func → Prop
  | ⟨name, _, params, body⟩ =>
    (∀ x ∈ name, P (.name x)) ∧ (∀ p ∈ params, P (.name p.name)) ∧ body.AllUses P

/-- All names in the body of a function are so. -/
def FuncBody.AllUses (P : Use → Prop) : FuncBody → Prop
  | .block stmts => AllUsesStmts P stmts
  | .value value => value.AllUses P

/-- Whether all uses in a statement are of a kind. -/
def Stmt.AllUses (P : Use → Prop) : Stmt → Prop
  | ⟨_, form⟩ => form.AllUses P

/-- All names in the form of a statement are so. -/
def StmtForm.AllUses (P : Use → Prop) : StmtForm → Prop
  | .expr e | .throw e => e.AllUses P
  | .block stmts => AllUsesStmts P stmts
  | .declare ⟨_, declarators⟩ => AllUsesDeclarators P declarators
  | .ifElse test thenStmts elseStmts =>
    test.AllUses P ∧ AllUsesStmts P thenStmts ∧ AllUsesStmts P elseStmts
  | .whileLoop test body => test.AllUses P ∧ AllUsesStmts P body
  | .forLoop start test update body =>
    AllUsesStart P start ∧ AllUsesOption P test ∧ AllUsesOption P update ∧ AllUsesStmts P body
  | .ret value => AllUsesOption P value
  | .breakTo _ | .continueTo _ | .debugger => True
  | .labeled _ body | .exported body => body.AllUses P
  | .tryCatch block handler finalizer =>
    AllUsesStmts P block ∧ AllUsesHandler P handler ∧ AllUsesFinalizer P finalizer
  | .switch subject cases => subject.AllUses P ∧ AllUsesCases P cases
  | .function func => func.AllUses P
  | .classDecl ⟨name, base, members⟩ =>
    P (.name name) ∧ AllUsesOption P base ∧ AllUsesMethods P members

/-- All names in statements are so. -/
def AllUsesStmts (P : Use → Prop) : List Stmt → Prop
  | [] => True
  | s :: ss => s.AllUses P ∧ AllUsesStmts P ss

/-- All names in an expression that may be missing are so. -/
def AllUsesOption (P : Use → Prop) : Option Expr → Prop
  | none => True
  | some e => e.AllUses P

/-- All names in declarators are so. -/
def AllUsesDeclarators (P : Use → Prop) : List Declarator → Prop
  | [] => True
  | ⟨name, value⟩ :: rest => P (.name name) ∧ AllUsesOption P value ∧ AllUsesDeclarators P rest

/-- All names in the head of a loop are so. -/
def AllUsesStart (P : Use → Prop) : Option VarDecl → Prop
  | none => True
  | some ⟨_, declarators⟩ => AllUsesDeclarators P declarators

/-- All names in a handler, its parameter among them, are so. -/
def AllUsesHandler (P : Use → Prop) : Option CatchClause → Prop
  | none => True
  | some ⟨param, body⟩ => (∀ x ∈ param, P (.name x)) ∧ AllUsesStmts P body

/-- All names in a finalizer are so. -/
def AllUsesFinalizer (P : Use → Prop) : Option (List Stmt) → Prop
  | none => True
  | some stmts => AllUsesStmts P stmts

/-- All names in the cases of a switch are so. -/
def AllUsesCases (P : Use → Prop) : List SwitchCase → Prop
  | [] => True
  | ⟨test, body⟩ :: rest => AllUsesOption P test ∧ AllUsesStmts P body ∧ AllUsesCases P rest

/-- All names in the members of a class are so. -/
def AllUsesMethods (P : Use → Prop) : List ClassMember → Prop
  | [] => True
  | ⟨_, _, _, func⟩ :: rest => func.AllUses P ∧ AllUsesMethods P rest

end

/-- Variables and assignments of JavaScript, and what code says about names. -/
def language : Control.Language StmtForm Expr where
  IsVariable x e := e.form = .ident x
  Assigns x e code := code = .expr (.assign (.ident x) e)
  ExprUses := Expr.AllUses
  CodeUses := StmtForm.AllUses

variable {P : Use → Prop} {scope : Scope}

/-- What is in scope is of the kind, if all names are read as such. -/
theorem of_sees {x : String} (h : scope.Sees (.ofKind P) x) : P (.name x) := by
  rcases h with h | h | ⟨h, -⟩ | ⟨h, -⟩ <;> exact h

mutual

/-- If all names are of a kind, wherever they are in scope, then so are all uses. -/
theorem Expr.Scoped.allUses {scope : Scope} :
    {e : Expr} → e.Scoped (.ofKind P) scope → e.AllUses P
  | ⟨_, _⟩, h => ExprForm.Scoped.allUses h

/-- In scope, the form of an expression only uses names of the kind. -/
theorem ExprForm.Scoped.allUses {scope : Scope} :
    {form : ExprForm} → form.Scoped (.ofKind P) scope → form.AllUses P
  | .ident _, h => of_sees h
  | .this, _ | .literal _, _ => trivial
  | .array _, h | .sequence _, h => ScopedItems.allUses h
  | .object _, h => ScopedMembers.allUses h
  | .unary _ _, h | .spread _, h | .member _ _, h => Expr.Scoped.allUses h
  | .binary _ _ _, h | .index _ _, h => ⟨Expr.Scoped.allUses h.1, Expr.Scoped.allUses h.2⟩
  | .conditional _ _ _, h =>
    ⟨Expr.Scoped.allUses h.1, Expr.Scoped.allUses h.2.1, Expr.Scoped.allUses h.2.2⟩
  | .call _ _, h | .construct _ _, h => ⟨Expr.Scoped.allUses h.1, ScopedItems.allUses h.2⟩
  | .function _, h => Func.Scoped.allUses h
  | .emit _ _, h => ⟨h.1, ScopedItems.allUses h.2⟩

/-- In scope, expressions only use names of the kind. -/
theorem ScopedItems.allUses {scope : Scope} :
    {es : List Expr} → ScopedItems (.ofKind P) scope es → AllUsesItems P es
  | [], _ => trivial
  | _ :: _, h => ⟨Expr.Scoped.allUses h.1, ScopedItems.allUses h.2⟩

/-- In scope, the members of an object only use names of the kind. -/
theorem ScopedMembers.allUses {scope : Scope} :
    {ms : List ObjectMember} → ScopedMembers (.ofKind P) scope ms → AllUsesMembers P ms
  | [], _ => trivial
  | ⟨_, _⟩ :: _, h => ⟨MemberValue.Scoped.allUses h.1, ScopedMembers.allUses h.2⟩

/-- In scope, the value of a member only uses names of the kind. -/
theorem MemberValue.Scoped.allUses {scope : Scope} :
    {value : MemberValue} → value.Scoped (.ofKind P) scope → value.AllUses P
  | .value _, h => Expr.Scoped.allUses h
  | .method _, h | .getter _, h | .setter _, h => Func.Scoped.allUses h

/-- In scope, a function only uses names of the kind. -/
theorem Func.Scoped.allUses : {func : Func} → func.Scoped (.ofKind P) → func.AllUses P
  | ⟨_, _, _, _⟩, h => ⟨h.1, fun p hp => (h.2.1 p hp).elim id id, FuncBody.Scoped.allUses h.2.2⟩

/-- In scope, the body of a function only uses names of the kind. -/
theorem FuncBody.Scoped.allUses {scope : Scope} :
    {body : FuncBody} → body.Scoped (.ofKind P) scope → body.AllUses P
  | .block _, h => ScopedStmts.allUses h
  | .value _, h => Expr.Scoped.allUses h

/-- In scope, a statement only uses names of the kind. -/
theorem Stmt.Scoped.allUses {scope : Scope} :
    {s : Stmt} → s.Scoped (.ofKind P) scope → s.AllUses P
  | ⟨_, _⟩, h => StmtForm.Scoped.allUses h

/-- In scope, the form of a statement only uses names of the kind. -/
theorem StmtForm.Scoped.allUses {scope : Scope} :
    {form : StmtForm} → form.Scoped (.ofKind P) scope → form.AllUses P
  | .expr _, h | .throw _, h => Expr.Scoped.allUses h
  | .block _, h => ScopedStmts.allUses h
  | .declare ⟨_, _⟩, h => ScopedDeclarators.allUses h
  | .ifElse _ _ _, h =>
    ⟨Expr.Scoped.allUses h.1, ScopedStmts.allUses h.2.1, ScopedStmts.allUses h.2.2⟩
  | .whileLoop _ _, h => ⟨Expr.Scoped.allUses h.1, ScopedStmts.allUses h.2⟩
  | .forLoop _ _ _ _, h => ⟨ScopedStart.allUses h.1, ScopedOption.allUses h.2.1,
    ScopedOption.allUses h.2.2.1, ScopedStmts.allUses h.2.2.2⟩
  | .ret _, h => ScopedOption.allUses h
  | .breakTo _, _ | .continueTo _, _ | .debugger, _ => trivial
  | .labeled _ _, h | .exported _, h => Stmt.Scoped.allUses h
  | .tryCatch _ _ _, h =>
    ⟨ScopedStmts.allUses h.1, ScopedHandler.allUses h.2.1, ScopedFinalizer.allUses h.2.2⟩
  | .switch _ _, h => ⟨Expr.Scoped.allUses h.1, ScopedCases.allUses h.2⟩
  | .function _, h => Func.Scoped.allUses h
  | .classDecl ⟨_, _, _⟩, h => ⟨h.1, ScopedOption.allUses h.2.1, ScopedMethods.allUses h.2.2⟩

/-- In scope, statements only use names of the kind. -/
theorem ScopedStmts.allUses {scope : Scope} :
    {ss : List Stmt} → ScopedStmts (.ofKind P) scope ss → AllUsesStmts P ss
  | [], _ => trivial
  | _ :: _, h => ⟨Stmt.Scoped.allUses h.1, ScopedStmts.allUses h.2⟩

/-- In scope, an expression that may be missing only uses names of the kind. -/
theorem ScopedOption.allUses {scope : Scope} :
    {o : Option Expr} → ScopedOption (.ofKind P) scope o → AllUsesOption P o
  | none, _ => trivial
  | some _, h => Expr.Scoped.allUses h

/-- In scope, declarators only use names of the kind. -/
theorem ScopedDeclarators.allUses {scope : Scope} :
    {ds : List Declarator} → ScopedDeclarators (.ofKind P) scope ds → AllUsesDeclarators P ds
  | [], _ => trivial
  | ⟨_, _⟩ :: _, h =>
    ⟨h.1.elim id id, ScopedOption.allUses h.2.1, ScopedDeclarators.allUses h.2.2⟩

/-- In scope, the head of a loop only uses names of the kind. -/
theorem ScopedStart.allUses {scope : Scope} :
    {o : Option VarDecl} → ScopedStart (.ofKind P) scope o → AllUsesStart P o
  | none, _ => trivial
  | some ⟨_, _⟩, h => ScopedDeclarators.allUses h

/-- In scope, a handler only uses names of the kind. -/
theorem ScopedHandler.allUses {scope : Scope} :
    {o : Option CatchClause} → ScopedHandler (.ofKind P) scope o → AllUsesHandler P o
  | none, _ => trivial
  | some ⟨_, _⟩, h => ⟨h.1, ScopedStmts.allUses h.2⟩

/-- In scope, a finalizer only uses names of the kind. -/
theorem ScopedFinalizer.allUses {scope : Scope} :
    {o : Option (List Stmt)} → ScopedFinalizer (.ofKind P) scope o → AllUsesFinalizer P o
  | none, _ => trivial
  | some _, h => ScopedStmts.allUses h

/-- In scope, the cases of a switch only use names of the kind. -/
theorem ScopedCases.allUses {scope : Scope} :
    {cs : List SwitchCase} → ScopedCases (.ofKind P) scope cs → AllUsesCases P cs
  | [], _ => trivial
  | ⟨_, _⟩ :: _, h =>
    ⟨ScopedOption.allUses h.1, ScopedStmts.allUses h.2.1, ScopedCases.allUses h.2.2⟩

/-- In scope, the members of a class only use names of the kind. -/
theorem ScopedMethods.allUses :
    {ms : List ClassMember} → ScopedMethods (.ofKind P) ms → AllUsesMethods P ms
  | [], _ => trivial
  | ⟨_, _, _, _⟩ :: _, h => ⟨Func.Scoped.allUses h.1, ScopedMethods.allUses h.2⟩

end

/-- What is lowered from names of a kind mentions names of that kind only. -/
theorem expr_keepsUses (n : Nat) {ctx : Context} {e : Ir.Expr} (hctx : Sourced P ctx)
    (he : e.AllUses P) : Ensures P ((rules n).expr ctx e) (Expr.AllUses P) := by
  intro s code t hs h
  obtain ⟨ht, hcode⟩ := ((rules_keepScope n).expr ctx e).ensures P s code t hs h
  exact ⟨ht, (hcode hctx.withoutTailCall he .outermost).allUses⟩

end TypedLowering.JavaScript
