import TypedLowering.JavaScript.Lower.Statement
import TypedLowering.Proofs.Lowering.Making

/-!
# Names in scope

Where the names of a program may occur (`Scoped`), under a reading that tells what they stand for.
Names of the source and imports may occur anywhere. A slot only occurs in a function that has it as
a parameter, and not in the functions inside. A temporary only occurs after its declaration, in the
same block or in blocks inside, and in the same function.
-/

namespace TypedLowering.JavaScript

/-- What is in scope at a place in a function: its parameters, and what the blocks around have
declared before. -/
structure Scope where
  params : List String
  declared : List String

namespace Scope

/-- The scope of code that is in no function. -/
def outermost : Scope := ⟨[], []⟩

/-- The scope at the start of a function body. -/
def ofParams (params : List Param) : Scope := ⟨params.map (·.name), []⟩

end Scope

/-- The variables that a statement declares in its block. -/
def Stmt.declares : Stmt → List String
  | ⟨_, .declare decl⟩ => decl.declarators.map (·.name)
  | _ => []

/-- The scope after statements of a block. -/
def Scope.after (scope : Scope) (stmts : List Stmt) : Scope :=
  { scope with declared := scope.declared ++ stmts.flatMap Stmt.declares }

/-- The scope after two parts of a block is the one after the second. -/
theorem Scope.after_append (scope : Scope) (as bs : List Stmt) :
    scope.after (as ++ bs) = (scope.after as).after bs := by
  simp only [after, List.flatMap_append, List.append_assoc]

/-- What is declared stays so after more statements. -/
theorem Scope.mem_after {scope : Scope} {x : String} (h : x ∈ scope.declared) (stmts : List Stmt) :
    x ∈ (scope.after stmts).declared :=
  List.mem_append_left _ h

/-- After its declaration a name is declared. -/
theorem Scope.mem_after_declare (scope : Scope) (mode : DeclMode) (x : String)
    (value : Option Expr) : x ∈ (scope.after [.declare mode x value]).declared :=
  List.mem_append_right _ List.mem_cons_self

/-- Whether a name may occur at a place with that scope. -/
def Scope.Sees (scope : Scope) (N : Naming) (x : String) : Prop :=
  N.source (.name x) ∨ N.imported x ∨ (N.slot x ∧ x ∈ scope.params) ∨
    (N.temporary x ∧ x ∈ scope.declared)

/-- Whether a parameter of a function may be called like this. -/
def Param.Fits (N : Naming) (p : Param) : Prop :=
  N.source (.name p.name) ∨ N.slot p.name

mutual

/-- Whether all names in an expression are in scope. -/
def Expr.Scoped (N : Naming) (scope : Scope) : Expr → Prop
  | ⟨_, form⟩ => form.Scoped N scope

/-- All names in the form of an expression are in scope. -/
def ExprForm.Scoped (N : Naming) (scope : Scope) : ExprForm → Prop
  | .ident name => scope.Sees N name
  | .this | .literal _ => True
  | .array items | .sequence items => ScopedItems N scope items
  | .object members => ScopedMembers N scope members
  | .unary _ operand | .spread operand | .member operand _ => operand.Scoped N scope
  | .binary _ left right | .index left right => left.Scoped N scope ∧ right.Scoped N scope
  | .conditional test thenExpr elseExpr =>
    test.Scoped N scope ∧ thenExpr.Scoped N scope ∧ elseExpr.Scoped N scope
  | .call callee args | .construct callee args => callee.Scoped N scope ∧ ScopedItems N scope args
  | .function func => func.Scoped N
  | .emit template args => N.source (.template template) ∧ ScopedItems N scope args

/-- All names in expressions are in scope. -/
def ScopedItems (N : Naming) (scope : Scope) : List Expr → Prop
  | [] => True
  | e :: es => e.Scoped N scope ∧ ScopedItems N scope es

/-- All names in the members of an object are in scope. -/
def ScopedMembers (N : Naming) (scope : Scope) : List ObjectMember → Prop
  | [] => True
  | ⟨_, value⟩ :: rest => value.Scoped N scope ∧ ScopedMembers N scope rest

/-- All names in the value of a member are in scope. -/
def MemberValue.Scoped (N : Naming) (scope : Scope) : MemberValue → Prop
  | .value value => value.Scoped N scope
  | .method func | .getter func | .setter func => func.Scoped N

/-- Whether all names in a function are in scope. The scope around it does not matter. -/
def Func.Scoped (N : Naming) : Func → Prop
  | ⟨name, _, params, body⟩ =>
    (∀ x ∈ name, N.source (.name x)) ∧ (∀ p ∈ params, p.Fits N) ∧ body.Scoped N (.ofParams params)

/-- All names in the body of a function are in scope. -/
def FuncBody.Scoped (N : Naming) (scope : Scope) : FuncBody → Prop
  | .block stmts => ScopedStmts N scope stmts
  | .value value => value.Scoped N scope

/-- Whether all names in a statement are in scope. -/
def Stmt.Scoped (N : Naming) (scope : Scope) : Stmt → Prop
  | ⟨_, form⟩ => form.Scoped N scope

/-- All names in the form of a statement are in scope. -/
def StmtForm.Scoped (N : Naming) (scope : Scope) : StmtForm → Prop
  | .expr e | .throw e => e.Scoped N scope
  | .block stmts => ScopedStmts N scope stmts
  | .declare ⟨_, declarators⟩ => ScopedDeclarators N scope declarators
  | .ifElse test thenStmts elseStmts =>
    test.Scoped N scope ∧ ScopedStmts N scope thenStmts ∧ ScopedStmts N scope elseStmts
  | .whileLoop test body => test.Scoped N scope ∧ ScopedStmts N scope body
  | .forLoop start test update body =>
    ScopedStart N scope start ∧ ScopedOption N scope test ∧ ScopedOption N scope update ∧
      ScopedStmts N scope body
  | .ret value => ScopedOption N scope value
  | .breakTo _ | .continueTo _ | .debugger => True
  | .labeled _ body | .exported body => body.Scoped N scope
  | .tryCatch block handler finalizer =>
    ScopedStmts N scope block ∧ ScopedHandler N scope handler ∧ ScopedFinalizer N scope finalizer
  | .switch subject cases => subject.Scoped N scope ∧ ScopedCases N scope cases
  | .function func => func.Scoped N
  | .classDecl ⟨name, base, members⟩ =>
    N.source (.name name) ∧ ScopedOption N scope base ∧ ScopedMethods N members

/-- Whether all names in the statements of a block are in scope. -/
def ScopedStmts (N : Naming) (scope : Scope) : List Stmt → Prop
  | [] => True
  | s :: ss => s.Scoped N scope ∧ ScopedStmts N (scope.after [s]) ss

/-- All names in an expression that may be missing are in scope. -/
def ScopedOption (N : Naming) (scope : Scope) : Option Expr → Prop
  | none => True
  | some e => e.Scoped N scope

/-- All names in declarators are in scope. -/
def ScopedDeclarators (N : Naming) (scope : Scope) : List Declarator → Prop
  | [] => True
  | ⟨name, value⟩ :: rest =>
    (N.source (.name name) ∨ N.temporary name) ∧ ScopedOption N scope value ∧
      ScopedDeclarators N scope rest

/-- All names in the head of a loop are in scope. -/
def ScopedStart (N : Naming) (scope : Scope) : Option VarDecl → Prop
  | none => True
  | some ⟨_, declarators⟩ => ScopedDeclarators N scope declarators

/-- All names in a handler are in scope. -/
def ScopedHandler (N : Naming) (scope : Scope) : Option CatchClause → Prop
  | none => True
  | some ⟨param, body⟩ => (∀ x ∈ param, N.source (.name x)) ∧ ScopedStmts N scope body

/-- All names in a finalizer are in scope. -/
def ScopedFinalizer (N : Naming) (scope : Scope) : Option (List Stmt) → Prop
  | none => True
  | some stmts => ScopedStmts N scope stmts

/-- All names in the cases of a switch are in scope. -/
def ScopedCases (N : Naming) (scope : Scope) : List SwitchCase → Prop
  | [] => True
  | ⟨test, body⟩ :: rest =>
    ScopedOption N scope test ∧ ScopedStmts N scope body ∧ ScopedCases N scope rest

/-- All names in the members of a class are in scope. -/
def ScopedMethods (N : Naming) : List ClassMember → Prop
  | [] => True
  | ⟨_, _, _, func⟩ :: rest => func.Scoped N ∧ ScopedMethods N rest

end

variable {N : Naming} {scope : Scope}

/-- In two parts of a block, the second has the scope after the first. -/
theorem scopedStmts_append {as bs : List Stmt} : ScopedStmts N scope (as ++ bs) ↔
    ScopedStmts N scope as ∧ ScopedStmts N (scope.after as) bs := by
  induction as generalizing scope with
  | nil =>
    have hnil : scope.after [] = scope := by simp [Scope.after]
    rw [List.nil_append, hnil]
    exact ⟨fun h => ⟨trivial, h⟩, And.right⟩
  | cons a as ih =>
    have hcons : scope.after (a :: as) = (scope.after [a]).after as := scope.after_append [a] as
    rw [List.cons_append, ScopedStmts, ih, ScopedStmts, and_assoc, hcons]

/-- A location does not add names. -/
theorem scoped_withLoc {e : Expr} (h : e.Scoped N scope) (loc : Option Ir.Location) :
    (e.withLoc loc).Scoped N scope := by
  obtain ⟨_, form⟩ := e
  rw [Expr.withLoc]
  split <;> exact h

/-- An exported statement has the same names. -/
theorem scoped_exportIf {s : Stmt} (h : s.Scoped N scope) (isPublic : Bool) :
    (Stmt.exportIf isPublic s).Scoped N scope := by
  cases isPublic <;> exact h

/-! ## What a strategy writes to -/

/-- Whether what a strategy writes to is in scope. A place is an expression of its own. -/
def PlaceScoped (N : Naming) (scope : Scope) : Strategy Expr → Prop
  | .ret | .effect => True
  | .assign place => ∀ scope, place.Scoped N scope
  | .join name => N.temporary name ∧ name ∈ scope.declared

/-- The place of the value of a function has no names. -/
theorem placeScoped_ofType (isUnit : Bool) : PlaceScoped N scope (.ofType isUnit) := by
  cases isUnit <;> trivial

/-- A value is put in its place by statements with names in scope. -/
theorem scoped_deliver {strategy : Strategy Expr} {value : Expr}
    (hstrategy : PlaceScoped N scope strategy) (hvalue : value.Scoped N scope) :
    ScopedStmts N scope (deliver strategy value) := by
  cases strategy with
  | ret | effect => exact ⟨hvalue, trivial⟩
  | assign => exact ⟨⟨hstrategy scope, hvalue⟩, trivial⟩
  | join => exact ⟨⟨.inr (.inr (.inr hstrategy)), hvalue⟩, trivial⟩

/-- The end of a node without a value has no names. -/
theorem scoped_deliverUnit (strategy : Strategy Expr) :
    ScopedStmts N scope (deliverUnit strategy) := by
  cases strategy with
  | ret => exact ⟨trivial, trivial⟩
  | effect | assign | join => exact trivial

/-- A comma expression has its names in scope if its items do. -/
theorem scoped_sequenceOf {items : List Expr} (h : ScopedItems N scope items) :
    (sequenceOf items).Scoped N scope := by
  rcases items with _ | ⟨item, _ | _⟩
  · exact trivial
  · exact h.1
  · exact h

/-- What is read from an object has its names in scope if the object does. -/
theorem scoped_access {obj : Expr} (h : obj.Scoped N scope) (kind : Ir.Access) :
    (Parts.access obj kind).Scoped N scope := by
  cases kind with
  | field | unionTag | optionValue => exact h
  | tupleItem | unionField => exact ⟨h, trivial⟩

/-- What code may write to at a place: the slots of the loop around it, if the loop is used, and
what its strategy says. -/
structure Reaches (N : Naming) (looped : Bool) (ctx : Context) (strategy : Strategy Expr)
    (scope : Scope) : Prop where
  slots : looped = true → ∀ loop, ctx.tailCall = some loop →
    ∀ slot ∈ loop.slots, N.slot slot ∧ slot ∈ scope.params
  place : PlaceScoped N scope strategy

namespace Reaches

variable {looped : Bool} {ctx : Context} {strategy : Strategy Expr}

/-- Without a loop around, the place is all that has to be in scope. -/
theorem plain (h : PlaceScoped N scope strategy) :
    Reaches N looped ctx.withoutTailCall strategy scope :=
  ⟨fun _ => nofun, h⟩

/-- What is in scope stays so after statements. -/
theorem after (h : Reaches N looped ctx strategy scope) (stmts : List Stmt) :
    Reaches N looped ctx strategy (scope.after stmts) := by
  refine ⟨h.slots, ?_⟩
  cases strategy with
  | ret | effect => trivial
  | assign => exact h.place
  | join => exact ⟨h.place.1, Scope.mem_after h.place.2 stmts⟩

end Reaches

end TypedLowering.JavaScript
