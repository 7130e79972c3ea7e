import TypedLowering.Proofs.Control.Frame
import TypedLowering.Proofs.Dart.Control
import TypedLowering.Proofs.Lowering.Uses

/-!
# Names in lowered Dart

What code says about names (`AllUses`). If the names of the source and those that may still come up
are of a kind, then so are all names that the source is lowered to (`rules_keepUses`). There is one
lemma for each rule, about the rule with parts that keep the kind.
-/

namespace TypedLowering.Dart

open Lower (Ensures)

/-- An identifier of an imported library mentions the prefix of the library, another one its own
name. -/
def Ident.Refers (P : Use → Prop) (id : Ident) : Prop :=
  P (.name (id.importPrefix.getD id.name))

mutual

/-- Whether all uses in an expression are of a kind. -/
def Expr.AllUses (P : Use → Prop) : Expr → Prop
  | .literal _ | .this => True
  | .list values _ => AllUsesItems P values
  | .ident id => id.Refers P
  | .unary _ operand | .property operand _ | .typeTest operand _ | .cast operand _
  | .nullCheck operand => operand.AllUses P
  | .binary _ left right | .logical _ left right | .index left right =>
    left.AllUses P ∧ right.AllUses P
  | .conditional test thenExpr elseExpr =>
    test.AllUses P ∧ thenExpr.AllUses P ∧ elseExpr.AllUses P
  | .call callee args named => callee.AllUses P ∧ AllUsesItems P args ∧ AllUsesNamed P named
  | .function args body _ => (∀ id ∈ args, Binds P id.name) ∧ AllUsesStmts P body
  | .emit template args => P (.template template) ∧ AllUsesItems P args

/-- All names in the expressions of a list are so. -/
def AllUsesItems (P : Use → Prop) : List Expr → Prop
  | [] => True
  | e :: es => e.AllUses P ∧ AllUsesItems P es

/-- All names in named arguments are so. -/
def AllUsesNamed (P : Use → Prop) : List NamedArg → Prop
  | [] => True
  | ⟨_, value⟩ :: rest => value.AllUses P ∧ AllUsesNamed P rest

/-- Whether all uses in a statement are of a kind. -/
def Stmt.AllUses (P : Use → Prop) : Stmt → Prop
  | .expr e | .throw e => e.AllUses P
  | .ret value => AllUsesOption P value
  | .declare id _ value => Binds P id.name ∧ AllUsesOption P value
  | .assign target value => target.AllUses P ∧ value.AllUses P
  | .ifElse guard thenBody elseBody =>
    guard.AllUses P ∧ AllUsesStmts P thenBody ∧ AllUsesStmts P elseBody
  | .whileLoop guard body => guard.AllUses P ∧ AllUsesStmts P body
  | .forLoop id start limit _ body =>
    Binds P id.name ∧ start.AllUses P ∧ limit.AllUses P ∧ AllUsesStmts P body
  | .switch value cases default =>
    value.AllUses P ∧ AllUsesCases P cases ∧ AllUsesFinalizer P default
  | .tryCatch body handler finalizer =>
    AllUsesStmts P body ∧ AllUsesHandler P handler ∧ AllUsesFinalizer P finalizer
  | .rethrow | .breakTo _ | .continueTo _ => True
  | .labeled _ body => body.AllUses P
  | .function func => func.AllUses P

/-- All names in statements are so. -/
def AllUsesStmts (P : Use → Prop) : List Stmt → Prop
  | [] => True
  | s :: ss => s.AllUses P ∧ AllUsesStmts P ss

/-- All names in an expression that may be missing are so. -/
def AllUsesOption (P : Use → Prop) : Option Expr → Prop
  | none => True
  | some e => e.AllUses P

/-- The parameter of a handler and all names in its body are so. -/
def AllUsesHandler (P : Use → Prop) : Option CatchClause → Prop
  | none => True
  | some ⟨param, body⟩ => Binds P param.name ∧ AllUsesStmts P body

/-- A finalizer or a default case. -/
def AllUsesFinalizer (P : Use → Prop) : Option (List Stmt) → Prop
  | none => True
  | some stmts => AllUsesStmts P stmts

/-- All names in the guards and bodies of cases are so. -/
def AllUsesCases (P : Use → Prop) : List SwitchCase → Prop
  | [] => True
  | ⟨guards, body⟩ :: rest => AllUsesItems P guards ∧ AllUsesStmts P body ∧ AllUsesCases P rest

/-- The name and the parameters of a function and all names in its body are so. -/
def Func.AllUses (P : Use → Prop) : Func → Prop
  | ⟨name, args, body, _, _⟩ =>
    Binds P name ∧ (∀ id ∈ args, Binds P id.name) ∧ AllUsesStmts P body

end

/-- Variables and assignments of Dart, and what code says about names. -/
def language : Control.Language Stmt Expr where
  IsVariable x e := ∃ ty, e = .ident (.own x ty)
  Assigns x e code := ∃ ty, code = .assign (.ident (.own x ty)) e
  ExprUses := Expr.AllUses
  CodeUses := Stmt.AllUses

/-- Whether all uses in an expression and in the statements before it are of a kind. -/
structure Hoisted.AllUses {α : Type} (P : Use → Prop) (ofValue : α → Prop) (v : Hoisted α) :
    Prop where
  before : AllUsesStmts P v.before
  value : ofValue v.value

variable {P : Use → Prop}

/-- Statements in two parts are of the kind if both parts are. -/
@[simp] theorem allUsesStmts_append {as bs : List Stmt} :
    AllUsesStmts P (as ++ bs) ↔ AllUsesStmts P as ∧ AllUsesStmts P bs := by
  induction as with
  | nil => exact ⟨fun h => ⟨trivial, h⟩, And.right⟩
  | cons a as ih => rw [List.cons_append, AllUsesStmts, ih, AllUsesStmts, and_assoc]

/-- Expressions are of the kind if each of them is. -/
theorem allUsesItems_iff {es : List Expr} : AllUsesItems P es ↔ ∀ e ∈ es, e.AllUses P := by
  induction es with
  | nil => exact ⟨fun _ => nofun, fun _ => trivial⟩
  | cons e es ih => rw [AllUsesItems, ih, List.forall_mem_cons]

/-- Named arguments are of the kind if the value of each is. -/
theorem allUsesNamed_iff {args : List NamedArg} :
    AllUsesNamed P args ↔ ∀ arg ∈ args, arg.value.AllUses P := by
  induction args with
  | nil => exact ⟨fun _ => nofun, fun _ => trivial⟩
  | cons arg args ih =>
    obtain ⟨_, _⟩ := arg
    rw [AllUsesNamed, ih, List.forall_mem_cons]

/-- A value is put in its place by code of the kind. -/
theorem allUses_deliver {strategy : Strategy Expr} {value : Expr}
    (hstrategy : strategy.AllUses P (Expr.AllUses P)) (hvalue : value.AllUses P) :
    AllUsesStmts P (deliver strategy value) := by
  cases strategy with
  | ret => exact ⟨hvalue, trivial⟩
  | assign | join => exact ⟨⟨hstrategy, hvalue⟩, trivial⟩
  | effect =>
    rw [deliver]
    split
    · exact trivial
    · exact ⟨hvalue, trivial⟩

/-- The end of a node without a value has no names. -/
theorem allUses_deliverUnit (strategy : Strategy Expr) :
    AllUsesStmts P (deliverUnit strategy) := by
  cases strategy with
  | ret => exact ⟨trivial, trivial⟩
  | effect | assign | join => exact trivial

/-- The end of a branch has names of the kind. -/
theorem allUses_branchEnd {target : Option Ident} {value : Expr}
    (htarget : ∀ id ∈ target, id.Refers P) (hvalue : value.AllUses P) :
    AllUsesStmts P (branchEnd target value) := by
  cases target with
  | some id => exact ⟨⟨htarget id rfl, hvalue⟩, trivial⟩
  | none =>
    rw [branchEnd]
    split
    · exact trivial
    · exact ⟨hvalue, trivial⟩

/-! ## Types and names -/

/-- Lowering a type only grows the state, so the names that may come up stay of the kind. -/
theorem lowerType_ensures (file : SourceFile) (ty : Ir.Ty) :
    Ensures P (lowerType file ty) fun _ => True :=
  .of_grows (below_lowerType file ty)

/-- The class of a tuple comes from an imported library. -/
theorem lowerType_tuple_ensures (file : SourceFile) (items : List Ir.Ty) :
    Ensures P (lowerType file (.tuple items)) fun ty =>
      ∃ library name generics, ty = .named (some library) name generics ∧ P (.name library) := by
  unfold lowerType
  exact .ite (fun _ => .fail _) fun _ => .bind (.of_grows (below_lowerTypes file items))
    fun _ _ => .bind (.importWhole _) fun _ hlibrary => .pure ⟨_, _, _, rfl, hlibrary⟩

/-- An identifier keeps its name and gets a type. -/
theorem lowerIdent_ensures (file : SourceFile) (id : Ir.Ident) :
    Ensures P (lowerIdent file id) fun place => ∃ ty, place = .own id.name ty :=
  .bind (lowerType_ensures file id.ty) fun ty _ => .pure ⟨ty, rfl⟩

/-- Identifiers keep their names, so these are of the kind. -/
theorem lowerIdents_ensures {file : SourceFile} {ids : List Ir.Ident}
    (h : ∀ id ∈ ids, Binds P id.name) :
    Ensures P (lowerIdents file ids) fun places => ∀ id ∈ places, Binds P id.name := by
  induction ids with
  | nil => exact .pure nofun
  | cons id ids ih =>
    obtain ⟨hid, hids⟩ := List.forall_mem_cons.1 h
    refine .bind (lowerIdent_ensures file id) fun _ hplace => .bind (ih hids) fun _ hrest =>
      .pure (List.forall_mem_cons.2 ⟨?_, hrest⟩)
    obtain ⟨ty, rfl⟩ := hplace
    exact hid

/-- A new local is bound, and it is no name of another library. -/
theorem freshLocal_ensures (file : SourceFile) (candidate : String) (ty : Ir.Ty) :
    Ensures P (freshLocal file candidate ty) fun id => id.Refers P ∧ Binds P id.name :=
  .bind (.allocateLocal candidate) fun _ hname => .bind (lowerType_ensures file ty) fun _ _ =>
    .pure ⟨hname.1, hname⟩

/-- Operands that are saved in locals are of the kind, as the names of new locals are. -/
theorem saveOperands_ensures {file : SourceFile} {operands : List (Expr × Ir.Ty)}
    (h : ∀ d ∈ operands, d.1.AllUses P) :
    Ensures P (saveOperands file operands)
      (Hoisted.AllUses P fun saved => ∀ d ∈ saved, d.1.AllUses P) := by
  induction operands with
  | nil => exact .pure ⟨trivial, nofun⟩
  | cons d operands ih =>
    obtain ⟨hd, hrest⟩ := List.forall_mem_cons.1 h
    refine .ite (fun _ => .bind (ih hrest) fun _ hsaved => ?_) fun _ =>
      .bind (freshLocal_ensures _ _ _) fun _ hid => .bind (ih hrest) fun _ hsaved => ?_
    · exact .pure ⟨hsaved.before, List.forall_mem_cons.2 ⟨hd, hsaved.value⟩⟩
    · exact .pure ⟨⟨⟨hid.2, hd⟩, hsaved.before⟩, List.forall_mem_cons.2 ⟨hid.1, hsaved.value⟩⟩

/-- The slots as parameters, and the copies of the slots. -/
theorem loopParams_ensures {file : SourceFile} {slots : List (Ir.Ident × String)}
    (h : ∀ b ∈ slots, Binds P b.1.name ∧ Binds P b.2) :
    Ensures P (Parts.loopParams file slots) fun l =>
      (∀ id ∈ l.1, Binds P id.name) ∧ AllUsesStmts P l.2 := by
  induction slots with
  | nil => exact .pure ⟨nofun, trivial⟩
  | cons b slots ih =>
    obtain ⟨hb, hslots⟩ := List.forall_mem_cons.1 h
    exact .bind (lowerType_ensures file b.1.ty) fun _ _ => .bind (ih hslots) fun ⟨_, _⟩ hrest =>
      .pure ⟨List.forall_mem_cons.2 ⟨hb.2, hrest.1⟩, ⟨hb.1, hb.2.1⟩, hrest.2⟩

/-- Writes to slots of the kind are of the kind. -/
theorem slotWrites_ensures {file : SourceFile} {slots : List (Ir.Ident × String)}
    {values : List Expr} (hslots : ∀ b ∈ slots, P (.name b.2))
    (hvalues : ∀ e ∈ values, e.AllUses P) :
    Ensures P (Parts.slotWrites file slots values) (AllUsesStmts P) := by
  induction slots generalizing values with
  | nil => exact .pure trivial
  | cons b slots ih =>
    cases values with
    | nil => exact .pure trivial
    | cons value values =>
      obtain ⟨hb, hslots⟩ := List.forall_mem_cons.1 hslots
      obtain ⟨hvalue, hvalues⟩ := List.forall_mem_cons.1 hvalues
      refine .ite (fun _ => ih hslots hvalues) fun _ => ?_
      exact .bind (lowerType_ensures file b.1.ty) fun _ _ => .bind (ih hslots hvalues)
        fun _ hrest => .pure ⟨⟨hb, hvalue⟩, hrest⟩

/-! ## Values -/

/-- In a constant, all names are of the kind: only built-in ones occur. -/
theorem literalValue_allUses (h : ∀ x ∈ builtins, P (.name x)) (value : Ir.Literal) :
    (literalValue value).AllUses P := by
  have hflags : ∀ flags : List Char, AllUsesNamed P (flags.filterMap flagArg?) := by
    refine fun flags => allUsesNamed_iff.2 fun arg harg => ?_
    obtain ⟨flag, -, hflag⟩ := List.mem_filterMap.1 harg
    revert hflag
    unfold flagArg?
    split <;> rintro ⟨⟩ <;> exact trivial
  cases value with
  | this | null | unit | bool | char | string => exact trivial
  | number value kind =>
    rw [literalValue]
    split <;> exact trivial
  | regex source flags =>
    exact ⟨h "RegExp" (by simp [builtins]), ⟨trivial, trivial⟩, hflags _⟩

/-- In a binary operation, all names are of the kind if they are in the parts. -/
theorem binaryValue_ensures {file : SourceFile} {left right : Expr} (op : Ir.BinaryOp)
    (ty : Ir.Ty) (hleft : left.AllUses P) (hright : right.AllUses P) :
    Ensures P (binaryValue file op left right ty) (Expr.AllUses P) := by
  cases op with
  | exponent =>
    exact .bind (.importWhole _) fun _ hmath => .bind (lowerType_ensures _ _) fun _ _ =>
      .pure ⟨hmath, ⟨hleft, hright, trivial⟩, trivial⟩
  | modulus => exact .pure ⟨hleft, ⟨hright, trivial⟩, trivial⟩
  | _ => exact .pure ⟨hleft, hright⟩

/-- The name of a constructor is of the kind, imported or from the source. -/
theorem constructorOf_ensures {ctx : Context} {entity : String} (hctx : Sourced P ctx)
    (h : P (.entity entity)) : Ensures P (constructorOf ctx.file entity) (Expr.AllUses P) := by
  refine .bind (.ofOption _ fun e he => hctx.entities entity e he h) fun e hname => ?_
  exact .pure hname

/-- The constructor of a tuple is an imported name. -/
theorem tupleConstructor_ensures (file : SourceFile) (items : List Ir.Ty)
    (loc : Option Ir.Location) :
    Ensures P (tupleConstructor file (.tuple items) loc) (Expr.AllUses P) := by
  refine .bind (lowerType_tuple_ensures file items) fun ty hty => ?_
  obtain ⟨library, name, generics, rfl, hlibrary⟩ := hty
  exact .pure hlibrary

/-- A member of another file is an imported name. -/
theorem importedValue_ensures (file : SourceFile) (ref : Ir.ImportRef) (ty : Ir.Ty)
    (loc : Option Ir.Location) : Ensures P (importedValue file ref ty loc) (Expr.AllUses P) :=
  .ite (fun _ => .fail _) fun _ => .bind (.of_grows (.resolveImport _ _)) fun _ _ =>
    .bind (.importWhole _) fun _ hlibrary => .bind (lowerType_ensures _ _) fun _ _ =>
      .pure hlibrary

/-- In what is read from an object, all names are of the kind if they are in the parts. -/
theorem access_ensures {file : SourceFile} {obj : Expr} (kind : Ir.Access) (ty : Ir.Ty)
    (h : obj.AllUses P) : Ensures P (access file obj kind ty) (Expr.AllUses P) := by
  cases kind with
  | unionField => exact .bind (lowerType_ensures _ _) fun _ _ => .pure ⟨h, trivial⟩
  | _ => exact .pure h

/-- In a test of a value, all names are of the kind if they are in the parts. -/
theorem test_ensures {file : SourceFile} {value : Expr} (kind : Ir.TestKind)
    (h : value.AllUses P) : Ensures P (test file value kind) (Expr.AllUses P) := by
  cases kind with
  | type => exact .bind (lowerType_ensures _ _) fun _ _ => .pure h
  | option | unionCase => exact .pure ⟨h, trivial⟩

/-- Whether parts are lowered to code of a kind. -/
structure Parts.KeepsUses (P : Use → Prop) (r : Parts) : Prop where
  expr : ∀ {ctx hoists e}, Sourced P ctx → e.AllUses P →
    Ensures P (r.expr ctx hoists e) (Hoisted.AllUses P (Expr.AllUses P))
  stmts : ∀ {ctx strategy e}, Sourced P ctx → strategy.AllUses P (Expr.AllUses P) →
    e.AllUses P → Ensures P (r.stmts ctx strategy e) (AllUsesStmts P)

namespace Parts.KeepsUses

variable {r : Parts} (h : r.KeepsUses P) {ctx : Context} {strategy : Strategy Expr}
  {hoists : Bool} {e : Ir.Expr}
include h

/-! ## Parts -/

/-- In the code that delivers a value, all names are of the kind if the place is. -/
theorem delivered (hctx : Sourced P ctx) (hstrategy : strategy.AllUses P (Expr.AllUses P))
    (he : e.AllUses P) : Ensures P (r.delivered ctx strategy e) (AllUsesStmts P) :=
  .bind (h.expr hctx.withoutTailCall he) fun _ hvalue =>
    .pure (allUsesStmts_append.2 ⟨hvalue.before, allUses_deliver hstrategy hvalue.value⟩)

/-- The local that captures a value is a name of the kind. -/
theorem capture (hctx : Sourced P ctx) (he : e.AllUses P) :
    Ensures P (r.capture ctx hoists e) (Hoisted.AllUses P (Expr.AllUses P)) := by
  have hctx := hctx.withoutTailCall
  refine .ite (fun _ => .fail _) fun _ => .ite (fun _ => ?_) fun _ => ?_
  · exact .bind (h.stmts hctx trivial he) fun _ hstmts => .pure ⟨hstmts, trivial⟩
  · exact .bind (freshLocal_ensures _ _ _) fun _ hid => .bind (h.stmts hctx hid.1 he)
      fun _ hstmts => .pure ⟨⟨⟨hid.2, trivial⟩, hstmts⟩, hid.1⟩

/-- In the operands after those that are done, all names are of the kind if they are in the
parts. -/
theorem operandsAfter {done : List (Expr × Ir.Ty)} {es : List Ir.Expr} (hctx : Sourced P ctx)
    (hdone : ∀ d ∈ done, d.1.AllUses P) (hes : ∀ e ∈ es, e.AllUses P) :
    Ensures P (r.operandsAfter ctx hoists done es)
      (Hoisted.AllUses P fun values => ∀ e ∈ values, e.AllUses P) := by
  induction es generalizing done with
  | nil => exact .pure ⟨trivial, fun e he => by
      obtain ⟨d, hd, rfl⟩ := List.mem_map.1 he
      exact hdone d hd⟩
  | cons e es ih =>
    obtain ⟨he, hes⟩ := List.forall_mem_cons.1 hes
    have hnext : ∀ {saved : List (Expr × Ir.Ty)} {value : Expr} {ty : Ir.Ty},
        (∀ d ∈ saved, d.1.AllUses P) → value.AllUses P →
        ∀ d ∈ saved ++ [(value, ty)], d.1.AllUses P := fun hsaved hvalue d hd => by
      rcases List.mem_append.1 hd with hd | hd
      · exact hsaved d hd
      · exact List.mem_singleton.1 hd ▸ hvalue
    refine .bind (h.expr hctx he) fun operand hoperand => .ite (fun _ => ?_) fun _ => ?_
    · refine .bind (.pure (Q := (· = ⟨[], done⟩)) rfl) fun _ hsaved => ?_
      subst hsaved
      exact .bind (ih (hnext hdone hoperand.value) hes) fun _ hrest =>
        .pure ⟨allUsesStmts_append.2 ⟨hoperand.before, hrest.before⟩, hrest.value⟩
    · refine .bind (saveOperands_ensures hdone) fun _ hsaved =>
        .bind (ih (hnext hsaved.value hoperand.value) hes) fun _ hrest => .pure ⟨?_, hrest.value⟩
      exact allUsesStmts_append.2
        ⟨allUsesStmts_append.2 ⟨hsaved.before, hoperand.before⟩, hrest.before⟩

/-- In operands from left to right, all names are of the kind if they are in the parts. -/
theorem operands {es : List Ir.Expr} (hctx : Sourced P ctx) (hes : ∀ e ∈ es, e.AllUses P) :
    Ensures P (r.operands ctx hoists es)
      (Hoisted.AllUses P fun values => ∀ e ∈ values, e.AllUses P) :=
  h.operandsAfter hctx nofun hes

/-- In two operands, all names are of the kind if they are in the parts. -/
theorem operandPair {left right : Ir.Expr} (hctx : Sourced P ctx) (hleft : left.AllUses P)
    (hright : right.AllUses P) : Ensures P (r.operandPair ctx hoists left right)
      (Hoisted.AllUses P fun both => both.1.AllUses P ∧ both.2.AllUses P) := by
  have hes : ∀ e ∈ [left, right], e.AllUses P :=
    List.forall_mem_cons.2 ⟨hleft, List.forall_mem_cons.2 ⟨hright, nofun⟩⟩
  refine .bind (h.operands hctx hes) fun both hboth => ?_
  split
  · rename_i heq
    obtain ⟨ha, hb, -⟩ := allUsesItems_iff.2 (heq ▸ hboth.value)
    exact .pure ⟨hboth.before, ha, hb⟩
  · exact .pure ⟨hboth.before, trivial, trivial⟩

/-- In a declaration, all names are of the kind if they are in the parts. -/
theorem declare {id : Ir.Ident} (hctx : Sourced P ctx) (hid : Binds P id.name)
    (he : e.AllUses P) : Ensures P (r.declare ctx id e) (AllUsesStmts P) := by
  have hctx := hctx.withoutTailCall
  refine .ite (fun _ => h.stmts hctx trivial he) fun _ =>
    .bind (lowerIdent_ensures _ _) fun place hplace => ?_
  obtain ⟨ty, rfl⟩ := hplace
  refine .bind (.isStatement _ _ _) fun _ _ => .ite (fun _ => ?_) fun _ => ?_
  · exact .bind (h.stmts hctx hid.1 he) fun _ hstmts => .pure ⟨⟨hid, trivial⟩, hstmts⟩
  · exact .bind (h.expr hctx he) fun _ hvalue =>
      .pure (allUsesStmts_append.2 ⟨hvalue.before, ⟨hid, hvalue.value⟩, trivial⟩)

/-- In a closure, all names are of the kind if they are in the parts. -/
theorem closure {params : List Ir.Ident} {body : Ir.Expr} (hctx : Sourced P ctx)
    (hparams : ∀ p ∈ params, Binds P p.name) (hbody : body.AllUses P) :
    Ensures P (r.closure ctx params body) (Expr.AllUses P) :=
  .bind (lowerIdents_ensures fun p hp => hparams p (mem_of_mem_declaredParams hp)) fun _ hargs =>
    .bind (h.stmts hctx.withoutTailCall (Strategy.allUses_ofType _) hbody) fun _ hstmts =>
      .bind (lowerType_ensures _ _) fun _ _ => .pure ⟨hargs, hstmts⟩

/-- In a function, all names are of the kind if they are in the parts. -/
theorem function {name : Option String} {params : List Ir.Ident} {body : Ir.Expr}
    (hctx : Sourced P ctx) (hparams : ∀ p ∈ params, Binds P p.name) (hbody : body.AllUses P) :
    Ensures P (r.function ctx name params body) fun f =>
      (∀ id ∈ f.1, Binds P id.name) ∧ AllUsesStmts P f.2.1 := by
  have hdeclared : ∀ p ∈ declaredParams params, Binds P p.name :=
    fun p hp => hparams p (mem_of_mem_declaredParams hp)
  unfold Parts.function
  dsimp only
  refine .bind (lowerType_ensures _ _) fun _ _ => ?_
  split
  · refine .bind (.allocateTailCall _ _) fun loop hloop => ?_
    obtain ⟨hlooped, hslots⟩ := hloop
    refine .bind (.inFunction (h.stmts (hctx.withTailCall fun slot hslot => (hslots slot hslot).1)
      (Strategy.allUses_ofType _) hbody)) fun inner hinner => .ite (fun _ => ?_) fun _ =>
        .bind (lowerIdents_ensures hdeclared) fun _ hargs => .pure ⟨hargs, hinner⟩
    refine .bind (loopParams_ensures fun b hb => ⟨hdeclared _ ?_, hslots _ (List.of_mem_zip hb).2⟩)
      fun l hl => .pure ⟨hl.1, ⟨trivial, ?_⟩, trivial⟩
    · exact mem_of_mem_declaredParams (hlooped ▸ (List.of_mem_zip hb).1)
    · refine allUsesStmts_append.2 ⟨allUsesStmts_append.2 ⟨hl.2, hinner⟩, ?_⟩
      split
      · exact ⟨trivial, trivial⟩
      · exact trivial
  · exact .bind (h.stmts hctx.withoutTailCall (Strategy.allUses_ofType _) hbody) fun _ hstmts =>
      .bind (lowerIdents_ensures hdeclared) fun _ hargs => .pure ⟨hargs, hstmts⟩

/-- In a local function, all names are of the kind if they are in the parts. -/
theorem localFunction {id : Ir.Ident} {params : List Ir.Ident} {body : Ir.Expr}
    (hctx : Sourced P ctx) (hid : Binds P id.name) (hparams : ∀ p ∈ params, Binds P p.name)
    (hbody : body.AllUses P) : Ensures P (r.localFunction ctx id params body) (Stmt.AllUses P) :=
  .bind (h.function hctx hparams hbody) fun _ hf => .pure ⟨hid, hf.1, hf.2⟩

/-! ## Expressions -/

/-- In an array, a tuple, a record or a case of a union, all names are of the kind if they are in
the parts. -/
theorem aggregate {kind : Ir.Aggregate} {values : List Ir.Expr} {loc : Option Ir.Location}
    (hctx : Sourced P ctx) (hkind : ∀ u ∈ kind.uses, P u) (hvalues : ∀ e ∈ values, e.AllUses P) :
    Ensures P (r.aggregate ctx hoists kind values loc)
      (Hoisted.AllUses P (Expr.AllUses P)) := by
  have hoperands : Ensures P (r.operands ctx hoists values)
      (Hoisted.AllUses P fun vs => ∀ v ∈ vs, v.AllUses P) := h.operands hctx hvalues
  cases kind with
  | array =>
    exact .bind hoperands fun _ hitems => .bind (lowerType_ensures _ _) fun _ _ =>
      .pure ⟨hitems.before, allUsesItems_iff.2 hitems.value⟩
  | tuple =>
    exact .bind (tupleConstructor_ensures _ _ _) fun _ hcallee => .bind hoperands fun _ hitems =>
      .pure ⟨hitems.before, hcallee, allUsesItems_iff.2 hitems.value, trivial⟩
  | record =>
    exact .bind (constructorOf_ensures hctx (hkind _ List.mem_cons_self)) fun _ hcallee =>
      .bind hoperands fun _ hitems =>
        .pure ⟨hitems.before, hcallee, allUsesItems_iff.2 hitems.value, trivial⟩
  | union =>
    exact .bind (constructorOf_ensures hctx (hkind _ List.mem_cons_self)) fun _ hcallee =>
      .bind hoperands fun _ hitems => .pure ⟨hitems.before, hcallee,
        ⟨trivial, allUsesItems_iff.2 hitems.value, trivial⟩, trivial⟩
  | anonymous => exact .fail _

/-- In a call, all names are of the kind if they are in the parts. -/
theorem call {callee : Ir.Expr} {receiver : Option Ir.Expr} {args : List Ir.Expr}
    (hctx : Sourced P ctx) (hcallee : callee.AllUses P)
    (hargs : ∀ e ∈ receiver.toList ++ args, e.AllUses P) :
    Ensures P (r.call ctx hoists callee receiver args) (Hoisted.AllUses P (Expr.AllUses P)) := by
  have hes : ∀ e ∈ callee :: (receiver.toList ++ discardUnitArg args), e.AllUses P := by
    refine List.forall_mem_cons.2 ⟨hcallee, fun e he => hargs e ?_⟩
    rcases List.mem_append.1 he with he | he
    · exact List.mem_append_left _ he
    · exact List.mem_append_right _ (mem_of_mem_discardUnitArg he)
  refine .bind (h.operands hctx hes) fun all hall => ?_
  split
  · rename_i heq
    obtain ⟨hf, hitems⟩ := List.forall_mem_cons.1 (heq ▸ hall.value)
    exact .pure ⟨hall.before, hf, allUsesItems_iff.2 hitems, trivial⟩
  · exact .pure ⟨hall.before, trivial⟩

omit h in

/-- A chain of calls is of the kind if the callee and the arguments are. -/
theorem allUses_foldl_callWith {f : Expr} {args : List Expr} (hf : f.AllUses P)
    (hargs : ∀ e ∈ args, e.AllUses P) :
    (args.foldl (fun f arg => .callWith f [arg]) f).AllUses P := by
  induction args generalizing f with
  | nil => exact hf
  | cons arg args ih =>
    obtain ⟨harg, hargs⟩ := List.forall_mem_cons.1 hargs
    exact ih ⟨hf, ⟨harg, trivial⟩, trivial⟩ hargs

/-- In an application to curried arguments, all names are of the kind if they are in the parts. -/
theorem applied {f : Ir.Expr} {args : List Ir.Expr} (hctx : Sourced P ctx)
    (hes : ∀ e ∈ f :: args, e.AllUses P) :
    Ensures P (r.applied ctx hoists f args) (Hoisted.AllUses P (Expr.AllUses P)) := by
  refine .bind (h.operands hctx hes) fun all hall => ?_
  split
  · rename_i heq
    obtain ⟨hf, hitems⟩ := List.forall_mem_cons.1 (heq ▸ hall.value)
    exact .pure ⟨hall.before, allUses_foldl_callWith hf hitems⟩
  · exact .pure ⟨hall.before, trivial⟩

/-- In a logical operation, all names are of the kind if they are in the parts. -/
theorem logical {op : LogicalOp} {left right : Ir.Expr} (hctx : Sourced P ctx)
    (hleft : left.AllUses P) (hright : right.AllUses P) :
    Ensures P (r.logical ctx hoists op left right) (Hoisted.AllUses P (Expr.AllUses P)) := by
  refine .bind (h.expr hctx hleft) fun _ ha => .bind (h.expr hctx hright) fun _ hb =>
    .ite (fun _ => .pure ⟨ha.before, ha.value, hb.value⟩) fun _ => ?_
  refine .bind (freshLocal_ensures _ _ _) fun id hid => .pure ⟨?_, hid.1⟩
  refine allUsesStmts_append.2 ⟨ha.before, ⟨hid.2, ha.value⟩, ⟨?_, ?_, trivial⟩, trivial⟩
  · cases op <;> exact hid.1
  · exact allUsesStmts_append.2 ⟨hb.before, ⟨hid.1, hb.value⟩, trivial⟩

/-- In a conditional, all names are of the kind if they are in the parts. -/
theorem conditional {guard thenExpr elseExpr : Ir.Expr} {ty : Ir.Ty} (hctx : Sourced P ctx)
    (hguard : guard.AllUses P) (hthen : thenExpr.AllUses P) (helse : elseExpr.AllUses P) :
    Ensures P (r.conditional ctx hoists guard thenExpr elseExpr ty)
      (Hoisted.AllUses P (Expr.AllUses P)) := by
  refine .bind (h.expr hctx hguard) fun test htest => .bind (h.expr hctx hthen) fun a ha =>
    .bind (h.expr hctx helse) fun b hb => ?_
  have hbranches : ∀ {id : Option Ident}, (∀ x ∈ id, x.Refers P ∧ Binds P x.name) →
      AllUsesStmts P (test.before ++ id.toList.map (fun id => .declare id .var none) ++
        [.ifElse test.value (a.before ++ branchEnd id a.value)
          (b.before ++ branchEnd id b.value)]) := by
    intro id hid
    refine allUsesStmts_append.2 ⟨allUsesStmts_append.2 ⟨htest.before, ?_⟩,
      ⟨htest.value, ?_, ?_⟩, trivial⟩
    · cases id with
      | none => exact trivial
      | some id => exact ⟨⟨(hid id rfl).2, trivial⟩, trivial⟩
    · exact allUsesStmts_append.2
        ⟨ha.before, allUses_branchEnd (fun x hx => (hid x hx).1) ha.value⟩
    · exact allUsesStmts_append.2
        ⟨hb.before, allUses_branchEnd (fun x hx => (hid x hx).1) hb.value⟩
  refine .ite (fun _ => .pure ⟨htest.before, htest.value, ha.value, hb.value⟩) fun _ =>
    .ite (fun _ => ?_) fun _ => ?_
  · refine .bind (.pure (Q := (· = none)) rfl) fun _ hid => ?_
    subst hid
    exact .pure ⟨hbranches nofun, trivial⟩
  · refine .bind (freshLocal_ensures _ _ _) fun id hid =>
      .bind (.pure (Q := (· = some id)) rfl) fun _ heq => ?_
    subst heq
    exact .pure ⟨hbranches fun x hx => Option.some.inj hx ▸ hid, hid.1⟩

/-- In a node that is an expression, all names are of the kind. -/
theorem exprCore (hctx : Sourced P ctx) (he : e.AllUses P) :
    Ensures P (r.exprCore ctx hoists e) (Hoisted.AllUses P (Expr.AllUses P)) := by
  have hc := fun c => he.of_child (c := c)
  cases e with
  | literal value => exact .pure ⟨trivial, literalValue_allUses hctx.builtins value⟩
  | option value =>
    cases value with
    | none => exact .pure ⟨trivial, trivial⟩
    | some value => exact h.expr hctx (hc value List.mem_cons_self)
  | aggregate => exact h.aggregate hctx he.uses hc
  | ident id =>
    refine .ite (fun _ => .pure ⟨trivial, trivial⟩) fun _ =>
      .bind (lowerIdent_ensures _ _) fun place hplace => .pure ⟨trivial, ?_⟩
    obtain ⟨ty, rfl⟩ := hplace
    exact he.uses _ List.mem_cons_self
  | cast inner =>
    exact .bind (h.expr hctx (hc inner List.mem_cons_self)) fun _ hvalue =>
      .ite (fun _ => .pure hvalue) fun _ => .bind (lowerType_ensures _ _) fun _ _ =>
        .pure ⟨hvalue.before, hvalue.value⟩
  | imported =>
    exact .bind (importedValue_ensures _ _ _ _) fun _ hvalue => .pure ⟨trivial, hvalue⟩
  | lambda arg body | delegate args body =>
    exact .bind (h.closure hctx (Use.forall_binders.1 he.uses) (hc body List.mem_cons_self))
      fun _ hvalue => .pure ⟨trivial, hvalue⟩
  | object => exact .fail _
  | call callee =>
    exact .ite (fun _ => .fail _) fun _ => h.call hctx (hc callee List.mem_cons_self)
      fun e he => hc e (List.mem_cons_of_mem _ he)
  | apply => exact h.applied hctx hc
  | unary op operand =>
    refine .bind (h.expr hctx (hc operand List.mem_cons_self)) fun _ hvalue => ?_
    split
    · exact .pure hvalue
    · exact .pure ⟨hvalue.before, hvalue.value⟩
  | binary op left right =>
    exact .bind (h.operandPair hctx (hc left List.mem_cons_self)
      (hc right (by simp [Ir.Expr.children]))) fun ⟨_, _, _⟩ hboth =>
        .bind (binaryValue_ensures _ _ hboth.value.1 hboth.value.2) fun _ hvalue =>
          .pure ⟨hboth.before, hvalue⟩
  | logical op left right =>
    exact h.logical hctx (hc left List.mem_cons_self) (hc right (by simp [Ir.Expr.children]))
  | emit template args =>
    exact .bind (h.operands hctx hc) fun _ hargs =>
      .pure ⟨hargs.before, he.uses _ List.mem_cons_self, allUsesItems_iff.2 hargs.value⟩
  | get obj kind =>
    exact .bind (h.expr hctx (hc obj List.mem_cons_self)) fun _ hobj =>
      .bind (access_ensures kind _ hobj.value) fun _ hvalue => .pure ⟨hobj.before, hvalue⟩
  | getIndex obj index =>
    exact .bind (h.operandPair hctx (hc obj List.mem_cons_self)
      (hc index (by simp [Ir.Expr.children]))) fun ⟨_, _, _⟩ hboth =>
        .pure ⟨hboth.before, hboth.value⟩
  | test value kind =>
    exact .bind (h.expr hctx (hc value List.mem_cons_self)) fun _ hvalue =>
      .bind (test_ensures kind hvalue.value) fun _ htest => .pure ⟨hvalue.before, htest⟩
  | ifThenElse guard thenExpr elseExpr =>
    exact h.conditional hctx (hc guard List.mem_cons_self)
      (hc thenExpr (by simp [Ir.Expr.children])) (hc elseExpr (by simp [Ir.Expr.children]))
  | decisionTree dispatcher => exact h.expr (hctx.tree he) (hc dispatcher List.mem_cons_self)
  | success index =>
    exact .bind (.ofOption _ fun t ht => (hctx.targets t (List.mem_of_getElem? ht)).2)
      fun _ hbody =>
      h.expr hctx hbody
  | curry inner =>
    exact .bind (h.expr hctx (hc inner List.mem_cons_self)) fun _ hvalue =>
      .bind (.importWhole _) fun _ hname =>
        .pure ⟨hvalue.before, hname, ⟨hvalue.value, trivial⟩, trivial⟩
  | throw | debugger | set | setIndex | letIn | letRec | sequence | whileLoop | forLoop
  | tryCatch => exact h.capture hctx he

omit h in

/-- In the expansion of a call, all names are of the kind. -/
theorem expansion?_ensures (hctx : Sourced P ctx) (he : e.AllUses P) :
    Ensures P (expansion? ctx e) fun o => ∀ expanded ∈ o, expanded.AllUses P := by
  unfold expansion?
  split
  · exact .expandInline hctx _ fun arg harg => he.of_child (List.mem_cons_of_mem _ harg)
  · exact .pure nofun

/-- In any node in the place of an expression, all names are of the kind. -/
theorem exprRule (hctx : Sourced P ctx) (he : e.AllUses P) :
    Ensures P (r.exprRule ctx hoists e) (Hoisted.AllUses P (Expr.AllUses P)) := by
  refine .bind (expansion?_ensures hctx he) fun expanded hexpanded => ?_
  cases expanded with
  | some expanded => exact h.expr hctx (hexpanded expanded rfl)
  | none =>
    exact .bind (.of_grows (Deepens.below_isCaptured _ _)) fun _ _ =>
      .ite (fun _ => h.capture hctx he) fun _ => h.exprCore hctx he

/-! ## Statements -/

/-- In nodes as expressions, all names are of the kind if they are in the parts. -/
theorem values {es : List Ir.Expr} (hctx : Sourced P ctx) (hes : ∀ e ∈ es, e.AllUses P) :
    Ensures P (r.values ctx es) (Hoisted.AllUses P fun values => ∀ e ∈ values, e.AllUses P) := by
  induction es with
  | nil => exact .pure ⟨trivial, nofun⟩
  | cons e es ih =>
    obtain ⟨he, hes⟩ := List.forall_mem_cons.1 hes
    exact .bind (h.expr hctx he) fun _ hfirst => .bind (ih hes) fun _ hrest =>
      .pure ⟨allUsesStmts_append.2 ⟨hfirst.before, hrest.before⟩,
        List.forall_mem_cons.2 ⟨hfirst.value, hrest.value⟩⟩

/-- In a self tail call, all names are of the kind if the slots are. -/
theorem tailCall {loop : TailCall} {args : List Ir.Expr} (hctx : Sourced P ctx)
    (hslots : ∀ slot ∈ loop.slots, P (.name slot)) (hargs : ∀ e ∈ args, e.AllUses P) :
    Ensures P (r.tailCall ctx loop args) (AllUsesStmts P) := by
  refine .bind (.of_grows .markLooped) fun _ _ => .bind (h.values hctx.withoutTailCall
    fun e he => hargs e (mem_of_mem_discardUnitArg he)) fun _ hvalues => ?_
  refine .bind (slotWrites_ensures (fun b hb => hslots _ (List.of_mem_zip hb).2) hvalues.value)
    fun _ hwrites => .pure ?_
  exact allUsesStmts_append.2
    ⟨allUsesStmts_append.2 ⟨hvalues.before, hwrites⟩, trivial, trivial⟩

/-- In a recursive let, all names are of the kind if they are in the parts. -/
theorem recursive {bs : List Ir.Binding} (hctx : Sourced P ctx)
    (hbs : ∀ b ∈ bs, Binds P b.ident.name ∧ b.value.AllUses P) :
    Ensures P (r.recursive ctx bs) (AllUsesStmts P) := by
  induction bs with
  | nil => exact .pure trivial
  | cons b bs ih =>
    obtain ⟨hb, hbs⟩ := List.forall_mem_cons.1 hbs
    rcases recursive_cons r ctx b bs with ⟨params, body, name, hvalue, heq⟩ | heq
    · have hlambda : (∀ p ∈ params, Binds P p.name) ∧ body.AllUses P := by
        have huncast := hb.2.uncast
        rcases hvalue with hvalue | ⟨arg, rfl, hvalue⟩ <;>
        · rw [hvalue] at huncast
          exact ⟨Use.forall_binders.1 huncast.uses, huncast.of_child List.mem_cons_self⟩
      rw [heq]
      exact .bind (h.localFunction hctx hb.1 hlambda.1 hlambda.2) fun _ hfirst =>
        .bind (ih hbs) fun _ hrest => .pure ⟨hfirst, hrest⟩
    · rw [heq]
      exact .bind (h.declare hctx hb.1 hb.2) fun _ hfirst =>
        .bind (ih hbs) fun _ hrest => .pure (allUsesStmts_append.2 ⟨hfirst, hrest⟩)

/-- In a sequence, all names are of the kind if they are in the parts. -/
theorem sequence {es : List Ir.Expr} (hctx : Sourced P ctx)
    (hstrategy : strategy.AllUses P (Expr.AllUses P)) (hes : ∀ e ∈ es, e.AllUses P) :
    Ensures P (r.sequence ctx strategy es) (AllUsesStmts P) := by
  induction es with
  | nil => exact .pure (allUses_deliverUnit strategy)
  | cons e es ih =>
    obtain ⟨he, hes⟩ := List.forall_mem_cons.1 hes
    cases es with
    | nil => exact h.stmts hctx hstrategy he
    | cons =>
      exact .bind (h.stmts hctx.withoutTailCall trivial he) fun _ hfirst =>
        .bind (ih hes) fun _ hrest => .pure (allUsesStmts_append.2 ⟨hfirst, hrest⟩)

/-- In an assignment, all names are of the kind if they are in the parts. -/
theorem assignment {place : Expr} (hctx : Sourced P ctx) (hplace : place.AllUses P)
    (he : e.AllUses P) : Ensures P (r.assignment ctx place e) (AllUsesStmts P) := by
  refine .bind (.isStatement _ _ _) fun _ _ => .ite (fun _ => h.stmts hctx hplace he) fun _ => ?_
  exact .bind (h.expr hctx he) fun _ hvalue =>
    .pure (allUsesStmts_append.2 ⟨hvalue.before, ⟨hplace, hvalue.value⟩, trivial⟩)

omit h in

/-- In a loop, all names are of the kind if they are in the parts. -/
theorem allUses_whileStmt {guard : Hoisted Expr} {body : List Stmt}
    (hguard : guard.AllUses P (Expr.AllUses P)) (hbody : AllUsesStmts P body) :
    (whileStmt guard body).AllUses P := by
  rw [whileStmt]
  split
  · exact ⟨hguard.value, hbody⟩
  · exact ⟨trivial, allUsesStmts_append.2
      ⟨hguard.before, ⟨hguard.value, ⟨trivial, trivial⟩, trivial⟩, hbody⟩⟩

/-- In a counting loop, all names are of the kind if they are in the parts. -/
theorem forLoop {id : Ir.Ident} {start limit body : Ir.Expr} {isUp : Bool} (hctx : Sourced P ctx)
    (hid : Binds P id.name) (hstart : start.AllUses P) (hlimit : limit.AllUses P)
    (hbody : body.AllUses P) :
    Ensures P (r.forLoop ctx id start limit body isUp) (AllUsesStmts P) := by
  refine .bind (h.expr hctx hstart) fun _ hstart => .bind (h.expr hctx hlimit) fun _ hlimit =>
    .bind (h.stmts hctx trivial hbody) fun _ hstmts => .bind (lowerIdent_ensures _ _)
      fun _ hplace => .pure (allUsesStmts_append.2
        ⟨allUsesStmts_append.2 ⟨hstart.before, hlimit.before⟩, ⟨?_, hstart.value, hlimit.value,
          hstmts⟩, trivial⟩)
  obtain ⟨ty, rfl⟩ := hplace
  exact hid

/-- In a handler, all names are of the kind if they are in the parts. -/
theorem handler {hd : Option Ir.Handler} (hctx : Sourced P ctx)
    (hstrategy : strategy.AllUses P (Expr.AllUses P))
    (hhd : ∀ x ∈ hd, Binds P x.param.name ∧ x.body.AllUses P) :
    Ensures P (r.handler ctx strategy hd) (AllUsesHandler P) := by
  cases hd with
  | none => exact .pure trivial
  | some hd =>
    obtain ⟨hparam, hbody⟩ := hhd hd rfl
    refine .bind (lowerIdent_ensures _ _) fun _ hplace =>
      .bind (h.stmts hctx hstrategy hbody) fun _ hstmts => .pure ⟨?_, hstmts⟩
    obtain ⟨ty, rfl⟩ := hplace
    exact hparam

/-- In a finalizer, all names are of the kind if they are in the parts. -/
theorem finalizer {o : Option Ir.Expr} (hctx : Sourced P ctx) (ho : ∀ e ∈ o, e.AllUses P) :
    Ensures P (r.finalizer ctx o) (AllUsesFinalizer P) := by
  cases o with
  | none => exact .pure trivial
  | some e => exact .bind (h.stmts hctx trivial (ho e rfl)) fun _ hstmts => .pure hstmts

omit h in

/-- In declarations of what targets bind, all names are of the kind if they are in the parts. -/
theorem targetVariables_ensures {targets : List Ir.Target}
    (hts : ∀ t ∈ targets, (∀ u ∈ Use.binders t.bound, P u) ∧ t.body.AllUses P) :
    Ensures P (targetVariables ctx targets) (AllUsesStmts P) := by
  refine .bind (lowerIdents_ensures fun id hid => ?_) fun ids hids => .pure ?_
  · obtain ⟨t, ht, hid⟩ := List.mem_flatMap.1 hid
    exact Use.forall_binders.1 (hts t (List.mem_filter.1 ht).1).1 id hid
  · induction ids with
    | nil => exact trivial
    | cons id ids ih =>
      obtain ⟨hid, hids⟩ := List.forall_mem_cons.1 hids
      exact ⟨⟨hid, trivial⟩, ih hids⟩

/-- In the bodies of targets, all names are of the kind if they are in the parts. -/
theorem targetBodies {ts : List Ir.Target} (hctx : Sourced P ctx)
    (hstrategy : strategy.AllUses P (Expr.AllUses P)) (hts : ∀ t ∈ ts, t.body.AllUses P) :
    Ensures P (r.targetBodies ctx strategy ts) fun bodies => ∀ b ∈ bodies, AllUsesStmts P b := by
  induction ts with
  | nil => exact .pure nofun
  | cons t ts ih =>
    obtain ⟨ht, hts⟩ := List.forall_mem_cons.1 hts
    exact .bind (h.stmts hctx hstrategy ht) fun _ hbody => .bind (ih hts) fun _ hrest =>
      .pure (List.forall_mem_cons.2 ⟨hbody, hrest⟩)

omit h in

/-- In the switch over the selected target, all names are of the kind if they are in the parts. -/
theorem allUses_dispatch {join : String} {bodies : List (List Stmt)} (hjoin : P (.name join))
    (hbodies : ∀ b ∈ bodies, AllUsesStmts P b) : (dispatch join bodies).AllUses P := by
  have hcases : ∀ {numbered : List (List Stmt × Nat)}, (∀ c ∈ numbered, AllUsesStmts P c.1) →
      AllUsesCases P (numbered.map fun c => ⟨[.integer c.2], c.1⟩) := by
    intro numbered hnumbered
    induction numbered with
    | nil => exact trivial
    | cons c numbered ih =>
      obtain ⟨hc, hnumbered⟩ := List.forall_mem_cons.1 hnumbered
      exact ⟨⟨trivial, trivial⟩, hc, ih hnumbered⟩
  refine ⟨hjoin, hcases fun c hc => hbodies _ ?_, ?_⟩
  · exact List.dropLast_subset _ (List.fst_mem_of_mem_zipIdx hc)
  · cases hlast : bodies.getLast? with
    | none => exact trivial
    | some last => exact hbodies last (List.mem_of_getLast? hlast)

/-- In a decision tree, all names are of the kind if they are in the parts. -/
theorem decisionTree {dispatcher : Ir.Expr} {targets : List Ir.Target} (hctx : Sourced P ctx)
    (hstrategy : strategy.AllUses P (Expr.AllUses P))
    (he : (Ir.Expr.decisionTree dispatcher targets).AllUses P) :
    Ensures P (r.decisionTree ctx strategy dispatcher targets) (AllUsesStmts P) := by
  have htree := hctx.tree he
  have hdispatcher := he.of_child (c := dispatcher) List.mem_cons_self
  refine .ite (fun _ => h.stmts htree hstrategy hdispatcher) fun _ =>
    .bind (.allocateLocal _) fun _ hjoin =>
      .bind (targetVariables_ensures htree.targets) fun _ hdeclared => ?_
  refine .bind (h.stmts htree.withoutTailCall hjoin.1 hdispatcher) fun _ hselect =>
    .bind (h.targetBodies hctx hstrategy fun t ht => (htree.targets t ht).2) fun _ hbodies =>
      .pure ?_
  refine allUsesStmts_append.2 ⟨?_, allUses_dispatch hjoin.1 hbodies, trivial⟩
  exact ⟨⟨hjoin, trivial⟩, allUsesStmts_append.2 ⟨hdeclared, hselect⟩⟩

/-- In declarations of what a target binds, all names are of the kind if they are in the parts. -/
theorem bindings {ids : List Ir.Ident} {values : List Ir.Expr} (hctx : Sourced P ctx)
    (hids : ∀ id ∈ ids, Binds P id.name) (hvalues : ∀ e ∈ values, e.AllUses P) :
    Ensures P (r.bindings ctx ids values) (AllUsesStmts P) := by
  induction ids generalizing values with
  | nil => exact .pure trivial
  | cons id ids ih =>
    cases values with
    | nil => exact .pure trivial
    | cons value values =>
      obtain ⟨hid, hids⟩ := List.forall_mem_cons.1 hids
      obtain ⟨hvalue, hvalues⟩ := List.forall_mem_cons.1 hvalues
      exact .bind (h.declare hctx hid hvalue) fun _ hfirst =>
        .bind (ih hids hvalues) fun _ hrest => .pure (allUsesStmts_append.2 ⟨hfirst, hrest⟩)

/-- In assignments to what a target binds, all names are of the kind if they are in the parts. -/
theorem assignments {ids : List Ir.Ident} {values : List Ir.Expr} (hctx : Sourced P ctx)
    (hids : ∀ id ∈ ids, Binds P id.name) (hvalues : ∀ e ∈ values, e.AllUses P) :
    Ensures P (r.assignments ctx ids values) (AllUsesStmts P) := by
  induction ids generalizing values with
  | nil => exact .pure trivial
  | cons id ids ih =>
    cases values with
    | nil => exact .pure trivial
    | cons value values =>
      obtain ⟨hid, hids⟩ := List.forall_mem_cons.1 hids
      obtain ⟨hvalue, hvalues⟩ := List.forall_mem_cons.1 hvalues
      refine .bind (lowerIdent_ensures _ _) fun _ hplace => ?_
      obtain ⟨ty, rfl⟩ := hplace
      exact .bind (h.stmts hctx.withoutTailCall hid.1 hvalue) fun _ hfirst =>
        .bind (ih hids hvalues) fun _ hrest => .pure (allUsesStmts_append.2 ⟨hfirst, hrest⟩)

/-- In a success node, all names are of the kind, the join variable among them. -/
theorem success {index : Nat} {values : List Ir.Expr} (hctx : Sourced P ctx)
    (hstrategy : strategy.AllUses P (Expr.AllUses P)) (hvalues : ∀ e ∈ values, e.AllUses P) :
    Ensures P (r.success ctx strategy index values) (AllUsesStmts P) := by
  refine .bind (.ofOption _ fun t ht => hctx.targets t (List.mem_of_getElem? ht)) fun t ht => ?_
  have hids := Use.forall_binders.1 ht.1
  cases strategy with
  | join =>
    exact .bind (h.assignments hctx hids hvalues) fun _ hstmts =>
      .pure (allUsesStmts_append.2 ⟨hstmts, ⟨hstrategy, trivial⟩, trivial⟩)
  | ret | effect | assign =>
    exact .bind (h.bindings hctx hids hvalues) fun _ hstmts =>
      .bind (h.stmts hctx hstrategy ht.2) fun _ hbody =>
        .pure (allUsesStmts_append.2 ⟨hstmts, hbody⟩)

/-- In a conditional statement, all names are of the kind if they are in the parts. -/
theorem conditionalStmts {guard thenExpr elseExpr : Ir.Expr} (hctx : Sourced P ctx)
    (hstrategy : strategy.AllUses P (Expr.AllUses P)) (hguard : guard.AllUses P)
    (hthen : thenExpr.AllUses P) (helse : elseExpr.AllUses P) :
    Ensures P (r.conditionalStmts ctx strategy guard thenExpr elseExpr) (AllUsesStmts P) :=
  .bind (h.expr hctx.withoutTailCall hguard) fun _ htest =>
    .bind (h.stmts hctx hstrategy hthen) fun _ hthen =>
      .bind (h.stmts hctx hstrategy helse) fun _ helse =>
        .pure (allUsesStmts_append.2 ⟨htest.before, ⟨htest.value, hthen, helse⟩, trivial⟩)

/-- In any node in the place of statements, all names are of the kind if the place is. -/
theorem stmtsRule (hctx : Sourced P ctx) (hstrategy : strategy.AllUses P (Expr.AllUses P))
    (he : e.AllUses P) : Ensures P (r.stmtsRule ctx strategy e) (AllUsesStmts P) := by
  have hc := fun c => he.of_child (c := c)
  have hplain := hctx.withoutTailCall
  cases e with
  | cast inner =>
    exact .bind (.of_grows (Deepens.below_dropsCast _ _ _)) fun _ _ =>
      .ite (fun _ => h.stmts hctx hstrategy (hc inner List.mem_cons_self))
        fun _ => h.delivered hctx hstrategy he
  | call callee receiver args isNew =>
    unfold Parts.stmtsRule
    dsimp only
    split
    · rename_i loop hloop
      refine h.tailCall hctx (hctx.slots loop (Option.filter_eq_some_iff.1 hloop).1) fun e he => ?_
      exact hc e (List.mem_cons_of_mem _ (List.mem_append_right _ he))
    · exact h.delivered hctx hstrategy he
  | ifThenElse guard thenExpr elseExpr =>
    exact .bind (.isStatement _ _ _) fun _ _ => .ite
      (fun _ => h.conditionalStmts hctx hstrategy (hc guard List.mem_cons_self)
        (hc thenExpr (by simp [Ir.Expr.children])) (hc elseExpr (by simp [Ir.Expr.children])))
      fun _ => h.delivered hctx hstrategy he
  | decisionTree => exact h.decisionTree hctx hstrategy he
  | success => exact h.success hctx hstrategy hc
  | letIn id value body =>
    have hid := Use.forall_binders.1 he.uses id List.mem_cons_self
    exact .bind (h.declare hctx hid (hc value List.mem_cons_self)) fun _ hfirst =>
      .bind (h.stmts hctx hstrategy (hc body (by simp [Ir.Expr.children]))) fun _ hbody =>
        .pure (allUsesStmts_append.2 ⟨hfirst, hbody⟩)
  | letRec bs body =>
    refine .bind (h.recursive hctx fun b hb => ⟨?_, ?_⟩) fun _ hfirst =>
      .bind (h.stmts hctx hstrategy (hc body (by simp [Ir.Expr.children]))) fun _ hbody =>
        .pure (allUsesStmts_append.2 ⟨hfirst, hbody⟩)
    · exact Use.forall_binders.1 he.uses _ (List.mem_map_of_mem hb)
    · exact hc _ (List.mem_append_left _ (List.mem_map_of_mem hb))
  | sequence => exact h.sequence hctx hstrategy hc
  | set target field value =>
    refine .bind (h.expr hplain (hc target List.mem_cons_self)) fun _ htarget =>
      .bind (h.assignment hplain ?_ (hc value (by simp [Ir.Expr.children]))) fun _ hstmts => ?_
    · cases field <;> exact htarget.value
    · exact .pure (allUsesStmts_append.2
        ⟨allUsesStmts_append.2 ⟨htarget.before, hstmts⟩, allUses_deliverUnit _⟩)
  | setIndex target index value =>
    refine .bind (h.expr hplain (hc target List.mem_cons_self)) fun _ htarget =>
      .bind (h.expr hplain (hc index (by simp [Ir.Expr.children]))) fun _ hindex =>
        .bind (h.assignment hplain ⟨htarget.value, hindex.value⟩
          (hc value (by simp [Ir.Expr.children]))) fun _ hstmts => .pure ?_
    exact allUsesStmts_append.2 ⟨allUsesStmts_append.2
      ⟨allUsesStmts_append.2 ⟨htarget.before, hindex.before⟩, hstmts⟩, allUses_deliverUnit _⟩
  | whileLoop guard body =>
    exact .bind (h.expr hplain (hc guard List.mem_cons_self)) fun _ hguard =>
      .bind (h.stmts hplain trivial (hc body (by simp [Ir.Expr.children]))) fun _ hbody =>
        .pure ⟨allUses_whileStmt hguard hbody, allUses_deliverUnit _⟩
  | forLoop id start limit body =>
    have hid := Use.forall_binders.1 he.uses id List.mem_cons_self
    refine .bind (h.forLoop hplain hid (hc start List.mem_cons_self)
      (hc limit (by simp [Ir.Expr.children])) (hc body (by simp [Ir.Expr.children])))
        fun _ hstmts => ?_
    exact .pure (allUsesStmts_append.2 ⟨hstmts, allUses_deliverUnit _⟩)
  | tryCatch body hd fin =>
    refine .bind (h.stmts hplain hstrategy (hc body List.mem_cons_self)) fun _ hblock =>
      .bind (h.handler hplain hstrategy fun x hx => ⟨?_, ?_⟩) fun _ hhandler =>
        .bind (h.finalizer hplain fun e he => ?_) fun _ hfinalizer =>
          .pure ⟨⟨hblock, hhandler, hfinalizer⟩, trivial⟩
    · obtain rfl := Option.mem_def.1 hx
      exact Use.forall_binders.1 he.uses x.param List.mem_cons_self
    · obtain rfl := Option.mem_def.1 hx
      exact hc x.body (by simp [Ir.Expr.children])
    · obtain rfl := Option.mem_def.1 he
      exact hc e (by simp [Ir.Expr.children])
  | throw error =>
    cases error with
    | some error =>
      exact .bind (h.expr hplain (hc error List.mem_cons_self)) fun _ hvalue =>
        .pure (allUsesStmts_append.2 ⟨hvalue.before, hvalue.value, trivial⟩)
    | none => exact .pure ⟨trivial, trivial⟩
  | debugger =>
    exact .bind (.importWhole _) fun _ hlibrary =>
      .pure ⟨⟨hlibrary, trivial, trivial⟩, allUses_deliverUnit _⟩
  | emit template args isStatement =>
    cases isStatement with
    | true =>
      refine .bind (h.operands hplain hc) fun _ hargs => .pure (allUsesStmts_append.2
        ⟨hargs.before, ⟨he.uses _ List.mem_cons_self, ?_⟩, allUses_deliverUnit _⟩)
      exact allUsesItems_iff.2 hargs.value
    | false => exact h.delivered hctx hstrategy he
  | literal | option | aggregate | ident | imported | lambda | delegate | object | apply | unary
  | binary | logical | get | getIndex | test | curry => exact h.delivered hctx hstrategy he

end Parts.KeepsUses

/-! ## The rules -/

/-- What is lowered from names of a kind mentions names of that kind only. -/
theorem rules_keepUses (P : Use → Prop) (n : Nat) : (rules n).KeepsUses P := by
  induction n with
  | zero => exact ⟨fun _ _ => .fail _, fun _ _ _ => .fail _⟩
  | succ n ih => exact ⟨ih.exprRule, ih.stmtsRule⟩

end TypedLowering.Dart
