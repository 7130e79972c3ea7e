import TypedLowering.Proofs.Dart.Control
import TypedLowering.Proofs.Ir.Annotations

/-!
# Types in lowered Dart

The types in code are those of identifiers, of results, of lists, and of tests and casts
(`AllTypes`). A lowered type has the type variables and the classes of the type it comes from
(`lowerType_atoms`). All types in lowered code come from annotations: if annotated types are lowered
to types of a kind, then all types in the code are of that kind (`rules_keepTypes`). There is one
lemma for each rule, about the rule with parts that keep the kind.
-/

namespace TypedLowering

namespace Dart

open Lower (Produces)

/-! ## Types -/

mutual

/-- The type variables and the references to classes in a type. -/
def Ty.atoms : Ty → List Ty
  | .generic name => [.generic name]
  | .named importPrefix name generics =>
    .named importPrefix name generics :: Ty.atomsList generics
  | .nullable item | .list item => item.atoms
  | .function args ret => Ty.atomsList args ++ ret.atoms
  | .integer | .double | .boolean | .string | .void | .dynamic | .object => []

/-- The atoms of types. -/
def Ty.atomsList : List Ty → List Ty
  | [] => []
  | ty :: tys => ty.atoms ++ Ty.atomsList tys

end

/-- A type that may be null has the atoms of the type. -/
theorem atoms_orNull (ty : Ty) : ty.orNull.atoms = ty.atoms := by
  cases ty <;> rfl

/-- What the atoms of a lowered type may be, by the atoms that it comes from. Regular expressions
have a class of their own, and tuples have classes of the runtime library. -/
inductive ComesFrom (settings : Settings) (atoms : List Ir.Ty) : Ty → Prop
  | param {name : String} (h : .param name ∈ atoms) : ComesFrom settings atoms (.generic name)
  | declared {fullName : String} {entity : Entity} {generics : List Ir.Ty} {args : List Ty}
    (h : .declared fullName generics ∈ atoms) (hentity : settings.entity? fullName = some entity)
    (hlength : args.length = generics.length) :
    ComesFrom settings atoms (.named none entity.displayName args)
  | regex : ComesFrom settings atoms (.named none "RegExp" [])
  | library {library name : String} {args : List Ty} :
    ComesFrom settings atoms (.named (some library) name args)

/-- What comes from some atoms comes from more. -/
theorem ComesFrom.mono {settings : Settings} {atoms atoms' : List Ir.Ty} {a : Ty}
    (h : ComesFrom settings atoms a) (hsub : ∀ x ∈ atoms, x ∈ atoms') :
    ComesFrom settings atoms' a := by
  cases h with
  | param h => exact .param (hsub _ h)
  | declared h hentity hlength => exact .declared (hsub _ h) hentity hlength
  | regex => exact .regex
  | library => exact .library

mutual

/-- A lowered type has the type variables and the classes of the type. -/
theorem lowerType_atoms (file : SourceFile) (ty : Ir.Ty) :
    Produces (lowerType file ty) fun a => ∀ x ∈ a.atoms, ComesFrom file.settings ty.atoms x := by
  cases ty with
  | any | unit | boolean | char | string =>
    unfold lowerType
    exact .pure nofun
  | number kind =>
    unfold lowerType
    exact .pure (by split <;> nofun)
  | regex =>
    unfold lowerType
    refine .pure fun x hx => ?_
    obtain rfl := List.mem_singleton.1 hx
    exact .regex
  | param name =>
    unfold lowerType
    refine .pure fun x hx => ?_
    obtain rfl := List.mem_singleton.1 hx
    exact .param List.mem_cons_self
  | option item =>
    unfold lowerType
    refine .bind (lowerType_atoms file item) fun a ha => .pure ?_
    rwa [atoms_orNull]
  | array item | list item =>
    unfold lowerType
    exact .bind (lowerType_atoms file item) fun a ha => .pure ha
  | tuple items =>
    unfold lowerType
    refine .ite (fun _ => .fail _) fun _ => .bind (lowerTypes_atoms file items) fun args hargs =>
      .bind (.any _) fun library _ => .pure fun x hx => ?_
    rcases List.mem_cons.1 hx with rfl | hx
    · exact .library
    · exact hargs.2 x hx
  | lambda arg ret =>
    have hret : Produces (lowerType file ret) fun a =>
        ∀ x ∈ a.atoms, ComesFrom file.settings (Ir.Ty.lambda arg ret).atoms x :=
      fun s a t h x hx => (lowerType_atoms file ret s a t h x hx).mono
        fun _ => List.mem_append_right _
    unfold lowerType
    refine .ite (fun _ => .pure_bind (.bind hret fun a ha => .pure ha)) fun _ => ?_
    refine .bind (lowerType_atoms file arg) fun first hfirst =>
      .pure_bind (.bind hret fun a ha => .pure fun x hx => ?_)
    rcases List.mem_append.1 hx with hx | hx
    · rw [Ty.atomsList, Ty.atomsList, List.append_nil] at hx
      exact (hfirst x hx).mono fun _ => List.mem_append_left _
    · exact ha x hx
  | delegate params ret =>
    have hret : Produces (lowerType file ret) fun a =>
        ∀ x ∈ a.atoms, ComesFrom file.settings (Ir.Ty.delegate params ret).atoms x :=
      fun s a t h x hx => (lowerType_atoms file ret s a t h x hx).mono
        fun _ => List.mem_append_right _
    unfold lowerType
    refine .ite (fun _ => .pure_bind (.bind hret fun a ha => .pure ha)) fun _ => ?_
    refine .bind (lowerTypes_atoms file params) fun args hargs => .bind hret fun a ha =>
      .pure fun x hx => ?_
    rcases List.mem_append.1 hx with hx | hx
    · exact (hargs.2 x hx).mono fun _ => List.mem_append_left _
    · exact ha x hx
  | declared fullName generics =>
    unfold lowerType
    refine .bind (.ofOption _ fun _ => id) fun entity hentity =>
      .bind (lowerTypes_atoms file generics) fun args hargs => .pure fun x hx => ?_
    rcases List.mem_cons.1 hx with rfl | hx
    · exact .declared List.mem_cons_self hentity hargs.1
    · exact (hargs.2 x hx).mono fun _ => List.mem_cons_of_mem _

/-- Lowered types have the atoms of the types that they come from. -/
theorem lowerTypes_atoms (file : SourceFile) (tys : List Ir.Ty) :
    Produces (lowerTypes file tys) fun as => as.length = tys.length ∧
      ∀ x ∈ Ty.atomsList as, ComesFrom file.settings (Ir.Ty.atomsList tys) x := by
  cases tys with
  | nil =>
    unfold lowerTypes
    exact .pure ⟨rfl, nofun⟩
  | cons ty tys =>
    unfold lowerTypes
    refine .bind (lowerType_atoms file ty) fun a ha => .bind (lowerTypes_atoms file tys)
      fun as has => .pure ⟨congrArg (· + 1) has.1, fun x hx => ?_⟩
    rcases List.mem_append.1 hx with hx | hx
    · exact (ha x hx).mono fun _ => List.mem_append_left _
    · exact (has.2 x hx).mono fun _ => List.mem_append_right _

end

/-! ## Types in code -/

mutual

/-- Whether all types in an expression are of a kind, each with the type variables in scope
there. -/
def Expr.AllTypes (P : List String → Ty → Prop) (scope : List String) : Expr → Prop
  | .literal _ | .this => True
  | .ident id => P scope id.ty
  | .list values ty => P scope ty ∧ AllTypesItems P scope values
  | .typeTest operand ty | .cast operand ty => P scope ty ∧ operand.AllTypes P scope
  | .unary _ operand | .property operand _ | .nullCheck operand => operand.AllTypes P scope
  | .binary _ left right | .logical _ left right | .index left right =>
    left.AllTypes P scope ∧ right.AllTypes P scope
  | .conditional test thenExpr elseExpr =>
    test.AllTypes P scope ∧ thenExpr.AllTypes P scope ∧ elseExpr.AllTypes P scope
  | .call callee args named =>
    callee.AllTypes P scope ∧ AllTypesItems P scope args ∧ AllTypesNamed P scope named
  | .function args body ret =>
    (∀ id ∈ args, P scope id.ty) ∧ AllTypesStmts P scope body ∧ P scope ret
  | .emit _ args => AllTypesItems P scope args

/-- All types in the expressions of a list are so. -/
def AllTypesItems (P : List String → Ty → Prop) (scope : List String) : List Expr → Prop
  | [] => True
  | e :: es => e.AllTypes P scope ∧ AllTypesItems P scope es

/-- All types in named arguments are so. -/
def AllTypesNamed (P : List String → Ty → Prop) (scope : List String) : List NamedArg → Prop
  | [] => True
  | ⟨_, value⟩ :: rest => value.AllTypes P scope ∧ AllTypesNamed P scope rest

/-- Whether all types in a statement are of a kind, each with the type variables in scope there. -/
def Stmt.AllTypes (P : List String → Ty → Prop) (scope : List String) : Stmt → Prop
  | .expr e | .throw e => e.AllTypes P scope
  | .ret value => AllTypesOption P scope value
  | .declare id _ value => P scope id.ty ∧ AllTypesOption P scope value
  | .assign target value => target.AllTypes P scope ∧ value.AllTypes P scope
  | .ifElse guard thenBody elseBody =>
    guard.AllTypes P scope ∧ AllTypesStmts P scope thenBody ∧ AllTypesStmts P scope elseBody
  | .whileLoop guard body => guard.AllTypes P scope ∧ AllTypesStmts P scope body
  | .forLoop id start limit _ body =>
    P scope id.ty ∧ start.AllTypes P scope ∧ limit.AllTypes P scope ∧ AllTypesStmts P scope body
  | .switch value cases default =>
    value.AllTypes P scope ∧ AllTypesCases P scope cases ∧ AllTypesFinalizer P scope default
  | .tryCatch body handler finalizer =>
    AllTypesStmts P scope body ∧ AllTypesHandler P scope handler ∧
      AllTypesFinalizer P scope finalizer
  | .rethrow | .breakTo _ | .continueTo _ => True
  | .labeled _ body => body.AllTypes P scope
  | .function func => func.AllTypes P scope

/-- All types in statements are so. -/
def AllTypesStmts (P : List String → Ty → Prop) (scope : List String) : List Stmt → Prop
  | [] => True
  | s :: ss => s.AllTypes P scope ∧ AllTypesStmts P scope ss

/-- All types in an expression that may be missing are so. -/
def AllTypesOption (P : List String → Ty → Prop) (scope : List String) : Option Expr → Prop
  | none => True
  | some e => e.AllTypes P scope

/-- The type of the parameter of a handler and all types in its body are so. -/
def AllTypesHandler (P : List String → Ty → Prop) (scope : List String) :
    Option CatchClause → Prop
  | none => True
  | some ⟨param, body⟩ => P scope param.ty ∧ AllTypesStmts P scope body

/-- A finalizer or a default case. -/
def AllTypesFinalizer (P : List String → Ty → Prop) (scope : List String) :
    Option (List Stmt) → Prop
  | none => True
  | some stmts => AllTypesStmts P scope stmts

/-- All types in the guards and bodies of cases are so. -/
def AllTypesCases (P : List String → Ty → Prop) (scope : List String) : List SwitchCase → Prop
  | [] => True
  | ⟨guards, body⟩ :: rest =>
    AllTypesItems P scope guards ∧ AllTypesStmts P scope body ∧ AllTypesCases P scope rest

/-- A function brings the type variables into scope that it declares. -/
def Func.AllTypes (P : List String → Ty → Prop) (scope : List String) : Func → Prop
  | ⟨_, args, body, ret, generics⟩ =>
    (∀ id ∈ args, P (generics ++ scope) id.ty) ∧ AllTypesStmts P (generics ++ scope) body ∧
      P (generics ++ scope) ret

end

/-- Whether all types in an expression and in the statements before it are of a kind. -/
structure Hoisted.AllTypes {α : Type} (P : List String → Ty → Prop) (scope : List String)
    (ofValue : α → Prop) (v : Hoisted α) : Prop where
  before : AllTypesStmts P scope v.before
  value : ofValue v.value

/-- Whether all types in the place that a strategy assigns to are of a kind. -/
def PlaceAllTypes (P : List String → Ty → Prop) (scope : List String) : Strategy Expr → Prop
  | .assign place => place.AllTypes P scope
  | .ret | .effect | .join _ => True

variable {P : List String → Ty → Prop} {scope : List String}

/-- The place of the value of a function has no type. -/
theorem placeAllTypes_ofType (isUnit : Bool) : PlaceAllTypes P scope (.ofType isUnit) := by
  cases isUnit <;> trivial

/-- The types of statements in two parts are so if both parts have such types. -/
@[simp] theorem allTypesStmts_append {as bs : List Stmt} :
    AllTypesStmts P scope (as ++ bs) ↔ AllTypesStmts P scope as ∧ AllTypesStmts P scope bs := by
  induction as with
  | nil => exact ⟨fun h => ⟨trivial, h⟩, And.right⟩
  | cons a as ih => rw [List.cons_append, AllTypesStmts, ih, AllTypesStmts, and_assoc]

/-- The types of expressions are so if those of each are. -/
theorem allTypesItems_iff {es : List Expr} :
    AllTypesItems P scope es ↔ ∀ e ∈ es, e.AllTypes P scope := by
  induction es with
  | nil => exact ⟨fun _ => nofun, fun _ => trivial⟩
  | cons e es ih => rw [AllTypesItems, ih, List.forall_mem_cons]

/-- What is given to the lowering of a node: annotated types whose atoms are of a kind are lowered
to types of a kind, as are types without atoms, and so are the types that annotate targets in reach
and the slots of the loop around. -/
structure Annotated (Q : Ir.Ty → Prop) (P : Ty → Prop) (ctx : Context) : Prop where
  lowered : ∀ {ty : Ir.Ty}, ty.All Q → Produces (lowerType ctx.file ty) P
  plain : ∀ {ty : Ty}, ty.atoms = [] → P ty
  targets : ∀ t ∈ ctx.targets,
    (∀ id ∈ t.bound, id.ty.All Q) ∧ t.body.AllAtoms ctx.file.settings Q
  slots : ∀ loop, ctx.tailCall = some loop → ∀ p ∈ loop.params, p.ty.All Q

namespace Annotated

variable {Q : Ir.Ty → Prop} {P : Ty → Prop} {ctx : Context}

/-- Without the loop around, the context has fewer types. -/
theorem withoutTailCall (h : Annotated Q P ctx) : Annotated Q P ctx.withoutTailCall :=
  ⟨h.lowered, h.plain, h.targets, nofun⟩

/-- A loop around adds the types of its parameters. -/
theorem withTailCall (h : Annotated Q P ctx) {loop : TailCall}
    (hparams : ∀ p ∈ loop.params, p.ty.All Q) : Annotated Q P (ctx.withTailCall loop) := by
  refine ⟨h.lowered, h.plain, h.targets, fun l hl => ?_⟩
  obtain rfl := Option.some.inj hl
  exact hparams

/-- The targets of a decision tree. -/
theorem tree {d : Ir.Expr} {ts : List Ir.Target} (h : Annotated Q P ctx)
    (he : (Ir.Expr.decisionTree d ts).AllAtoms ctx.file.settings Q) :
    Annotated Q P (ctx.withTargets ts) := by
  refine ⟨h.lowered, h.plain, fun t ht => ⟨fun id hid => he.own ?_, he.child ?_⟩, h.slots⟩
  · exact List.mem_flatMap.2 ⟨t, ht, List.mem_map_of_mem hid⟩
  · exact List.mem_cons_of_mem _ (List.mem_map_of_mem ht)

end Annotated

/-- A value is put in its place by code with types from annotations. -/
theorem allTypes_deliver {strategy : Strategy Expr} {value : Expr}
    (hplain : ∀ {ty : Ty}, ty.atoms = [] → P scope ty) (hplace : PlaceAllTypes P scope strategy)
    (hvalue : value.AllTypes P scope) : AllTypesStmts P scope (deliver strategy value) := by
  cases strategy with
  | ret => exact ⟨hvalue, trivial⟩
  | assign => exact ⟨⟨hplace, hvalue⟩, trivial⟩
  | join => exact ⟨⟨hplain rfl, hvalue⟩, trivial⟩
  | effect =>
    rw [deliver]
    split
    · exact trivial
    · exact ⟨hvalue, trivial⟩

/-- The end of a node without a value has no types. -/
theorem allTypes_deliverUnit (strategy : Strategy Expr) :
    AllTypesStmts P scope (deliverUnit strategy) := by
  cases strategy with
  | ret => exact ⟨trivial, trivial⟩
  | effect | assign | join => exact trivial

/-- The end of a branch has the types of its value. -/
theorem allTypes_branchEnd {target : Option Ident} {value : Expr}
    (htarget : ∀ id ∈ target, P scope id.ty) (hvalue : value.AllTypes P scope) :
    AllTypesStmts P scope (branchEnd target value) := by
  cases target with
  | some id => exact ⟨⟨htarget id rfl, hvalue⟩, trivial⟩
  | none =>
    rw [branchEnd]
    split
    · exact trivial
    · exact ⟨hvalue, trivial⟩

namespace Annotated

variable {Q : Ir.Ty → Prop} {ctx : Context} (h : Annotated Q (P scope) ctx)
include h

/-! ## Identifiers -/

/-- The type of an identifier is an annotation. -/
theorem lowerIdent {id : Ir.Ident} (hid : id.ty.All Q) :
    Produces (lowerIdent ctx.file id) fun place => P scope place.ty :=
  .bind (h.lowered hid) fun _ hty => .pure hty

/-- The types of identifiers are annotations. -/
theorem lowerIdents {ids : List Ir.Ident} (hids : ∀ id ∈ ids, id.ty.All Q) :
    Produces (lowerIdents ctx.file ids) fun places => ∀ id ∈ places, P scope id.ty := by
  induction ids with
  | nil => exact .pure nofun
  | cons id ids ih =>
    obtain ⟨hid, hids⟩ := List.forall_mem_cons.1 hids
    exact .bind (h.lowerIdent hid) fun _ hplace => .bind (ih hids) fun _ hrest =>
      .pure (List.forall_mem_cons.2 ⟨hplace, hrest⟩)

/-- The type of a new local is the one that it is made with. -/
theorem freshLocal (candidate : String) (ty : Ir.Ty) (hty : ty.All Q) :
    Produces (freshLocal ctx.file candidate ty) fun id => P scope id.ty :=
  .bind (.any _) fun _ _ => .bind (h.lowered hty) fun _ hty => .pure hty

/-- In operands that are saved in locals, all types come from annotations. -/
theorem saveOperands {operands : List (Expr × Ir.Ty)}
    (hoperands : ∀ d ∈ operands, d.1.AllTypes P scope ∧ d.2.All Q) :
    Produces (saveOperands ctx.file operands)
      (Hoisted.AllTypes P scope fun saved => ∀ d ∈ saved, d.1.AllTypes P scope ∧ d.2.All Q) := by
  induction operands with
  | nil => exact .pure ⟨trivial, nofun⟩
  | cons d operands ih =>
    obtain ⟨hd, hrest⟩ := List.forall_mem_cons.1 hoperands
    refine .ite (fun _ => .bind (ih hrest) fun _ hsaved => ?_) fun _ =>
      .bind (h.freshLocal _ _ hd.2) fun _ hid => .bind (ih hrest) fun _ hsaved => ?_
    · exact .pure ⟨hsaved.before, List.forall_mem_cons.2 ⟨hd, hsaved.value⟩⟩
    · exact .pure ⟨⟨⟨hid, hd.1⟩, hsaved.before⟩,
        List.forall_mem_cons.2 ⟨⟨hid, hd.2⟩, hsaved.value⟩⟩

/-- The slots as parameters, and the copies of the slots. -/
theorem loopParams {slots : List (Ir.Ident × String)} (hslots : ∀ b ∈ slots, b.1.ty.All Q) :
    Produces (Parts.loopParams ctx.file slots) fun l =>
      (∀ id ∈ l.1, P scope id.ty) ∧ AllTypesStmts P scope l.2 := by
  induction slots with
  | nil => exact .pure ⟨nofun, trivial⟩
  | cons b slots ih =>
    obtain ⟨hb, hslots⟩ := List.forall_mem_cons.1 hslots
    exact .bind (h.lowered hb) fun _ hty => .bind (ih hslots) fun ⟨_, _⟩ hrest =>
      .pure ⟨List.forall_mem_cons.2 ⟨hty, hrest.1⟩, ⟨hty, hty⟩, hrest.2⟩

/-- In the writes to the slots of a loop, all types come from annotations. -/
theorem slotWrites {slots : List (Ir.Ident × String)} {values : List Expr}
    (hslots : ∀ b ∈ slots, b.1.ty.All Q) (hvalues : ∀ e ∈ values, e.AllTypes P scope) :
    Produces (Parts.slotWrites ctx.file slots values) (AllTypesStmts P scope) := by
  induction slots generalizing values with
  | nil => exact .pure trivial
  | cons b slots ih =>
    cases values with
    | nil => exact .pure trivial
    | cons value values =>
      obtain ⟨hb, hslots⟩ := List.forall_mem_cons.1 hslots
      obtain ⟨hvalue, hvalues⟩ := List.forall_mem_cons.1 hvalues
      exact .ite (fun _ => ih hslots hvalues) fun _ => .bind (h.lowered hb) fun _ hty =>
        .bind (ih hslots hvalues) fun _ hrest => .pure ⟨⟨hty, hvalue⟩, hrest⟩

/-! ## Values -/

/-- A constant has no types. -/
theorem literalValue (value : Ir.Literal) : (literalValue value).AllTypes P scope := by
  have hflags : ∀ flags : List Char, AllTypesNamed P scope (flags.filterMap flagArg?) := by
    intro flags
    induction flags with
    | nil => exact trivial
    | cons flag flags ih =>
      rw [List.filterMap_cons]
      unfold flagArg?
      split <;> rename_i heq
      · exact ih
      · revert heq
        split <;> rintro ⟨⟩ <;> exact ⟨trivial, ih⟩
  cases value with
  | this | null | unit | bool | char | string => exact trivial
  | number value kind =>
    rw [Dart.literalValue]
    split <;> exact trivial
  | regex source flags => exact ⟨h.plain rfl, ⟨trivial, trivial⟩, hflags _⟩

/-- In a binary operation, all types come from annotations. -/
theorem binaryValue {left right : Expr} (op : Ir.BinaryOp) {ty : Ir.Ty} (hty : ty.All Q)
    (hleft : left.AllTypes P scope) (hright : right.AllTypes P scope) :
    Produces (binaryValue ctx.file op left right ty) (Expr.AllTypes P scope) := by
  cases op with
  | exponent =>
    exact .bind (.any _) fun _ _ => .bind (h.lowered hty) fun _ hty =>
      .pure ⟨hty, h.plain rfl, ⟨hleft, hright, trivial⟩, trivial⟩
  | modulus => exact .pure ⟨hleft, ⟨hright, trivial⟩, trivial⟩
  | _ => exact .pure ⟨hleft, hright⟩

/-- The constructor of an entity has no types. -/
theorem constructorOf (entity : String) :
    Produces (constructorOf ctx.file entity) (Expr.AllTypes P scope) :=
  .bind (.any _) fun _ _ => .pure (h.plain rfl)

/-- The constructor of a tuple has no types. -/
theorem tupleConstructor (ty : Ir.Ty) (loc : Option Ir.Location) :
    Produces (tupleConstructor ctx.file ty loc) (Expr.AllTypes P scope) := by
  refine .bind (.any _) fun lowered _ => ?_
  split
  · exact .pure (h.plain rfl)
  · exact .fail _

/-- In a member of another file, all types come from annotations. -/
theorem importedValue (ref : Ir.ImportRef) {ty : Ir.Ty} (loc : Option Ir.Location)
    (hty : ty.All Q) : Produces (importedValue ctx.file ref ty loc) (Expr.AllTypes P scope) :=
  .ite (fun _ => .fail _) fun _ => .bind (.any _) fun _ _ => .bind (.any _) fun _ _ =>
    .bind (h.lowered hty) fun _ hty => .pure hty

/-- In what is read from an object, all types come from annotations. -/
theorem access {obj : Expr} (kind : Ir.Access) {ty : Ir.Ty} (hty : ty.All Q)
    (hobj : obj.AllTypes P scope) :
    Produces (access ctx.file obj kind ty) (Expr.AllTypes P scope) := by
  cases kind with
  | unionField => exact .bind (h.lowered hty) fun _ hty => .pure ⟨hty, hobj, trivial⟩
  | _ => exact .pure hobj

/-- In a test of a value, all types come from annotations. -/
theorem test {value : Expr} (kind : Ir.TestKind) (hkind : ∀ ty ∈ kind.annotations, ty.All Q)
    (hvalue : value.AllTypes P scope) :
    Produces (test ctx.file value kind) (Expr.AllTypes P scope) := by
  cases kind with
  | type ty =>
    exact .bind (h.lowered (hkind ty List.mem_cons_self)) fun _ hty => .pure ⟨hty, hvalue⟩
  | option | unionCase => exact .pure ⟨hvalue, trivial⟩

end Annotated

/-- Whether parts are lowered to code whose types are of a kind, if they are annotated with types of
a kind. -/
structure Parts.KeepsTypes (Q : Ir.Ty → Prop) (P : List String → Ty → Prop) (scope : List String)
    (r : Parts) : Prop where
  expr : ∀ {ctx hoists e}, Annotated Q (P scope) ctx → e.AllAtoms ctx.file.settings Q →
    Produces (r.expr ctx hoists e) (Hoisted.AllTypes P scope (Expr.AllTypes P scope))
  stmts : ∀ {ctx strategy e}, Annotated Q (P scope) ctx → PlaceAllTypes P scope strategy →
    e.AllAtoms ctx.file.settings Q → Produces (r.stmts ctx strategy e) (AllTypesStmts P scope)

namespace Parts.KeepsTypes

variable {Q : Ir.Ty → Prop} {r : Parts} (h : r.KeepsTypes Q P scope) {ctx : Context}
  {strategy : Strategy Expr} {hoists : Bool} {e : Ir.Expr}
include h

/-! ## Parts -/

/-- In the code that delivers a value, all types come from annotations. -/
theorem delivered (hctx : Annotated Q (P scope) ctx) (hplace : PlaceAllTypes P scope strategy)
    (he : e.AllAtoms ctx.file.settings Q) :
    Produces (r.delivered ctx strategy e) (AllTypesStmts P scope) :=
  .bind (h.expr hctx.withoutTailCall he) fun _ hvalue => .pure (allTypesStmts_append.2
    ⟨hvalue.before, allTypes_deliver hctx.plain hplace hvalue.value⟩)

/-- The type of the local that captures a value is the one of the node. -/
theorem capture (hctx : Annotated Q (P scope) ctx) (he : e.AllAtoms ctx.file.settings Q) :
    Produces (r.capture ctx hoists e) (Hoisted.AllTypes P scope (Expr.AllTypes P scope)) := by
  have hplain := hctx.withoutTailCall
  refine .ite (fun _ => .fail _) fun _ => .ite (fun _ => ?_) fun _ => ?_
  · exact .bind (h.stmts hplain trivial he) fun _ hstmts => .pure ⟨hstmts, trivial⟩
  · exact .bind (hplain.freshLocal _ _ he.type) fun _ hid =>
      .bind (h.stmts hplain hid he) fun _ hstmts => .pure ⟨⟨⟨hid, trivial⟩, hstmts⟩, hid⟩

/-- In the operands after those that are done, all types come from annotations. -/
theorem operandsAfter {done : List (Expr × Ir.Ty)} {es : List Ir.Expr}
    (hctx : Annotated Q (P scope) ctx) (hdone : ∀ d ∈ done, d.1.AllTypes P scope ∧ d.2.All Q)
    (hes : ∀ e ∈ es, e.AllAtoms ctx.file.settings Q) :
    Produces (r.operandsAfter ctx hoists done es)
      (Hoisted.AllTypes P scope fun values => ∀ e ∈ values, e.AllTypes P scope) := by
  induction es generalizing done with
  | nil =>
    refine .pure ⟨trivial, fun e he => ?_⟩
    obtain ⟨d, hd, rfl⟩ := List.mem_map.1 he
    exact (hdone d hd).1
  | cons e es ih =>
    obtain ⟨he, hes⟩ := List.forall_mem_cons.1 hes
    have hnext : ∀ {saved : List (Expr × Ir.Ty)} {value : Expr},
        (∀ d ∈ saved, d.1.AllTypes P scope ∧ d.2.All Q) → value.AllTypes P scope →
        ∀ d ∈ saved ++ [(value, e.type)], d.1.AllTypes P scope ∧ d.2.All Q := by
      intro saved value hsaved hvalue d hd
      rcases List.mem_append.1 hd with hd | hd
      · exact hsaved d hd
      · exact List.mem_singleton.1 hd ▸ ⟨hvalue, he.type⟩
    refine .bind (h.expr hctx he) fun operand hoperand => .ite (fun _ => ?_) fun _ => ?_
    · exact .pure_bind (.bind (ih (hnext hdone hoperand.value) hes) fun _ hrest =>
        .pure ⟨allTypesStmts_append.2 ⟨hoperand.before, hrest.before⟩, hrest.value⟩)
    · refine .bind (hctx.saveOperands hdone) fun _ hsaved =>
        .bind (ih (hnext hsaved.value hoperand.value) hes) fun _ hrest => .pure ⟨?_, hrest.value⟩
      exact allTypesStmts_append.2
        ⟨allTypesStmts_append.2 ⟨hsaved.before, hoperand.before⟩, hrest.before⟩

/-- In operands from left to right, all types come from annotations. -/
theorem operands {es : List Ir.Expr} (hctx : Annotated Q (P scope) ctx)
    (hes : ∀ e ∈ es, e.AllAtoms ctx.file.settings Q) :
    Produces (r.operands ctx hoists es)
      (Hoisted.AllTypes P scope fun values => ∀ e ∈ values, e.AllTypes P scope) :=
  h.operandsAfter hctx nofun hes

/-- In two operands, all types come from annotations. -/
theorem operandPair {left right : Ir.Expr} (hctx : Annotated Q (P scope) ctx)
    (hleft : left.AllAtoms ctx.file.settings Q) (hright : right.AllAtoms ctx.file.settings Q) :
    Produces (r.operandPair ctx hoists left right) (Hoisted.AllTypes P scope fun both =>
      both.1.AllTypes P scope ∧ both.2.AllTypes P scope) := by
  have hes : ∀ e ∈ [left, right], e.AllAtoms ctx.file.settings Q :=
    List.forall_mem_cons.2 ⟨hleft, List.forall_mem_cons.2 ⟨hright, nofun⟩⟩
  refine .bind (h.operands hctx hes) fun both hboth => ?_
  split
  · rename_i heq
    obtain ⟨ha, hb, -⟩ := allTypesItems_iff.2 (heq ▸ hboth.value)
    exact .pure ⟨hboth.before, ha, hb⟩
  · exact .pure ⟨hboth.before, trivial, trivial⟩

/-- In a declaration, all types come from annotations. -/
theorem declare {id : Ir.Ident} (hctx : Annotated Q (P scope) ctx) (hid : id.ty.All Q)
    (he : e.AllAtoms ctx.file.settings Q) :
    Produces (r.declare ctx id e) (AllTypesStmts P scope) := by
  have hplain := hctx.withoutTailCall
  refine .ite (fun _ => h.stmts hplain trivial he) fun _ =>
    .bind (hplain.lowerIdent hid) fun place hplace => .bind (.any _) fun _ _ => ?_
  refine .ite (fun _ => ?_) fun _ => ?_
  · exact .bind (h.stmts hplain hplace he) fun _ hstmts => .pure ⟨⟨hplace, trivial⟩, hstmts⟩
  · exact .bind (h.expr hplain he) fun _ hvalue =>
      .pure (allTypesStmts_append.2 ⟨hvalue.before, ⟨hplace, hvalue.value⟩, trivial⟩)

/-- In a closure, all types come from annotations. -/
theorem closure {params : List Ir.Ident} {body : Ir.Expr} (hctx : Annotated Q (P scope) ctx)
    (hparams : ∀ p ∈ params, p.ty.All Q) (hbody : body.AllAtoms ctx.file.settings Q) :
    Produces (r.closure ctx params body) (Expr.AllTypes P scope) :=
  .bind (hctx.lowerIdents fun p hp => hparams p (mem_of_mem_declaredParams hp)) fun _ hargs =>
    .bind (h.stmts hctx.withoutTailCall (placeAllTypes_ofType _) hbody) fun _ hstmts =>
      .bind (hctx.lowered hbody.type) fun _ hret => .pure ⟨hargs, hstmts, hret⟩

/-- In a function, all types come from annotations. -/
theorem function {name : Option String} {params : List Ir.Ident} {body : Ir.Expr}
    (hctx : Annotated Q (P scope) ctx) (hparams : ∀ p ∈ params, p.ty.All Q)
    (hbody : body.AllAtoms ctx.file.settings Q) :
    Produces (r.function ctx name params body) fun f =>
      (∀ id ∈ f.1, P scope id.ty) ∧ AllTypesStmts P scope f.2.1 ∧ P scope f.2.2 := by
  have hdeclared : ∀ p ∈ declaredParams params, p.ty.All Q :=
    fun p hp => hparams p (mem_of_mem_declaredParams hp)
  unfold Parts.function
  dsimp only
  refine .bind (hctx.lowered hbody.type) fun ret hret => ?_
  split
  · have hallocate : ∀ label, Produces (.allocateTailCall label (declaredParams params))
        fun loop => ∀ p ∈ loop.params, p.ty.All Q := by
      intro label s loop t hloop p hp
      obtain ⟨-, heq, -⟩ := TailCall.allocateTailCall_spec hloop
      exact hdeclared p (mem_of_mem_declaredParams (heq ▸ hp))
    refine .bind (hallocate _) fun loop hloop =>
      .bind (.inFunction (h.stmts (hctx.withTailCall hloop) (placeAllTypes_ofType _) hbody))
        fun inner hinner => .ite (fun _ => ?_) fun _ =>
          .bind (hctx.lowerIdents hdeclared) fun _ hargs => .pure ⟨hargs, hinner, hret⟩
    refine .bind (hctx.loopParams fun b hb => hloop b.1 (List.of_mem_zip hb).1) fun l hl =>
      .pure ⟨hl.1, ⟨⟨trivial, ?_⟩, trivial⟩, hret⟩
    refine allTypesStmts_append.2 ⟨allTypesStmts_append.2 ⟨hl.2, hinner⟩, ?_⟩
    split
    · exact ⟨trivial, trivial⟩
    · exact trivial
  · exact .bind (h.stmts hctx.withoutTailCall (placeAllTypes_ofType _) hbody) fun _ hstmts =>
      .bind (hctx.lowerIdents hdeclared) fun _ hargs => .pure ⟨hargs, hstmts, hret⟩

/-- In a local function, all types come from annotations. -/
theorem localFunction {id : Ir.Ident} {params : List Ir.Ident} {body : Ir.Expr}
    (hctx : Annotated Q (P scope) ctx) (hparams : ∀ p ∈ params, p.ty.All Q)
    (hbody : body.AllAtoms ctx.file.settings Q) :
    Produces (r.localFunction ctx id params body) (Stmt.AllTypes P scope) :=
  .bind (h.function hctx hparams hbody) fun _ hf => .pure hf

/-! ## Expressions -/

/-- In an array, a tuple, a record or a case of a union, all types come from annotations. -/
theorem aggregate {kind : Ir.Aggregate} {values : List Ir.Expr} {loc : Option Ir.Location}
    (hctx : Annotated Q (P scope) ctx) (hkind : ∀ ty ∈ kind.annotations, ty.All Q)
    (hvalues : ∀ e ∈ values, e.AllAtoms ctx.file.settings Q) :
    Produces (r.aggregate ctx hoists kind values loc)
      (Hoisted.AllTypes P scope (Expr.AllTypes P scope)) := by
  have hoperands : Produces (r.operands ctx hoists values)
      (Hoisted.AllTypes P scope fun values => ∀ e ∈ values, e.AllTypes P scope) :=
    h.operands hctx hvalues
  cases kind with
  | array ty =>
    exact .bind hoperands fun _ hitems =>
      .bind (hctx.lowered (hkind ty List.mem_cons_self)) fun _ hty =>
        .pure ⟨hitems.before, hty, allTypesItems_iff.2 hitems.value⟩
  | tuple =>
    exact .bind (hctx.tupleConstructor _ _) fun _ hcallee => .bind hoperands fun _ hitems =>
      .pure ⟨hitems.before, hcallee, allTypesItems_iff.2 hitems.value, trivial⟩
  | record entity =>
    exact .bind (hctx.constructorOf entity) fun _ hcallee => .bind hoperands fun _ hitems =>
      .pure ⟨hitems.before, hcallee, allTypesItems_iff.2 hitems.value, trivial⟩
  | union tag entity =>
    exact .bind (hctx.constructorOf entity) fun _ hcallee => .bind hoperands fun _ hitems =>
      .pure ⟨hitems.before, hcallee,
        ⟨trivial, ⟨hctx.plain rfl, allTypesItems_iff.2 hitems.value⟩, trivial⟩, trivial⟩
  | anonymous => exact .fail _

/-- In a call, all types come from annotations. -/
theorem call {callee : Ir.Expr} {receiver : Option Ir.Expr} {args : List Ir.Expr}
    (hctx : Annotated Q (P scope) ctx) (hcallee : callee.AllAtoms ctx.file.settings Q)
    (hargs : ∀ e ∈ receiver.toList ++ args, e.AllAtoms ctx.file.settings Q) :
    Produces (r.call ctx hoists callee receiver args)
      (Hoisted.AllTypes P scope (Expr.AllTypes P scope)) := by
  have hes : ∀ e ∈ callee :: (receiver.toList ++ discardUnitArg args),
      e.AllAtoms ctx.file.settings Q := by
    refine List.forall_mem_cons.2 ⟨hcallee, fun e he => hargs e ?_⟩
    rcases List.mem_append.1 he with he | he
    · exact List.mem_append_left _ he
    · exact List.mem_append_right _ (mem_of_mem_discardUnitArg he)
  refine .bind (h.operands hctx hes) fun all hall => ?_
  split
  · rename_i heq
    obtain ⟨hf, hitems⟩ := List.forall_mem_cons.1 (heq ▸ hall.value)
    exact .pure ⟨hall.before, hf, allTypesItems_iff.2 hitems, trivial⟩
  · exact .pure ⟨hall.before, trivial⟩

omit h in

/-- A chain of calls has the types of the callee and the arguments. -/
theorem allTypes_foldl_callWith {f : Expr} {args : List Expr} (hf : f.AllTypes P scope)
    (hargs : ∀ e ∈ args, e.AllTypes P scope) :
    (args.foldl (fun f arg => .callWith f [arg]) f).AllTypes P scope := by
  induction args generalizing f with
  | nil => exact hf
  | cons arg args ih =>
    obtain ⟨harg, hargs⟩ := List.forall_mem_cons.1 hargs
    exact ih ⟨hf, ⟨harg, trivial⟩, trivial⟩ hargs

/-- In an application to curried arguments, all types come from annotations. -/
theorem applied {f : Ir.Expr} {args : List Ir.Expr} (hctx : Annotated Q (P scope) ctx)
    (hes : ∀ e ∈ f :: args, e.AllAtoms ctx.file.settings Q) :
    Produces (r.applied ctx hoists f args) (Hoisted.AllTypes P scope (Expr.AllTypes P scope)) := by
  refine .bind (h.operands hctx hes) fun all hall => ?_
  split
  · rename_i heq
    obtain ⟨hf, hitems⟩ := List.forall_mem_cons.1 (heq ▸ hall.value)
    exact .pure ⟨hall.before, allTypes_foldl_callWith hf hitems⟩
  · exact .pure ⟨hall.before, trivial⟩

/-- In a logical operation, all types come from annotations. -/
theorem logical {op : LogicalOp} {left right : Ir.Expr} (hctx : Annotated Q (P scope) ctx)
    (hleft : left.AllAtoms ctx.file.settings Q) (hright : right.AllAtoms ctx.file.settings Q) :
    Produces (r.logical ctx hoists op left right)
      (Hoisted.AllTypes P scope (Expr.AllTypes P scope)) := by
  refine .bind (h.expr hctx hleft) fun _ ha => .bind (h.expr hctx hright) fun _ hb =>
    .ite (fun _ => .pure ⟨ha.before, ha.value, hb.value⟩) fun _ => ?_
  refine .bind (hctx.freshLocal _ .boolean nofun) fun id hid => .pure ⟨?_, hid⟩
  refine allTypesStmts_append.2 ⟨ha.before, ⟨hid, ha.value⟩, ⟨?_, ?_, trivial⟩, trivial⟩
  · cases op <;> exact hid
  · exact allTypesStmts_append.2 ⟨hb.before, ⟨hid, hb.value⟩, trivial⟩

/-- In a conditional, all types come from annotations. -/
theorem conditional {guard thenExpr elseExpr : Ir.Expr} {ty : Ir.Ty}
    (hctx : Annotated Q (P scope) ctx) (hguard : guard.AllAtoms ctx.file.settings Q)
    (hthen : thenExpr.AllAtoms ctx.file.settings Q)
    (helse : elseExpr.AllAtoms ctx.file.settings Q) (hty : ty.All Q) :
    Produces (r.conditional ctx hoists guard thenExpr elseExpr ty)
      (Hoisted.AllTypes P scope (Expr.AllTypes P scope)) := by
  refine .bind (h.expr hctx hguard) fun test htest => .bind (h.expr hctx hthen) fun a ha =>
    .bind (h.expr hctx helse) fun b hb => ?_
  have hbranches : ∀ {id : Option Ident}, (∀ x ∈ id, P scope x.ty) →
      AllTypesStmts P scope (test.before ++ id.toList.map (fun id => .declare id .var none) ++
        [.ifElse test.value (a.before ++ branchEnd id a.value)
          (b.before ++ branchEnd id b.value)]) := by
    intro id hid
    refine allTypesStmts_append.2 ⟨allTypesStmts_append.2 ⟨htest.before, ?_⟩,
      ⟨htest.value, ?_, ?_⟩, trivial⟩
    · cases id with
      | none => exact trivial
      | some id => exact ⟨⟨hid id rfl, trivial⟩, trivial⟩
    · exact allTypesStmts_append.2 ⟨ha.before, allTypes_branchEnd hid ha.value⟩
    · exact allTypesStmts_append.2 ⟨hb.before, allTypes_branchEnd hid hb.value⟩
  refine .ite (fun _ => .pure ⟨htest.before, htest.value, ha.value, hb.value⟩) fun _ =>
    .ite (fun _ => ?_) fun _ => ?_
  · exact .pure_bind (.pure ⟨hbranches nofun, trivial⟩)
  · exact .bind (hctx.freshLocal _ ty hty) fun id hid =>
      .pure_bind (.pure ⟨hbranches fun x hx => Option.some.inj hx ▸ hid, hid⟩)

/-- In a node that is an expression, all types come from annotations. -/
theorem exprCore (hctx : Annotated Q (P scope) ctx) (he : e.AllAtoms ctx.file.settings Q) :
    Produces (r.exprCore ctx hoists e) (Hoisted.AllTypes P scope (Expr.AllTypes P scope)) := by
  have hown : ∀ ty ∈ e.annotations, ty.All Q := fun ty => he.own
  have hc := fun c => he.child (c := c)
  cases e with
  | literal value => exact .pure ⟨trivial, hctx.literalValue value⟩
  | option value =>
    cases value with
    | none => exact .pure ⟨trivial, trivial⟩
    | some value => exact h.expr hctx (hc value List.mem_cons_self)
  | aggregate => exact h.aggregate hctx hown hc
  | ident id =>
    exact .ite (fun _ => .pure ⟨trivial, trivial⟩) fun _ =>
      .bind (hctx.lowerIdent (hown id.ty List.mem_cons_self)) fun place hplace =>
        .pure ⟨trivial, hplace⟩
  | cast inner ty =>
    exact .bind (h.expr hctx (hc inner List.mem_cons_self)) fun _ hvalue =>
      .ite (fun _ => .pure hvalue) fun _ =>
        .bind (hctx.lowered (hown ty List.mem_cons_self)) fun _ hty =>
          .pure ⟨hvalue.before, hty, hvalue.value⟩
  | imported ref ty loc =>
    exact .bind (hctx.importedValue ref loc (hown ty List.mem_cons_self)) fun _ hvalue =>
      .pure ⟨trivial, hvalue⟩
  | lambda arg body =>
    have hparams : ∀ p ∈ [arg], p.ty.All Q := by
      intro p hp
      exact List.mem_singleton.1 hp ▸ hown arg.ty List.mem_cons_self
    exact .bind (h.closure hctx hparams (hc body List.mem_cons_self)) fun _ hvalue =>
      .pure ⟨trivial, hvalue⟩
  | delegate args body =>
    exact .bind (h.closure hctx (fun p hp => hown p.ty (List.mem_map_of_mem hp))
      (hc body List.mem_cons_self)) fun _ hvalue => .pure ⟨trivial, hvalue⟩
  | object => exact .fail _
  | call callee =>
    exact .ite (fun _ => .fail _) fun _ => h.call hctx (hc callee List.mem_cons_self)
      fun e he => hc e (List.mem_cons_of_mem _ he)
  | apply => exact h.applied hctx hc
  | unary op operand =>
    refine .bind (h.expr hctx (hc operand List.mem_cons_self)) fun _ hvalue => ?_
    split
    · exact .pure hvalue
    · exact .pure ⟨hvalue.before, hvalue.value⟩
  | binary op left right ty =>
    exact .bind (h.operandPair hctx (hc left List.mem_cons_self)
      (hc right (by simp [Ir.Expr.children]))) fun ⟨_, _, _⟩ hboth =>
        .bind (hctx.binaryValue op (hown ty List.mem_cons_self) hboth.value.1 hboth.value.2)
          fun _ hvalue => .pure ⟨hboth.before, hvalue⟩
  | logical op left right =>
    exact h.logical hctx (hc left List.mem_cons_self) (hc right (by simp [Ir.Expr.children]))
  | emit template args =>
    exact .bind (h.operands hctx hc) fun _ hargs =>
      .pure ⟨hargs.before, allTypesItems_iff.2 hargs.value⟩
  | get obj kind ty =>
    exact .bind (h.expr hctx (hc obj List.mem_cons_self)) fun _ hobj =>
      .bind (hctx.access kind (hown ty List.mem_cons_self) hobj.value) fun _ hvalue =>
        .pure ⟨hobj.before, hvalue⟩
  | getIndex obj index =>
    exact .bind (h.operandPair hctx (hc obj List.mem_cons_self)
      (hc index (by simp [Ir.Expr.children]))) fun ⟨_, _, _⟩ hboth =>
        .pure ⟨hboth.before, hboth.value⟩
  | test value kind =>
    exact .bind (h.expr hctx (hc value List.mem_cons_self)) fun _ hvalue =>
      .bind (hctx.test kind hown hvalue.value) fun _ htest => .pure ⟨hvalue.before, htest⟩
  | ifThenElse guard thenExpr elseExpr =>
    exact h.conditional hctx (hc guard List.mem_cons_self)
      (hc thenExpr (by simp [Ir.Expr.children])) (hc elseExpr (by simp [Ir.Expr.children])) he.type
  | decisionTree dispatcher => exact h.expr (hctx.tree he) (hc dispatcher List.mem_cons_self)
  | success index =>
    exact .bind (.ofOption _ fun t ht => (hctx.targets t (List.mem_of_getElem? ht)).2)
      fun _ hbody => h.expr hctx hbody
  | curry inner =>
    exact .bind (h.expr hctx (hc inner List.mem_cons_self)) fun _ hvalue =>
      .bind (.any _) fun _ _ =>
        .pure ⟨hvalue.before, hctx.plain rfl, ⟨hvalue.value, trivial⟩, trivial⟩
  | throw | debugger | set | setIndex | letIn | letRec | sequence | whileLoop | forLoop
  | tryCatch => exact h.capture hctx he

omit h in

/-- In the expansion of a call, all annotations are of the kind. -/
theorem expansion?_gives (he : e.AllAtoms ctx.file.settings Q) :
    Produces (expansion? ctx e) fun o => ∀ expanded ∈ o, expanded.AllAtoms ctx.file.settings Q := by
  unfold expansion?
  split
  · intro s o t ho expanded hexpanded
    obtain rfl := Option.mem_def.1 hexpanded
    exact he.expansion ho
  · exact .pure nofun

/-- In any node in the place of an expression, all types come from annotations. -/
theorem exprRule (hctx : Annotated Q (P scope) ctx) (he : e.AllAtoms ctx.file.settings Q) :
    Produces (r.exprRule ctx hoists e) (Hoisted.AllTypes P scope (Expr.AllTypes P scope)) := by
  refine .bind (expansion?_gives he) fun expanded hexpanded => ?_
  cases expanded with
  | some expanded => exact h.expr hctx (hexpanded expanded rfl)
  | none =>
    exact .bind (.any _) fun _ _ => .ite (fun _ => h.capture hctx he) fun _ => h.exprCore hctx he

/-! ## Statements -/

/-- In nodes as expressions, all types come from annotations. -/
theorem values {es : List Ir.Expr} (hctx : Annotated Q (P scope) ctx)
    (hes : ∀ e ∈ es, e.AllAtoms ctx.file.settings Q) :
    Produces (r.values ctx es)
      (Hoisted.AllTypes P scope fun values => ∀ e ∈ values, e.AllTypes P scope) := by
  induction es with
  | nil => exact .pure ⟨trivial, nofun⟩
  | cons e es ih =>
    obtain ⟨he, hes⟩ := List.forall_mem_cons.1 hes
    exact .bind (h.expr hctx he) fun _ hfirst => .bind (ih hes) fun _ hrest =>
      .pure ⟨allTypesStmts_append.2 ⟨hfirst.before, hrest.before⟩,
        List.forall_mem_cons.2 ⟨hfirst.value, hrest.value⟩⟩

/-- In a self tail call, all types come from annotations. -/
theorem tailCall {loop : TailCall} {args : List Ir.Expr} (hctx : Annotated Q (P scope) ctx)
    (hloop : ∀ p ∈ loop.params, p.ty.All Q)
    (hargs : ∀ e ∈ args, e.AllAtoms ctx.file.settings Q) :
    Produces (r.tailCall ctx loop args) (AllTypesStmts P scope) := by
  refine .bind (.any _) fun _ _ => .bind (h.values hctx.withoutTailCall
    fun e he => hargs e (mem_of_mem_discardUnitArg he)) fun _ hvalues => ?_
  refine .bind (hctx.slotWrites (fun b hb => hloop b.1 (List.of_mem_zip hb).1) hvalues.value)
    fun _ hwrites => .pure ?_
  exact allTypesStmts_append.2
    ⟨allTypesStmts_append.2 ⟨hvalues.before, hwrites⟩, trivial, trivial⟩

/-- In a recursive let, all types come from annotations. -/
theorem recursive {bs : List Ir.Binding} (hctx : Annotated Q (P scope) ctx)
    (hbs : ∀ b ∈ bs, b.ident.ty.All Q ∧ b.value.AllAtoms ctx.file.settings Q) :
    Produces (r.recursive ctx bs) (AllTypesStmts P scope) := by
  induction bs with
  | nil => exact .pure trivial
  | cons b bs ih =>
    obtain ⟨hb, hbs⟩ := List.forall_mem_cons.1 hbs
    rcases recursive_cons r ctx b bs with ⟨params, body, name, hvalue, heq⟩ | heq
    · have hlambda : (∀ p ∈ params, p.ty.All Q) ∧ body.AllAtoms ctx.file.settings Q := by
        have huncast := hb.2.uncast
        rcases hvalue with hvalue | ⟨arg, rfl, hvalue⟩
        · rw [hvalue] at huncast
          exact ⟨fun p hp => huncast.own (List.mem_map_of_mem hp),
            huncast.child List.mem_cons_self⟩
        · rw [hvalue] at huncast
          refine ⟨fun p hp => ?_, huncast.child List.mem_cons_self⟩
          exact List.mem_singleton.1 hp ▸ huncast.own List.mem_cons_self
      rw [heq]
      exact .bind (h.localFunction hctx hlambda.1 hlambda.2) fun _ hfirst =>
        .bind (ih hbs) fun _ hrest => .pure ⟨hfirst, hrest⟩
    · rw [heq]
      exact .bind (h.declare hctx hb.1 hb.2) fun _ hfirst =>
        .bind (ih hbs) fun _ hrest => .pure (allTypesStmts_append.2 ⟨hfirst, hrest⟩)

/-- In a sequence, all types come from annotations. -/
theorem sequence {es : List Ir.Expr} (hctx : Annotated Q (P scope) ctx)
    (hplace : PlaceAllTypes P scope strategy) (hes : ∀ e ∈ es, e.AllAtoms ctx.file.settings Q) :
    Produces (r.sequence ctx strategy es) (AllTypesStmts P scope) := by
  induction es with
  | nil => exact .pure (allTypes_deliverUnit strategy)
  | cons e es ih =>
    obtain ⟨he, hes⟩ := List.forall_mem_cons.1 hes
    cases es with
    | nil => exact h.stmts hctx hplace he
    | cons =>
      exact .bind (h.stmts hctx.withoutTailCall trivial he) fun _ hfirst =>
        .bind (ih hes) fun _ hrest => .pure (allTypesStmts_append.2 ⟨hfirst, hrest⟩)

/-- In an assignment, all types come from annotations. -/
theorem assignment {place : Expr} (hctx : Annotated Q (P scope) ctx)
    (hplace : place.AllTypes P scope) (he : e.AllAtoms ctx.file.settings Q) :
    Produces (r.assignment ctx place e) (AllTypesStmts P scope) := by
  refine .bind (.any _) fun _ _ => .ite (fun _ => h.stmts hctx hplace he) fun _ => ?_
  exact .bind (h.expr hctx he) fun _ hvalue =>
    .pure (allTypesStmts_append.2 ⟨hvalue.before, ⟨hplace, hvalue.value⟩, trivial⟩)

omit h in

/-- In a loop, all types come from annotations. -/
theorem allTypes_whileStmt {guard : Hoisted Expr} {body : List Stmt}
    (hguard : guard.AllTypes P scope (Expr.AllTypes P scope)) (hbody : AllTypesStmts P scope body) :
    (whileStmt guard body).AllTypes P scope := by
  rw [whileStmt]
  split
  · exact ⟨hguard.value, hbody⟩
  · exact ⟨trivial, allTypesStmts_append.2
      ⟨hguard.before, ⟨hguard.value, ⟨trivial, trivial⟩, trivial⟩, hbody⟩⟩

/-- In a counting loop, all types come from annotations. -/
theorem forLoop {id : Ir.Ident} {start limit body : Ir.Expr} {isUp : Bool}
    (hctx : Annotated Q (P scope) ctx) (hid : id.ty.All Q)
    (hstart : start.AllAtoms ctx.file.settings Q) (hlimit : limit.AllAtoms ctx.file.settings Q)
    (hbody : body.AllAtoms ctx.file.settings Q) :
    Produces (r.forLoop ctx id start limit body isUp) (AllTypesStmts P scope) :=
  .bind (h.expr hctx hstart) fun _ hstart => .bind (h.expr hctx hlimit) fun _ hlimit =>
    .bind (h.stmts hctx trivial hbody) fun _ hstmts => .bind (hctx.lowerIdent hid)
      fun _ hplace => .pure (allTypesStmts_append.2
        ⟨allTypesStmts_append.2 ⟨hstart.before, hlimit.before⟩,
          ⟨hplace, hstart.value, hlimit.value, hstmts⟩, trivial⟩)

/-- In a handler, all types come from annotations. -/
theorem handler {hd : Option Ir.Handler} (hctx : Annotated Q (P scope) ctx)
    (hplace : PlaceAllTypes P scope strategy)
    (hhd : ∀ x ∈ hd, x.param.ty.All Q ∧ x.body.AllAtoms ctx.file.settings Q) :
    Produces (r.handler ctx strategy hd) (AllTypesHandler P scope) := by
  cases hd with
  | none => exact .pure trivial
  | some hd =>
    obtain ⟨hparam, hbody⟩ := hhd hd rfl
    exact .bind (hctx.lowerIdent hparam) fun _ hparam =>
      .bind (h.stmts hctx hplace hbody) fun _ hstmts => .pure ⟨hparam, hstmts⟩

/-- In a finalizer, all types come from annotations. -/
theorem finalizer {o : Option Ir.Expr} (hctx : Annotated Q (P scope) ctx)
    (ho : ∀ e ∈ o, e.AllAtoms ctx.file.settings Q) :
    Produces (r.finalizer ctx o) (AllTypesFinalizer P scope) := by
  cases o with
  | none => exact .pure trivial
  | some e => exact .bind (h.stmts hctx trivial (ho e rfl)) fun _ hstmts => .pure hstmts

omit h in

/-- In declarations of what targets bind, all types come from annotations. -/
theorem targetVariables_gives {targets : List Ir.Target} (hctx : Annotated Q (P scope) ctx)
    (hts : ∀ t ∈ targets, ∀ id ∈ t.bound, id.ty.All Q) :
    Produces (targetVariables ctx targets) (AllTypesStmts P scope) := by
  refine .bind (hctx.lowerIdents fun id hid => ?_) fun ids hids => .pure ?_
  · obtain ⟨t, ht, hid⟩ := List.mem_flatMap.1 hid
    exact hts t (List.mem_filter.1 ht).1 id hid
  · induction ids with
    | nil => exact trivial
    | cons id ids ih =>
      obtain ⟨hid, hids⟩ := List.forall_mem_cons.1 hids
      exact ⟨⟨hid, trivial⟩, ih hids⟩

/-- In the bodies of targets, all types come from annotations. -/
theorem targetBodies {ts : List Ir.Target} (hctx : Annotated Q (P scope) ctx)
    (hplace : PlaceAllTypes P scope strategy)
    (hts : ∀ t ∈ ts, t.body.AllAtoms ctx.file.settings Q) :
    Produces (r.targetBodies ctx strategy ts) fun bodies =>
      ∀ b ∈ bodies, AllTypesStmts P scope b := by
  induction ts with
  | nil => exact .pure nofun
  | cons t ts ih =>
    obtain ⟨ht, hts⟩ := List.forall_mem_cons.1 hts
    exact .bind (h.stmts hctx hplace ht) fun _ hbody => .bind (ih hts) fun _ hrest =>
      .pure (List.forall_mem_cons.2 ⟨hbody, hrest⟩)

omit h in

/-- The switch over the selected target only adds plain types. -/
theorem allTypes_dispatch {join : String} {bodies : List (List Stmt)}
    (hplain : ∀ {ty : Ty}, ty.atoms = [] → P scope ty)
    (hbodies : ∀ b ∈ bodies, AllTypesStmts P scope b) :
    (dispatch join bodies).AllTypes P scope := by
  have hcases : ∀ {numbered : List (List Stmt × Nat)},
      (∀ c ∈ numbered, AllTypesStmts P scope c.1) →
      AllTypesCases P scope (numbered.map fun c => ⟨[.integer c.2], c.1⟩) := by
    intro numbered hnumbered
    induction numbered with
    | nil => exact trivial
    | cons c numbered ih =>
      obtain ⟨hc, hnumbered⟩ := List.forall_mem_cons.1 hnumbered
      exact ⟨⟨trivial, trivial⟩, hc, ih hnumbered⟩
  refine ⟨hplain rfl, hcases fun c hc => hbodies _ ?_, ?_⟩
  · exact List.dropLast_subset _ (List.fst_mem_of_mem_zipIdx hc)
  · cases hlast : bodies.getLast? with
    | none => exact trivial
    | some last => exact hbodies last (List.mem_of_getLast? hlast)

/-- In a decision tree, all types come from annotations. -/
theorem decisionTree {dispatcher : Ir.Expr} {targets : List Ir.Target}
    (hctx : Annotated Q (P scope) ctx) (hplace : PlaceAllTypes P scope strategy)
    (he : (Ir.Expr.decisionTree dispatcher targets).AllAtoms ctx.file.settings Q) :
    Produces (r.decisionTree ctx strategy dispatcher targets) (AllTypesStmts P scope) := by
  have htree := hctx.tree he
  have hdispatcher := he.child (c := dispatcher) List.mem_cons_self
  refine .ite (fun _ => h.stmts htree hplace hdispatcher) fun _ => .bind (.any _) fun join _ =>
    .bind (targetVariables_gives hctx fun t ht => (htree.targets t ht).1) fun _ hdeclared => ?_
  refine .bind (h.stmts htree.withoutTailCall trivial hdispatcher) fun _ hselect =>
    .bind (h.targetBodies hctx hplace fun t ht => (htree.targets t ht).2) fun _ hbodies =>
      .pure ?_
  refine allTypesStmts_append.2 ⟨?_, allTypes_dispatch hctx.plain hbodies, trivial⟩
  exact ⟨⟨hctx.plain rfl, trivial⟩, allTypesStmts_append.2 ⟨hdeclared, hselect⟩⟩

/-- In declarations of what a target binds, all types come from annotations. -/
theorem bindings {ids : List Ir.Ident} {values : List Ir.Expr} (hctx : Annotated Q (P scope) ctx)
    (hids : ∀ id ∈ ids, id.ty.All Q) (hvalues : ∀ e ∈ values, e.AllAtoms ctx.file.settings Q) :
    Produces (r.bindings ctx ids values) (AllTypesStmts P scope) := by
  induction ids generalizing values with
  | nil => exact .pure trivial
  | cons id ids ih =>
    cases values with
    | nil => exact .pure trivial
    | cons value values =>
      obtain ⟨hid, hids⟩ := List.forall_mem_cons.1 hids
      obtain ⟨hvalue, hvalues⟩ := List.forall_mem_cons.1 hvalues
      exact .bind (h.declare hctx hid hvalue) fun _ hfirst =>
        .bind (ih hids hvalues) fun _ hrest => .pure (allTypesStmts_append.2 ⟨hfirst, hrest⟩)

/-- In assignments to what a target binds, all types come from annotations. -/
theorem assignments {ids : List Ir.Ident} {values : List Ir.Expr}
    (hctx : Annotated Q (P scope) ctx) (hids : ∀ id ∈ ids, id.ty.All Q)
    (hvalues : ∀ e ∈ values, e.AllAtoms ctx.file.settings Q) :
    Produces (r.assignments ctx ids values) (AllTypesStmts P scope) := by
  induction ids generalizing values with
  | nil => exact .pure trivial
  | cons id ids ih =>
    cases values with
    | nil => exact .pure trivial
    | cons value values =>
      obtain ⟨hid, hids⟩ := List.forall_mem_cons.1 hids
      obtain ⟨hvalue, hvalues⟩ := List.forall_mem_cons.1 hvalues
      exact .bind (hctx.lowerIdent hid) fun _ hplace =>
        .bind (h.stmts hctx.withoutTailCall hplace hvalue) fun _ hfirst =>
          .bind (ih hids hvalues) fun _ hrest => .pure (allTypesStmts_append.2 ⟨hfirst, hrest⟩)

/-- In a success node, all types come from annotations. -/
theorem success {index : Nat} {values : List Ir.Expr} (hctx : Annotated Q (P scope) ctx)
    (hplace : PlaceAllTypes P scope strategy)
    (hvalues : ∀ e ∈ values, e.AllAtoms ctx.file.settings Q) :
    Produces (r.success ctx strategy index values) (AllTypesStmts P scope) := by
  refine .bind (.ofOption _ fun t ht => hctx.targets t (List.mem_of_getElem? ht)) fun t ht => ?_
  cases strategy with
  | join =>
    exact .bind (h.assignments hctx ht.1 hvalues) fun _ hstmts =>
      .pure (allTypesStmts_append.2 ⟨hstmts, ⟨hctx.plain rfl, trivial⟩, trivial⟩)
  | ret | effect | assign =>
    exact .bind (h.bindings hctx ht.1 hvalues) fun _ hstmts =>
      .bind (h.stmts hctx hplace ht.2) fun _ hbody =>
        .pure (allTypesStmts_append.2 ⟨hstmts, hbody⟩)

/-- In a conditional statement, all types come from annotations. -/
theorem conditionalStmts {guard thenExpr elseExpr : Ir.Expr} (hctx : Annotated Q (P scope) ctx)
    (hplace : PlaceAllTypes P scope strategy) (hguard : guard.AllAtoms ctx.file.settings Q)
    (hthen : thenExpr.AllAtoms ctx.file.settings Q)
    (helse : elseExpr.AllAtoms ctx.file.settings Q) :
    Produces (r.conditionalStmts ctx strategy guard thenExpr elseExpr) (AllTypesStmts P scope) :=
  .bind (h.expr hctx.withoutTailCall hguard) fun _ htest =>
    .bind (h.stmts hctx hplace hthen) fun _ hthen =>
      .bind (h.stmts hctx hplace helse) fun _ helse =>
        .pure (allTypesStmts_append.2 ⟨htest.before, ⟨htest.value, hthen, helse⟩, trivial⟩)

/-- In any node in the place of statements, all types come from annotations. -/
theorem stmtsRule (hctx : Annotated Q (P scope) ctx) (hplace : PlaceAllTypes P scope strategy)
    (he : e.AllAtoms ctx.file.settings Q) :
    Produces (r.stmtsRule ctx strategy e) (AllTypesStmts P scope) := by
  have hc := fun c => he.child (c := c)
  have hplain := hctx.withoutTailCall
  cases e with
  | cast inner =>
    exact .bind (.any _) fun _ _ =>
      .ite (fun _ => h.stmts hctx hplace (hc inner List.mem_cons_self))
        fun _ => h.delivered hctx hplace he
  | call callee receiver args isNew =>
    unfold Parts.stmtsRule
    dsimp only
    split
    · rename_i loop hloop
      refine h.tailCall hctx (hctx.slots loop (Option.filter_eq_some_iff.1 hloop).1) fun e he => ?_
      exact hc e (List.mem_cons_of_mem _ (List.mem_append_right _ he))
    · exact h.delivered hctx hplace he
  | ifThenElse guard thenExpr elseExpr =>
    exact .bind (.any _) fun _ _ => .ite
      (fun _ => h.conditionalStmts hctx hplace (hc guard List.mem_cons_self)
        (hc thenExpr (by simp [Ir.Expr.children])) (hc elseExpr (by simp [Ir.Expr.children])))
      fun _ => h.delivered hctx hplace he
  | decisionTree => exact h.decisionTree hctx hplace he
  | success => exact h.success hctx hplace hc
  | letIn id value body =>
    exact .bind (h.declare hctx (he.own List.mem_cons_self) (hc value List.mem_cons_self))
      fun _ hfirst => .bind (h.stmts hctx hplace (hc body (by simp [Ir.Expr.children])))
        fun _ hbody => .pure (allTypesStmts_append.2 ⟨hfirst, hbody⟩)
  | letRec bs body =>
    refine .bind (h.recursive hctx fun b hb => ⟨?_, ?_⟩) fun _ hfirst =>
      .bind (h.stmts hctx hplace (hc body (by simp [Ir.Expr.children]))) fun _ hbody =>
        .pure (allTypesStmts_append.2 ⟨hfirst, hbody⟩)
    · exact he.own (List.mem_map_of_mem hb)
    · exact hc _ (List.mem_append_left _ (List.mem_map_of_mem hb))
  | sequence => exact h.sequence hctx hplace hc
  | set target field value =>
    refine .bind (h.expr hplain (hc target List.mem_cons_self)) fun _ htarget =>
      .bind (h.assignment hplain ?_ (hc value (by simp [Ir.Expr.children]))) fun _ hstmts => ?_
    · cases field <;> exact htarget.value
    · exact .pure (allTypesStmts_append.2
        ⟨allTypesStmts_append.2 ⟨htarget.before, hstmts⟩, allTypes_deliverUnit _⟩)
  | setIndex target index value =>
    refine .bind (h.expr hplain (hc target List.mem_cons_self)) fun _ htarget =>
      .bind (h.expr hplain (hc index (by simp [Ir.Expr.children]))) fun _ hindex =>
        .bind (h.assignment hplain ⟨htarget.value, hindex.value⟩
          (hc value (by simp [Ir.Expr.children]))) fun _ hstmts => .pure ?_
    exact allTypesStmts_append.2 ⟨allTypesStmts_append.2
      ⟨allTypesStmts_append.2 ⟨htarget.before, hindex.before⟩, hstmts⟩, allTypes_deliverUnit _⟩
  | whileLoop guard body =>
    exact .bind (h.expr hplain (hc guard List.mem_cons_self)) fun _ hguard =>
      .bind (h.stmts hplain trivial (hc body (by simp [Ir.Expr.children]))) fun _ hbody =>
        .pure ⟨allTypes_whileStmt hguard hbody, allTypes_deliverUnit _⟩
  | forLoop id start limit body =>
    exact .bind (h.forLoop hplain (he.own List.mem_cons_self) (hc start List.mem_cons_self)
      (hc limit (by simp [Ir.Expr.children])) (hc body (by simp [Ir.Expr.children])))
        fun _ hstmts => .pure (allTypesStmts_append.2 ⟨hstmts, allTypes_deliverUnit _⟩)
  | tryCatch body hd fin =>
    refine .bind (h.stmts hplain hplace (hc body List.mem_cons_self)) fun _ hblock =>
      .bind (h.handler hplain hplace fun x hx => ⟨?_, ?_⟩) fun _ hhandler =>
        .bind (h.finalizer hplain fun e he => ?_) fun _ hfinalizer =>
          .pure ⟨⟨hblock, hhandler, hfinalizer⟩, trivial⟩
    · obtain rfl := Option.mem_def.1 hx
      exact he.own List.mem_cons_self
    · obtain rfl := Option.mem_def.1 hx
      exact hc x.body (by simp [Ir.Expr.children])
    · obtain rfl := Option.mem_def.1 he
      exact hc e (by simp [Ir.Expr.children])
  | throw error =>
    cases error with
    | some error =>
      exact .bind (h.expr hplain (hc error List.mem_cons_self)) fun _ hvalue =>
        .pure (allTypesStmts_append.2 ⟨hvalue.before, hvalue.value, trivial⟩)
    | none => exact .pure ⟨trivial, trivial⟩
  | debugger =>
    exact .bind (.any _) fun _ _ =>
      .pure ⟨⟨hctx.plain rfl, trivial, trivial⟩, allTypes_deliverUnit _⟩
  | emit template args isStatement =>
    cases isStatement with
    | true =>
      exact .bind (h.operands hplain hc) fun _ hargs => .pure (allTypesStmts_append.2
        ⟨hargs.before, allTypesItems_iff.2 hargs.value, allTypes_deliverUnit _⟩)
    | false => exact h.delivered hctx hplace he
  | literal | option | aggregate | ident | imported | lambda | delegate | object | apply | unary
  | binary | logical | get | getIndex | test | curry => exact h.delivered hctx hplace he

end Parts.KeepsTypes

/-! ## The rules -/

/-- All types in what a node is lowered to come from annotations. -/
theorem rules_keepTypes (Q : Ir.Ty → Prop) (P : List String → Ty → Prop) (scope : List String)
    (n : Nat) : (rules n).KeepsTypes Q P scope := by
  induction n with
  | zero => exact ⟨fun _ _ => .fail _, fun _ _ _ => .fail _⟩
  | succ n ih => exact ⟨ih.exprRule, ih.stmtsRule⟩

end Dart

end TypedLowering
