import Mathlib.Data.List.Basic
import TypedLowering.Ir.Declaration
import TypedLowering.Lowering.Sharing
import TypedLowering.Proofs.Ir.Uses

/-!
# Changing the locations of expressions

A relocation changes every location of a tree and nothing else: it keeps them all, or it erases
them. What is read off the shape of an expression is the same afterwards (`type_relocate`,
`selected_relocate`, `subterms_relocate`), and locations change only as the relocation says
(`location_relocate`).
-/

namespace TypedLowering

/-- What becomes of locations. A node that has none gets none, and a location that is put over
another one is still put over it. -/
structure Relocation where
  map : Option Ir.Location → Option Ir.Location
  map_none : map none = none
  map_or : ∀ a b, map (a.or b) = (map a).or (map b)

namespace Relocation

/-- All locations stay. -/
def same : Relocation := ⟨id, rfl, fun _ _ => rfl⟩

/-- All locations are erased. -/
def erase : Relocation := ⟨fun _ => none, rfl, fun _ _ => rfl⟩

/-- One relocation after the other. -/
def andThen (ρ σ : Relocation) : Relocation where
  map loc := σ.map (ρ.map loc)
  map_none := by rw [ρ.map_none, σ.map_none]
  map_or a b := by rw [ρ.map_or, σ.map_or]

/-- Erasing locations twice is erasing them once. -/
theorem erase_andThen_erase : erase.andThen erase = erase := rfl

end Relocation

namespace Ir

variable (ρ : Relocation)

/-! ## Trees -/

/-- An identifier with its location changed. -/
def Ident.relocate (id : Ident) : Ident := { id with loc := ρ.map id.loc }

namespace Expr

mutual

/-- The expression with its locations changed. -/
def relocate : Expr → Expr
  | .literal value loc => .literal value (ρ.map loc)
  | .option value ty loc => .option (relocateOption value) ty (ρ.map loc)
  | .aggregate kind values loc => .aggregate kind (relocateList values) (ρ.map loc)
  | .ident id => .ident (id.relocate ρ)
  | .cast expr ty => .cast expr.relocate ty
  | .imported ref ty loc => .imported ref ty (ρ.map loc)
  | .lambda arg body name => .lambda (arg.relocate ρ) body.relocate name
  | .delegate args body name => .delegate (args.map (·.relocate ρ)) body.relocate name
  | .object members ty base => .object (relocateMembers members) ty (relocateOption base)
  | .call callee receiver args isNew ty loc =>
    .call callee.relocate (relocateOption receiver) (relocateList args) isNew ty (ρ.map loc)
  | .apply applied args ty loc => .apply applied.relocate (relocateList args) ty (ρ.map loc)
  | .unary op operand ty loc => .unary op operand.relocate ty (ρ.map loc)
  | .binary op left right ty loc => .binary op left.relocate right.relocate ty (ρ.map loc)
  | .logical op left right ty loc => .logical op left.relocate right.relocate ty (ρ.map loc)
  | .emit template args isStatement ty loc =>
    .emit template (relocateList args) isStatement ty (ρ.map loc)
  | .get obj access ty loc => .get obj.relocate access ty (ρ.map loc)
  | .getIndex obj index ty loc => .getIndex obj.relocate index.relocate ty (ρ.map loc)
  | .set target field value loc => .set target.relocate field value.relocate (ρ.map loc)
  | .setIndex target index value loc =>
    .setIndex target.relocate index.relocate value.relocate (ρ.map loc)
  | .test expr kind loc => .test expr.relocate kind (ρ.map loc)
  | .ifThenElse guard thenExpr elseExpr loc =>
    .ifThenElse guard.relocate thenExpr.relocate elseExpr.relocate (ρ.map loc)
  | .decisionTree dispatcher targets =>
    .decisionTree dispatcher.relocate (relocateTargets targets)
  | .success index values ty => .success index (relocateList values) ty
  | .letIn id value body => .letIn (id.relocate ρ) value.relocate body.relocate
  | .letRec bindings body => .letRec (relocateBindings bindings) body.relocate
  | .sequence exprs => .sequence (relocateList exprs)
  | .whileLoop guard body loc => .whileLoop guard.relocate body.relocate (ρ.map loc)
  | .forLoop id start limit body isUp loc =>
    .forLoop (id.relocate ρ) start.relocate limit.relocate body.relocate isUp (ρ.map loc)
  | .tryCatch body handler finalizer loc =>
    .tryCatch body.relocate (relocateHandler handler) (relocateOption finalizer) (ρ.map loc)
  | .throw error ty loc => .throw (relocateOption error) ty (ρ.map loc)
  | .debugger loc => .debugger (ρ.map loc)
  | .curry expr arity loc => .curry expr.relocate arity (ρ.map loc)

/-- An expression that may be missing, with its locations changed. -/
def relocateOption : Option Expr → Option Expr
  | none => none
  | some e => some e.relocate

/-- Expressions, with their locations changed. -/
def relocateList : List Expr → List Expr
  | [] => []
  | e :: es => e.relocate :: relocateList es

/-- The members of an object, with their locations changed. -/
def relocateMembers : List ObjectMember → List ObjectMember
  | [] => []
  | ⟨name, args, body, kind⟩ :: rest =>
    ⟨name, args.map (·.relocate ρ), body.relocate, kind⟩ :: relocateMembers rest

/-- Targets, with their locations changed. -/
def relocateTargets : List Target → List Target
  | [] => []
  | ⟨bound, body⟩ :: rest => ⟨bound.map (·.relocate ρ), body.relocate⟩ :: relocateTargets rest

/-- Bindings, with their locations changed. -/
def relocateBindings : List Binding → List Binding
  | [] => []
  | ⟨id, value⟩ :: rest => ⟨id.relocate ρ, value.relocate⟩ :: relocateBindings rest

/-- A handler that may be missing, with its locations changed. -/
def relocateHandler : Option Handler → Option Handler
  | none => none
  | some ⟨param, body⟩ => some ⟨param.relocate ρ, body.relocate⟩

end

end Expr

/-- A member of an object with its locations changed. -/
def ObjectMember.relocate (m : ObjectMember) : ObjectMember :=
  { m with args := m.args.map (·.relocate ρ), body := m.body.relocate ρ }

/-- A target with its locations changed. -/
def Target.relocate (t : Target) : Target :=
  ⟨t.bound.map (·.relocate ρ), t.body.relocate ρ⟩

/-- A binding with its locations changed. -/
def Binding.relocate (b : Binding) : Binding :=
  ⟨b.ident.relocate ρ, b.value.relocate ρ⟩

/-- A handler with its locations changed. -/
def Handler.relocate (h : Handler) : Handler :=
  ⟨h.param.relocate ρ, h.body.relocate ρ⟩

/-- A member of a module or a class with its locations changed. -/
def Member.relocate (m : Member) : Member :=
  { m with args := m.args.map (·.relocate ρ), body := m.body.relocate ρ, loc := ρ.map m.loc }

/-- An action with its locations changed. -/
def Action.relocate (a : Action) : Action := { a with body := a.body.relocate ρ }

/-- A class with its locations changed. -/
def ClassDecl.relocate (c : ClassDecl) : ClassDecl :=
  { c with
    constructor := c.constructor.map (·.relocate ρ), members := c.members.map (·.relocate ρ) }

namespace Declaration

mutual

/-- The declaration with its locations changed. -/
def relocate : Declaration → Declaration
  | .module name members => .module name (relocateList members)
  | .action a => .action (a.relocate ρ)
  | .member m => .member (m.relocate ρ)
  | .classDecl c => .classDecl (c.relocate ρ)

/-- Declarations, with their locations changed. -/
def relocateList : List Declaration → List Declaration
  | [] => []
  | d :: ds => d.relocate :: relocateList ds

end

end Declaration

/-- A declaration that is lowered by itself, with its locations changed. -/
def Leaf.relocate : Leaf → Leaf
  | .action a => .action (a.relocate ρ)
  | .member m => .member (m.relocate ρ)
  | .classDecl c => .classDecl (c.relocate ρ)

/-- A file with its locations changed. -/
def File.relocate (f : File) : File :=
  { f with declarations := Declaration.relocateList ρ f.declarations }

/-! ## Lists of parts -/

namespace Expr

variable {ρ}

/-- An expression that may be missing is relocated where there is one. -/
@[simp] theorem relocateOption_eq (o : Option Expr) :
    relocateOption ρ o = o.map (·.relocate ρ) := by
  cases o <;> rfl

/-- Expressions are relocated one by one. -/
@[simp] theorem relocateList_eq (es : List Expr) :
    relocateList ρ es = es.map (·.relocate ρ) := by
  induction es with
  | nil => rfl
  | cons e es ih => rw [relocateList, ih, List.map_cons]

/-- The members of an object are relocated one by one. -/
@[simp] theorem relocateMembers_eq (ms : List ObjectMember) :
    relocateMembers ρ ms = ms.map (·.relocate ρ) := by
  induction ms with
  | nil => rfl
  | cons m ms ih =>
    obtain ⟨_, _, _, _⟩ := m
    rw [relocateMembers, ih, List.map_cons]
    rfl

/-- Targets are relocated one by one. -/
@[simp] theorem relocateTargets_eq (ts : List Target) :
    relocateTargets ρ ts = ts.map (·.relocate ρ) := by
  induction ts with
  | nil => rfl
  | cons t ts ih =>
    obtain ⟨_, _⟩ := t
    rw [relocateTargets, ih, List.map_cons]
    rfl

/-- Bindings are relocated one by one. -/
@[simp] theorem relocateBindings_eq (bs : List Binding) :
    relocateBindings ρ bs = bs.map (·.relocate ρ) := by
  induction bs with
  | nil => rfl
  | cons b bs ih =>
    obtain ⟨_, _⟩ := b
    rw [relocateBindings, ih, List.map_cons]
    rfl

/-- A handler that may be missing is relocated where there is one. -/
@[simp] theorem relocateHandler_eq (h : Option Handler) :
    relocateHandler ρ h = h.map (·.relocate ρ) := by
  cases h with
  | none => rfl
  | some h =>
    obtain ⟨_, _⟩ := h
    rfl

end Expr

variable {ρ}

/-- A relocated identifier keeps its name. -/
@[simp] theorem Ident.relocate_name (id : Ident) : (id.relocate ρ).name = id.name := rfl

/-- A relocated identifier keeps its type. -/
@[simp] theorem Ident.relocate_ty (id : Ident) : (id.relocate ρ).ty = id.ty := rfl

/-- A relocated identifier is the receiver alike. -/
@[simp] theorem Ident.relocate_isThis (id : Ident) : (id.relocate ρ).isThis = id.isThis := rfl

/-- The body of a relocated member is the relocated body. -/
@[simp] theorem ObjectMember.relocate_body (m : ObjectMember) :
    (m.relocate ρ).body = m.body.relocate ρ := rfl

/-- A relocated target binds the relocated identifiers. -/
@[simp] theorem Target.relocate_bound (t : Target) :
    (t.relocate ρ).bound = t.bound.map (·.relocate ρ) := rfl

/-- The body of a relocated target is the relocated body. -/
@[simp] theorem Target.relocate_body (t : Target) : (t.relocate ρ).body = t.body.relocate ρ := rfl

/-- The body of a relocated handler is the relocated body. -/
@[simp] theorem Handler.relocate_body (h : Handler) : (h.relocate ρ).body = h.body.relocate ρ := rfl

/-- The value of a relocated binding is the relocated value. -/
@[simp] theorem Binding.relocate_value (b : Binding) :
    (b.relocate ρ).value = b.value.relocate ρ := rfl

/-- Declarations are relocated one by one. -/
@[simp] theorem Declaration.relocateList_eq (ds : List Declaration) :
    Declaration.relocateList ρ ds = ds.map (·.relocate ρ) := by
  induction ds with
  | nil => rfl
  | cons d ds ih => rw [Declaration.relocateList, ih, List.map_cons]

mutual

/-- The leaves of a relocated declaration are the relocated leaves. -/
theorem Declaration.leaves_relocate : (d : Declaration) →
    (d.relocate ρ).leaves = d.leaves.map (·.relocate ρ)
  | .module _ members => by
    simpa only [relocate, leaves, relocateList_eq] using Declaration.leavesList_relocate members
  | .action _ | .member _ | .classDecl _ => rfl

/-- Relocated declarations have the relocated leaves. -/
theorem Declaration.leavesList_relocate : (ds : List Declaration) →
    Declaration.leavesList (ds.map (·.relocate ρ)) =
      (Declaration.leavesList ds).map (·.relocate ρ)
  | [] => rfl
  | d :: ds => by
    simp only [List.map_cons, leavesList, Declaration.leaves_relocate d,
      Declaration.leavesList_relocate ds, List.map_append]

end

/-! ## What does not change -/

namespace Expr

/-- The children of a relocated expression are the relocated children. -/
theorem children_relocate (e : Expr) :
    (e.relocate ρ).children = e.children.map (·.relocate ρ) := by
  cases e with
  | option value | throw value => cases value <;> simp [relocate, children]
  | object _ _ base => cases base <;> simp [relocate, children]
  | call _ receiver => cases receiver <;> simp [relocate, children]
  | tryCatch _ handler finalizer => cases handler <;> cases finalizer <;> simp [relocate, children]
  | _ => simp [relocate, children]

/-- The subterms of a relocated expression are the relocated subterms. -/
theorem subterms_relocate (e : Expr) :
    (e.relocate ρ).subterms = e.subterms.map (·.relocate ρ) := by
  induction e using induction_on_children with
  | h e ih =>
    rw [subterms_eq, subterms_eq e, children_relocate, List.map_cons, List.flatMap_map,
      List.map_flatMap, List.flatMap_congr ih]

mutual

/-- A relocated expression has the same type. -/
theorem type_relocate : (e : Expr) → (e.relocate ρ).type = e.type
  | .aggregate kind values _ => by
    cases kind <;> simp only [relocate, type, relocateList_eq, types_relocate values]
  | .lambda _ body _ | .letIn _ _ body | .letRec _ body => by
    simp only [relocate, type, type_relocate body, Ident.relocate_ty]
  | .delegate args body _ => by
    simp [relocate, type, type_relocate body]
  | .ifThenElse _ body _ _ | .tryCatch body _ _ _ | .curry body _ _ => by
    simp only [relocate, type, type_relocate body]
  | .decisionTree _ targets => by
    simp only [relocate, type, relocateTargets_eq, firstType_relocate targets]
  | .sequence exprs => by
    simp only [relocate, type, relocateList_eq, lastType_relocate exprs]
  | .literal .. | .option .. | .ident _ | .cast .. | .imported .. | .object .. | .call ..
  | .apply .. | .unary .. | .binary .. | .logical .. | .emit .. | .get .. | .getIndex ..
  | .success .. | .throw .. | .test .. | .set .. | .setIndex .. | .whileLoop .. | .forLoop ..
  | .debugger _ => rfl

/-- Relocated expressions have the same types. -/
theorem types_relocate : (es : List Expr) → types (es.map (·.relocate ρ)) = types es
  | [] => rfl
  | e :: es => by simp only [List.map_cons, types, type_relocate e, types_relocate es]

/-- The first of relocated targets has the same type. -/
theorem firstType_relocate : (ts : List Target) →
    firstType (ts.map (·.relocate ρ)) = firstType ts
  | [] => rfl
  | ⟨_, body⟩ :: _ => type_relocate body

/-- The last of relocated expressions has the same type. -/
theorem lastType_relocate : (es : List Expr) → lastType (es.map (·.relocate ρ)) = lastType es
  | [] => rfl
  | [e] => type_relocate e
  | _ :: e :: es => lastType_relocate (e :: es)

end

/-- A relocated expression is of the same kind. -/
theorem kindName_relocate (e : Expr) : (e.relocate ρ).kindName = e.kindName := by
  cases e <;> rfl

/-- The location of a relocated expression is the changed one. -/
theorem location_relocate (e : Expr) : (e.relocate ρ).location = ρ.map e.location := by
  induction e using induction_on_children with
  | h e ih =>
    cases e with
    | cast inner => exact ih inner List.mem_cons_self
    | lambda _ body | delegate _ body => exact ih body List.mem_cons_self
    | letIn _ _ body | letRec _ body => exact ih body (by simp [children])
    | object | decisionTree | success | sequence => exact ρ.map_none.symm
    | _ => rfl

/-- What stands under the casts of a relocated expression is relocated. -/
theorem uncast_relocate (e : Expr) : (e.relocate ρ).uncast = e.uncast.relocate ρ := by
  induction e using induction_on_children with
  | h e ih =>
    cases e with
    | cast inner => exact ih inner List.mem_cons_self
    | _ => rfl

/-- A relocated expression is the unit constant alike. -/
theorem isUnitConstant_relocate (e : Expr) :
    (e.relocate ρ).isUnitConstant = e.isUnitConstant := by
  rw [isUnitConstant, isUnitConstant, uncast_relocate]
  cases e.uncast with
  | literal value => cases value <;> rfl
  | _ => rfl

/-- A relocated expression is the receiver alike. -/
theorem isReceiver_relocate (e : Expr) : (e.relocate ρ).isReceiver = e.isReceiver := by
  rw [isReceiver, isReceiver, uncast_relocate]
  cases e.uncast with
  | literal value => cases value <;> rfl
  | _ => rfl

mutual

/-- A relocated expression selects the same targets. -/
theorem selected_relocate : (e : Expr) → (e.relocate ρ).selected = e.selected
  | .decisionTree .. | .literal .. | .ident _ | .imported .. | .debugger _ => rfl
  | .success _ values _ | .aggregate _ values _ | .emit _ values _ _ _ | .sequence values => by
    simp only [relocate, selected, selectedList_relocate values]
  | .option value _ _ | .throw value _ _ => by
    simp only [relocate, selected, selectedOption_relocate value]
  | .cast expr _ | .test expr _ _ | .curry expr _ _ | .lambda _ expr _ | .delegate _ expr _
  | .unary _ expr _ _ | .get expr _ _ _ => by
    simp only [relocate, selected, selected_relocate expr]
  | .object members _ base => by
    simp only [relocate, selected, selectedMembers_relocate members, selectedOption_relocate base]
  | .call callee receiver args _ _ _ => by
    simp only [relocate, selected, selected_relocate callee, selectedOption_relocate receiver,
      selectedList_relocate args]
  | .apply applied args _ _ => by
    simp only [relocate, selected, selected_relocate applied, selectedList_relocate args]
  | .binary _ left right _ _ | .logical _ left right _ _ | .getIndex left right _ _
  | .set left _ right _ | .letIn _ left right | .whileLoop left right _ => by
    simp only [relocate, selected, selected_relocate left, selected_relocate right]
  | .setIndex first second third _ | .ifThenElse first second third _
  | .forLoop _ first second third _ _ => by
    simp only [relocate, selected, selected_relocate first, selected_relocate second,
      selected_relocate third]
  | .letRec bindings body => by
    simp only [relocate, selected, selectedBindings_relocate bindings, selected_relocate body]
  | .tryCatch body handler finalizer _ => by
    simp only [relocate, selected, selected_relocate body, selectedHandler_relocate handler,
      selectedOption_relocate finalizer]

/-- Relocated, an expression that may be missing selects the same targets. -/
theorem selectedOption_relocate : (o : Option Expr) →
    selectedOption (relocateOption ρ o) = selectedOption o
  | none => rfl
  | some e => selected_relocate e

/-- Relocated, expressions select the same targets. -/
theorem selectedList_relocate : (es : List Expr) →
    selectedList (relocateList ρ es) = selectedList es
  | [] => rfl
  | e :: es => by
    simp only [relocateList, selectedList, selected_relocate e, selectedList_relocate es]

/-- Relocated, the members of an object select the same targets. -/
theorem selectedMembers_relocate : (ms : List ObjectMember) →
    selectedMembers (relocateMembers ρ ms) = selectedMembers ms
  | [] => rfl
  | ⟨_, _, body, _⟩ :: ms => by
    simp only [relocateMembers, selectedMembers, selected_relocate body,
      selectedMembers_relocate ms]

/-- Relocated, bindings select the same targets. -/
theorem selectedBindings_relocate : (bs : List Binding) →
    selectedBindings (relocateBindings ρ bs) = selectedBindings bs
  | [] => rfl
  | ⟨_, value⟩ :: bs => by
    simp only [relocateBindings, selectedBindings, selected_relocate value,
      selectedBindings_relocate bs]

/-- Relocated, a handler that may be missing selects the same targets. -/
theorem selectedHandler_relocate : (h : Option Handler) →
    selectedHandler (relocateHandler ρ h) = selectedHandler h
  | none => rfl
  | some ⟨_, body⟩ => selected_relocate body

end

/-- A relocated dispatcher shares the same targets. -/
theorem sharedTargets_relocate (e : Expr) (count : Nat) :
    (e.relocate ρ).sharedTargets count = e.sharedTargets count := by
  rw [sharedTargets, sharedTargets, selected_relocate]

end Expr

/-! ## Renaming -/

/-- Relocated identifiers hide the same names of a renaming. -/
theorem Renaming.under_relocate (r : Renaming) (ids : List Ident) :
    r.under (ids.map (·.relocate ρ)) = r.under ids := by
  simp [Renaming.under, Function.comp_def]

namespace Expr

mutual

/-- Renaming does not touch locations. -/
theorem rename_relocate (r : Renaming) : (e : Expr) →
    (e.relocate ρ).rename r = (e.rename r).relocate ρ
  | .literal .. | .ident _ | .imported .. | .debugger _ => rfl
  | .success _ values _ | .aggregate _ values _ | .emit _ values _ _ _ | .sequence values => by
    simp only [relocate, rename, renameList_relocate r values]
  | .option value _ _ | .throw value _ _ => by
    simp only [relocate, rename, renameOption_relocate r value]
  | .cast expr _ | .test expr _ _ | .curry expr _ _ | .unary _ expr _ _ | .get expr _ _ _ => by
    simp only [relocate, rename, rename_relocate r expr]
  | .lambda arg body _ => by
    simp only [relocate, rename, ← rename_relocate (r.under [arg]) body]
    rfl
  | .delegate args body _ => by
    simp only [relocate, rename, Renaming.under_relocate, rename_relocate (r.under args) body]
  | .object members _ base => by
    simp only [relocate, rename, renameMembers_relocate r members, renameOption_relocate r base]
  | .call callee receiver args _ _ _ => by
    simp only [relocate, rename, rename_relocate r callee, renameOption_relocate r receiver,
      renameList_relocate r args]
  | .apply applied args _ _ => by
    simp only [relocate, rename, rename_relocate r applied, renameList_relocate r args]
  | .binary _ left right _ _ | .logical _ left right _ _ | .getIndex left right _ _
  | .set left _ right _ | .whileLoop left right _ => by
    simp only [relocate, rename, rename_relocate r left, rename_relocate r right]
  | .setIndex first second third _ | .ifThenElse first second third _ => by
    simp only [relocate, rename, rename_relocate r first, rename_relocate r second,
      rename_relocate r third]
  | .decisionTree dispatcher targets => by
    simp only [relocate, rename, rename_relocate r dispatcher, renameTargets_relocate r targets]
  | .letIn id value body => by
    simp only [relocate, rename, rename_relocate r value, ← rename_relocate (r.under [id]) body]
    rfl
  | .letRec bindings body => by
    have hunder : r.under ((relocateBindings ρ bindings).map (·.ident)) =
        r.under (bindings.map (·.ident)) := by
      rw [relocateBindings_eq, List.map_map, ← Renaming.under_relocate r (bindings.map (·.ident)),
        List.map_map]
      rfl
    simp only [relocate, rename, hunder, renameBindings_relocate _ bindings, rename_relocate _ body]
  | .forLoop id start limit body _ _ => by
    simp only [relocate, rename, rename_relocate r start, rename_relocate r limit,
      ← rename_relocate (r.under [id]) body]
    rfl
  | .tryCatch body handler finalizer _ => by
    simp only [relocate, rename, rename_relocate r body, renameHandler_relocate r handler,
      renameOption_relocate r finalizer]

/-- Renaming an expression that may be missing commutes with relocating it. -/
theorem renameOption_relocate (r : Renaming) : (o : Option Expr) →
    renameOption r (relocateOption ρ o) = relocateOption ρ (renameOption r o)
  | none => rfl
  | some e => congrArg some (rename_relocate r e)

/-- Renaming expressions commutes with relocating them. -/
theorem renameList_relocate (r : Renaming) : (es : List Expr) →
    renameList r (relocateList ρ es) = relocateList ρ (renameList r es)
  | [] => rfl
  | e :: es => by
    simp only [relocateList, renameList, rename_relocate r e, renameList_relocate r es]

/-- Renaming the members of an object commutes with relocating them. -/
theorem renameMembers_relocate (r : Renaming) : (ms : List ObjectMember) →
    renameMembers r (relocateMembers ρ ms) = relocateMembers ρ (renameMembers r ms)
  | [] => rfl
  | ⟨_, _, body, _⟩ :: ms => by
    simp only [relocateMembers, renameMembers, rename_relocate r body,
      renameMembers_relocate r ms]

/-- Renaming targets commutes with relocating them. -/
theorem renameTargets_relocate (r : Renaming) : (ts : List Target) →
    renameTargets r (relocateTargets ρ ts) = relocateTargets ρ (renameTargets r ts)
  | [] => rfl
  | ⟨bound, body⟩ :: ts => by
    simp only [relocateTargets, renameTargets, Renaming.under_relocate,
      rename_relocate (r.under bound) body, renameTargets_relocate r ts]

/-- Renaming bindings commutes with relocating them. -/
theorem renameBindings_relocate (r : Renaming) : (bs : List Binding) →
    renameBindings r (relocateBindings ρ bs) = relocateBindings ρ (renameBindings r bs)
  | [] => rfl
  | ⟨_, value⟩ :: bs => by
    simp only [relocateBindings, renameBindings, rename_relocate r value,
      renameBindings_relocate r bs]

/-- Renaming a handler that may be missing commutes with relocating it. -/
theorem renameHandler_relocate (r : Renaming) : (h : Option Handler) →
    renameHandler r (relocateHandler ρ h) = relocateHandler ρ (renameHandler r h)
  | none => rfl
  | some ⟨param, body⟩ => by
    simp only [relocateHandler, renameHandler, ← rename_relocate (r.under [param]) body]
    rfl

end

/-! ## Two relocations -/

mutual

/-- Two relocations, one after the other, are one relocation. -/
theorem relocate_relocate (ρ σ : Relocation) : (e : Expr) →
    (e.relocate ρ).relocate σ = e.relocate (ρ.andThen σ)
  | .literal .. | .ident _ | .imported .. | .debugger _ => rfl
  | .success _ values _ | .aggregate _ values _ | .emit _ values _ _ _ | .sequence values => by
    simp only [relocate, relocateList_relocate ρ σ values, Relocation.andThen]
  | .option value _ _ | .throw value _ _ => by
    simp only [relocate, relocateOption_relocate ρ σ value, Relocation.andThen]
  | .cast expr _ | .test expr _ _ | .curry expr _ _ | .unary _ expr _ _ | .get expr _ _ _ => by
    simp only [relocate, relocate_relocate ρ σ expr, Relocation.andThen]
  | .lambda _ body _ => by
    simp only [relocate, relocate_relocate ρ σ body]
    rfl
  | .delegate args body _ => by
    simp only [relocate, relocate_relocate ρ σ body, List.map_map]
    rfl
  | .object members _ base => by
    simp only [relocate, relocateMembers_relocate ρ σ members, relocateOption_relocate ρ σ base]
  | .call callee receiver args _ _ _ => by
    simp only [relocate, relocate_relocate ρ σ callee, relocateOption_relocate ρ σ receiver,
      relocateList_relocate ρ σ args, Relocation.andThen]
  | .apply applied args _ _ => by
    simp only [relocate, relocate_relocate ρ σ applied, relocateList_relocate ρ σ args,
      Relocation.andThen]
  | .binary _ left right _ _ | .logical _ left right _ _ | .getIndex left right _ _
  | .set left _ right _ | .whileLoop left right _ => by
    simp only [relocate, relocate_relocate ρ σ left, relocate_relocate ρ σ right,
      Relocation.andThen]
  | .setIndex first second third _ | .ifThenElse first second third _ => by
    simp only [relocate, relocate_relocate ρ σ first, relocate_relocate ρ σ second,
      relocate_relocate ρ σ third, Relocation.andThen]
  | .decisionTree dispatcher targets => by
    simp only [relocate, relocate_relocate ρ σ dispatcher, relocateTargets_relocate ρ σ targets]
  | .letIn _ value body => by
    simp only [relocate, relocate_relocate ρ σ value, relocate_relocate ρ σ body]
    rfl
  | .letRec bindings body => by
    simp only [relocate, relocateBindings_relocate ρ σ bindings, relocate_relocate ρ σ body]
  | .forLoop _ start limit body _ _ => by
    simp only [relocate, relocate_relocate ρ σ start, relocate_relocate ρ σ limit,
      relocate_relocate ρ σ body]
    rfl
  | .tryCatch body handler finalizer _ => by
    simp only [relocate, relocate_relocate ρ σ body, relocateHandler_relocate ρ σ handler,
      relocateOption_relocate ρ σ finalizer, Relocation.andThen]

/-- Relocating an expression that may be missing twice is one relocation. -/
theorem relocateOption_relocate (ρ σ : Relocation) : (o : Option Expr) →
    relocateOption σ (relocateOption ρ o) = relocateOption (ρ.andThen σ) o
  | none => rfl
  | some e => congrArg some (relocate_relocate ρ σ e)

/-- Relocating expressions twice is one relocation. -/
theorem relocateList_relocate (ρ σ : Relocation) : (es : List Expr) →
    relocateList σ (relocateList ρ es) = relocateList (ρ.andThen σ) es
  | [] => rfl
  | e :: es => by
    simp only [relocateList, relocate_relocate ρ σ e, relocateList_relocate ρ σ es]

/-- Relocating the members of an object twice is one relocation. -/
theorem relocateMembers_relocate (ρ σ : Relocation) : (ms : List ObjectMember) →
    relocateMembers σ (relocateMembers ρ ms) = relocateMembers (ρ.andThen σ) ms
  | [] => rfl
  | ⟨_, args, body, _⟩ :: ms => by
    simp only [relocateMembers, relocate_relocate ρ σ body, relocateMembers_relocate ρ σ ms,
      List.map_map]
    rfl

/-- Relocating targets twice is one relocation. -/
theorem relocateTargets_relocate (ρ σ : Relocation) : (ts : List Target) →
    relocateTargets σ (relocateTargets ρ ts) = relocateTargets (ρ.andThen σ) ts
  | [] => rfl
  | ⟨bound, body⟩ :: ts => by
    simp only [relocateTargets, relocate_relocate ρ σ body, relocateTargets_relocate ρ σ ts,
      List.map_map]
    rfl

/-- Relocating bindings twice is one relocation. -/
theorem relocateBindings_relocate (ρ σ : Relocation) : (bs : List Binding) →
    relocateBindings σ (relocateBindings ρ bs) = relocateBindings (ρ.andThen σ) bs
  | [] => rfl
  | ⟨_, value⟩ :: bs => by
    simp only [relocateBindings, relocate_relocate ρ σ value, relocateBindings_relocate ρ σ bs]
    rfl

/-- Relocating a handler that may be missing twice is one relocation. -/
theorem relocateHandler_relocate (ρ σ : Relocation) : (h : Option Handler) →
    relocateHandler σ (relocateHandler ρ h) = relocateHandler (ρ.andThen σ) h
  | none => rfl
  | some ⟨_, body⟩ => by
    simp only [relocateHandler, relocate_relocate ρ σ body]
    rfl

end

/-! ## Keeping all locations -/

mutual

/-- An expression with all locations kept stays as it is. -/
theorem relocate_same : (e : Expr) → e.relocate .same = e
  | .literal .. | .ident _ | .imported .. | .debugger _ => rfl
  | .success _ values _ | .sequence values => by
    rw [relocate, relocateList_same values]
  | .aggregate _ values _ | .emit _ values _ _ _ => by
    rw [relocate, relocateList_same values]
    rfl
  | .option value _ _ | .throw value _ _ => by
    rw [relocate, relocateOption_same value]
    rfl
  | .cast expr _ => by rw [relocate, relocate_same expr]
  | .test expr _ _ | .curry expr _ _ | .unary _ expr _ _ | .get expr _ _ _ | .lambda _ expr _ => by
    rw [relocate, relocate_same expr]
    rfl
  | .delegate args body _ => by
    rw [relocate, relocate_same body, show args.map (·.relocate .same) = args from List.map_id args]
  | .object members _ base => by
    rw [relocate, relocateMembers_same members, relocateOption_same base]
  | .call callee receiver args _ _ _ => by
    rw [relocate, relocate_same callee, relocateOption_same receiver, relocateList_same args]
    rfl
  | .apply applied args _ _ => by
    rw [relocate, relocate_same applied, relocateList_same args]
    rfl
  | .binary _ left right _ _ | .logical _ left right _ _ | .getIndex left right _ _
  | .set left _ right _ | .whileLoop left right _ | .letIn _ left right => by
    rw [relocate, relocate_same left, relocate_same right]
    rfl
  | .setIndex first second third _ | .ifThenElse first second third _
  | .forLoop _ first second third _ _ => by
    rw [relocate, relocate_same first, relocate_same second, relocate_same third]
    rfl
  | .decisionTree dispatcher targets => by
    rw [relocate, relocate_same dispatcher, relocateTargets_same targets]
  | .letRec bindings body => by
    rw [relocate, relocateBindings_same bindings, relocate_same body]
  | .tryCatch body handler finalizer _ => by
    rw [relocate, relocate_same body, relocateHandler_same handler, relocateOption_same finalizer]
    rfl

/-- An expression that may be missing with all locations kept stays as it is. -/
theorem relocateOption_same : (o : Option Expr) → relocateOption .same o = o
  | none => rfl
  | some e => congrArg some (relocate_same e)

/-- Expressions with all locations kept stay as they are. -/
theorem relocateList_same : (es : List Expr) → relocateList .same es = es
  | [] => rfl
  | e :: es => by rw [relocateList, relocate_same e, relocateList_same es]

/-- The members of an object with all locations kept stay as they are. -/
theorem relocateMembers_same : (ms : List ObjectMember) → relocateMembers .same ms = ms
  | [] => rfl
  | ⟨_, args, body, _⟩ :: ms => by
    rw [relocateMembers, relocate_same body, relocateMembers_same ms,
      show args.map (·.relocate .same) = args from List.map_id args]

/-- Targets with all locations kept stay as they are. -/
theorem relocateTargets_same : (ts : List Target) → relocateTargets .same ts = ts
  | [] => rfl
  | ⟨bound, body⟩ :: ts => by
    rw [relocateTargets, relocate_same body, relocateTargets_same ts,
      show bound.map (·.relocate .same) = bound from List.map_id bound]

/-- Bindings with all locations kept stay as they are. -/
theorem relocateBindings_same : (bs : List Binding) → relocateBindings .same bs = bs
  | [] => rfl
  | ⟨_, value⟩ :: bs => by
    rw [relocateBindings, relocate_same value, relocateBindings_same bs]
    rfl

/-- A handler that may be missing with all locations kept stays as it is. -/
theorem relocateHandler_same : (h : Option Handler) → relocateHandler .same h = h
  | none => rfl
  | some ⟨_, body⟩ => by
    rw [relocateHandler, relocate_same body]
    rfl

end

end Expr

/-! ## Files -/

/-- Relocating a member twice is one relocation. -/
theorem Member.relocate_relocate (ρ σ : Relocation) (m : Member) :
    (m.relocate ρ).relocate σ = m.relocate (ρ.andThen σ) := by
  simp only [relocate, Expr.relocate_relocate, List.map_map]
  rfl

/-- Relocating a leaf twice is one relocation. -/
theorem Leaf.relocate_relocate (ρ σ : Relocation) (l : Leaf) :
    (l.relocate ρ).relocate σ = l.relocate (ρ.andThen σ) := by
  cases l with
  | action => simp only [relocate, Action.relocate, Expr.relocate_relocate]
  | member m => simp only [relocate, m.relocate_relocate]
  | classDecl c =>
    simp [relocate, ClassDecl.relocate, Function.comp_def, Member.relocate_relocate]

mutual

/-- Relocating a declaration twice is one relocation. -/
theorem Declaration.relocate_relocate (ρ σ : Relocation) : (d : Declaration) →
    (d.relocate ρ).relocate σ = d.relocate (ρ.andThen σ)
  | .module _ members => by
    simp only [relocate, Declaration.relocateList_relocate ρ σ members]
  | .action a => congrArg _ (Leaf.action.inj (Leaf.relocate_relocate ρ σ (.action a)))
  | .member m => congrArg _ (m.relocate_relocate ρ σ)
  | .classDecl c => congrArg _ (Leaf.classDecl.inj (Leaf.relocate_relocate ρ σ (.classDecl c)))

/-- Relocating declarations twice is one relocation. -/
theorem Declaration.relocateList_relocate (ρ σ : Relocation) : (ds : List Declaration) →
    relocateList σ (relocateList ρ ds) = relocateList (ρ.andThen σ) ds
  | [] => rfl
  | d :: ds => by
    simp only [relocateList, Declaration.relocate_relocate ρ σ d,
      Declaration.relocateList_relocate ρ σ ds]

end

/-- Relocating a file twice is one relocation. -/
theorem File.relocate_relocate (ρ σ : Relocation) (f : File) :
    (f.relocate ρ).relocate σ = f.relocate (ρ.andThen σ) := by
  simp only [relocate, Declaration.relocateList_relocate]

/-- A member with all locations kept stays as it is. -/
theorem Member.relocate_same (m : Member) : m.relocate .same = m := by
  rw [Member.relocate, Expr.relocate_same, show m.args.map (·.relocate .same) = m.args from
    List.map_id m.args]
  rfl

/-- A leaf with all locations kept stays as it is. -/
theorem Leaf.relocate_same (l : Leaf) : l.relocate .same = l := by
  cases l with
  | action a => rw [relocate, Action.relocate, Expr.relocate_same]
  | member m => rw [relocate, Member.relocate_same]
  | classDecl c =>
    rw [relocate, ClassDecl.relocate, funext Member.relocate_same, Option.map_id', List.map_id']

mutual

/-- A declaration with all locations kept stays as it is. -/
theorem Declaration.relocate_same : (d : Declaration) → d.relocate .same = d
  | .module _ members => by rw [relocate, Declaration.relocateList_same members]
  | .action a => congrArg _ (Leaf.action.inj (Leaf.relocate_same (.action a)))
  | .member m => congrArg _ m.relocate_same
  | .classDecl c => congrArg _ (Leaf.classDecl.inj (Leaf.relocate_same (.classDecl c)))

/-- Declarations with all locations kept stay as they are. -/
theorem Declaration.relocateList_same : (ds : List Declaration) → relocateList .same ds = ds
  | [] => rfl
  | d :: ds => by
    rw [relocateList, Declaration.relocate_same d, Declaration.relocateList_same ds]

end

/-- A file with all locations kept stays as it is. -/
theorem File.relocate_same (f : File) : f.relocate .same = f := by
  rw [relocate, Declaration.relocateList_same]

end Ir

end TypedLowering
