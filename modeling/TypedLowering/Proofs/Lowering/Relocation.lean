import TypedLowering.Lowering.Inlining
import TypedLowering.Proofs.Ir.Relocation

/-!
# What lowering asks of relocated code

Parameters, arguments and self tail calls do not depend on locations, and neither does the question
whether an expression needs statements (`isStatementWithin_relocate`). A context follows another one
if it is that context with its locations changed (`Context.Follows`).
-/

namespace TypedLowering

open Ir (Expr Ident Target)

/-! ## Sessions -/

section
variable (ρ : Relocation)

/-- An inline function with its locations changed. -/
def InlineFunction.relocate (f : InlineFunction) : InlineFunction :=
  ⟨f.args.map (·.relocate ρ), f.body.relocate ρ⟩

/-- A project with the locations of its inline functions changed. -/
def Project.relocate (p : Project) : Project :=
  { p with inlines := p.inlines.map fun (name, f) => (name, f.relocate ρ) }

/-- Settings with the locations of inline functions changed. -/
def Settings.relocate (s : Settings) : Settings := { s with project := s.project.relocate ρ }

/-- What is known of a file, with the locations of inline functions changed. -/
def SourceFile.relocate (f : SourceFile) : SourceFile :=
  { f with settings := f.settings.relocate ρ }

/-- An error with its location changed. -/
def LowerError.relocate : LowerError → LowerError
  | .unsupported construct loc => .unsupported construct (ρ.map loc)
  | .unsupportedType ty loc => .unsupportedType ty (ρ.map loc)
  | .missingTarget index => .missingTarget index
  | .missingEntity fullName => .missingEntity fullName
  | .statementInExpression kind loc => .statementInExpression kind (ρ.map loc)
  | .endless => .endless

/-- A loop with the locations of its parameters changed. -/
def TailCall.relocate (t : TailCall) : TailCall :=
  { t with params := t.params.map (·.relocate ρ) }

end

variable {ρ : Relocation}

/-- With all locations kept, what is known of a file stays as it is. -/
theorem SourceFile.relocate_same (f : SourceFile) : f.relocate .same = f := by
  have hinline : ∀ f : InlineFunction, f.relocate .same = f := fun f => by
    rw [InlineFunction.relocate, Ir.Expr.relocate_same, show f.args.map (·.relocate .same) =
      f.args from List.map_id f.args]
  simp only [relocate, Settings.relocate, Project.relocate, hinline, List.map_id']

/-- A table with its entries mapped answers with the mapped entry. -/
theorem lookupLast_map {α β : Type} (f : α → β) (entries : List (String × α)) (name : String) :
    lookupLast (entries.map fun (key, a) => (key, f a)) name = (lookupLast entries name).map f := by
  simp [lookupLast, ← List.map_reverse, List.find?_map, Function.comp_def]

namespace Settings

/-- A relocated project has the relocated inline functions. -/
theorem inline?_relocate (s : Settings) (name : String) :
    (s.relocate ρ).inline? name = (s.inline? name).map (·.relocate ρ) :=
  lookupLast_map _ _ _

/-- What is being precompiled does not depend on locations. -/
theorem isPrecompiling_relocate (s : Settings) (name : String) :
    (s.relocate ρ).isPrecompiling name = s.isPrecompiling name := by
  rw [isPrecompiling, isPrecompiling, inline?_relocate, Option.isSome_map]
  rfl

end Settings

/-! ## Parameters -/

/-- The unit parameter is left out of relocated parameters alike. -/
theorem discardUnitParam_relocate (params : List Ident) :
    discardUnitParam (params.map (·.relocate ρ)) =
      (discardUnitParam params).map (·.relocate ρ) := by
  match params with
  | [] | _ :: _ :: _ :: _ => rfl
  | [only] =>
    simp only [List.map_cons, List.map_nil, discardUnitParam, Ident.relocate_ty,
      apply_ite (List.map (Ident.relocate ρ))]
    rfl
  | [receiver, unit] =>
    simp only [List.map_cons, List.map_nil, discardUnitParam, Ident.relocate_ty,
      Ident.relocate_isThis, apply_ite (List.map (Ident.relocate ρ))]
    rfl

/-- Relocated parameters are declared alike. -/
theorem declaredParams_relocate (params : List Ident) :
    declaredParams (params.map (·.relocate ρ)) = (declaredParams params).map (·.relocate ρ) := by
  rw [declaredParams, declaredParams, discardUnitParam_relocate, List.filter_map]
  rfl

/-- The unit argument is left out of relocated arguments alike. -/
theorem discardUnitArg_relocate (args : List Expr) :
    discardUnitArg (args.map (·.relocate ρ)) = (discardUnitArg args).map (·.relocate ρ) := by
  match args with
  | [] | _ :: _ :: _ :: _ => rfl
  | [only] =>
    simp only [List.map_cons, List.map_nil, discardUnitArg, Expr.isUnitConstant_relocate,
      apply_ite (List.map (Expr.relocate ρ))]
  | [receiver, unit] =>
    simp only [List.map_cons, List.map_nil, discardUnitArg, Expr.isUnitConstant_relocate,
      Expr.isReceiver_relocate, apply_ite (List.map (Expr.relocate ρ))]

/-- Relocated parameters get the same fresh names. -/
theorem freshParams_relocate (names : Scopes) (params : List Ident) :
    freshParams names (params.map (·.relocate ρ)) =
      ((freshParams names params).1.map (·.relocate ρ), (freshParams names params).2) := by
  induction params generalizing names with
  | nil => rfl
  | cons p ps ih =>
    simp only [List.map_cons, freshParams, ih, Ident.relocate_name]
    rfl

/-- Relocated parameters are renamed alike. -/
theorem paramRenaming_relocate (params fresh : List Ident) :
    paramRenaming (params.map (·.relocate ρ)) (fresh.map (·.relocate ρ)) =
      paramRenaming params fresh := by
  simp [paramRenaming, List.zip_map, List.filter_map, Function.comp_def]

/-- Relocated parameters are bound to relocated arguments. -/
theorem bindParams_relocate (params : List Ident) (args : List Expr) (body : Expr) :
    bindParams (params.map (·.relocate ρ)) (args.map (·.relocate ρ)) (body.relocate ρ) =
      (bindParams params args body).relocate ρ := by
  induction params generalizing args with
  | nil => rfl
  | cons p ps ih =>
    cases args with
    | nil => rfl
    | cons arg args =>
      show Expr.letIn (p.relocate ρ) (arg.relocate ρ) (bindParams _ _ _) = _
      rw [ih]
      rfl

/-! ## Self tail calls -/

namespace TailCall

/-- Relocated parameters get the same slots. -/
theorem allocateSlots_relocate (names : Scopes) (params : List Ident) :
    allocateSlots names (params.map (·.relocate ρ)) = allocateSlots names params := by
  induction params generalizing names with
  | nil => rfl
  | cons p ps ih => simp only [List.map_cons, allocateSlots, ih, Ident.relocate_name]

/-- A loop with relocated parameters gets the same label and slots. -/
theorem allocate_relocate (names : Scopes) (label : String) (params : List Ident) :
    allocate names label (params.map (·.relocate ρ)) =
      ((allocate names label params).1.relocate ρ, (allocate names label params).2) := by
  simp only [allocate, declaredParams_relocate, allocateSlots_relocate]
  rfl

/-- The slots of a relocated loop belong to the relocated parameters. -/
theorem bindings_relocate (t : TailCall) :
    (t.relocate ρ).bindings = t.bindings.map fun (p, slot) => (p.relocate ρ, slot) := by
  simp [bindings, relocate, List.zip_map_left]

/-- A relocated loop keeps its label. -/
@[simp] theorem relocate_label (t : TailCall) : (t.relocate ρ).label = t.label := rfl

/-- A relocated callee is the function itself alike. -/
theorem isSelf_relocate (t : TailCall) (callee : Expr) :
    (t.relocate ρ).isSelf (callee.relocate ρ) = t.isSelf callee := by
  rw [isSelf, isSelf, Expr.uncast_relocate]
  cases callee.uncast <;> rfl

/-- A self tail call is recognized wherever it is. -/
theorem recognizes_relocate {ε ε' : Type} (t : TailCall) {strategy : Strategy ε}
    {strategy' : Strategy ε'} (hs : strategy'.isTail = strategy.isTail) (callee : Expr)
    (receiver : Option Expr) (args : List Expr) (isNew : Bool) :
    (t.relocate ρ).recognizes strategy' (callee.relocate ρ) (receiver.map (·.relocate ρ))
      (args.map (·.relocate ρ)) isNew = t.recognizes strategy callee receiver args isNew := by
  simp [recognizes, hs, isSelf_relocate, discardUnitArg_relocate]
  rfl

end TailCall

/-! ## Contexts -/

/-- The second context is the first one with its locations changed. -/
structure Context.Follows (ρ : Relocation) (ctx ctx' : Context) : Prop where
  file : ctx'.file = ctx.file.relocate ρ
  targets : ctx'.targets = ctx.targets.map (·.relocate ρ)
  hoists : ∀ ids, ctx'.hoists (ids.map (·.relocate ρ)) = ctx.hoists ids
  tailCall : ctx'.tailCall = ctx.tailCall.map (·.relocate ρ)

namespace Context.Follows

variable {ctx ctx' : Context}

/-- The context of a file follows the file. -/
theorem ofFile (ρ : Relocation) (file : SourceFile) :
    Follows ρ (.ofFile file) (.ofFile (file.relocate ρ)) :=
  ⟨rfl, rfl, fun _ => rfl, rfl⟩

variable (h : Follows ρ ctx ctx')
include h

/-- Relocated targets around a node follow the targets. -/
theorem withTargets (targets : List Target) :
    Follows ρ (ctx.withTargets targets) (ctx'.withTargets (targets.map (·.relocate ρ))) :=
  { h with targets := rfl }

/-- A relocated loop around a node follows the loop. -/
theorem withTailCall (t : TailCall) :
    Follows ρ (ctx.withTailCall t) (ctx'.withTailCall (t.relocate ρ)) :=
  { h with tailCall := rfl }

/-- Without the loop around, contexts still follow each other. -/
theorem withoutTailCall : Follows ρ ctx.withoutTailCall ctx'.withoutTailCall :=
  { h with tailCall := rfl }

/-- The depth of a relocated node is the same. -/
theorem depth (e : Expr) : ctx'.depth (e.relocate ρ) = ctx.depth e := by
  have hsize : ∀ e : Expr, (e.relocate ρ).subterms.length = e.subterms.length := fun e => by
    rw [Expr.subterms_relocate, List.length_map]
  simp [Context.depth, Context.nodes, h.targets, h.file, SourceFile.relocate, Settings.relocate,
    Project.relocate, InlineFunction.relocate, List.length_flatMap, List.flatMap_map, hsize,
    Function.comp_def]

/-- A self tail call is found wherever it is, and then it is relocated. -/
theorem selfTailCall? {ε ε' : Type} {strategy : Strategy ε} {strategy' : Strategy ε'}
    (hs : strategy'.isTail = strategy.isTail) (callee : Expr) (receiver : Option Expr)
    (args : List Expr) (isNew : Bool) :
    ctx'.selfTailCall? strategy' (callee.relocate ρ) (receiver.map (·.relocate ρ))
      (args.map (·.relocate ρ)) isNew =
      (ctx.selfTailCall? strategy callee receiver args isNew).map (·.relocate ρ) := by
  simp only [Context.selfTailCall?, h.tailCall, Option.filter_map, Function.comp_def,
    TailCall.recognizes_relocate _ hs]

/-- The target at an index is the relocated one. -/
theorem target? (index : Nat) : ctx'.targets[index]? = ctx.targets[index]?.map (·.relocate ρ) := by
  rw [h.targets, List.getElem?_map]

end Context.Follows

/-! ## Classification -/

/-- Whether some item passes is the same for mapped items with the same answers. -/
theorem Except.anyM_congr {α β ε : Type} {f : α → β} {p : α → Except ε Bool} {q : β → Except ε Bool}
    (h : ∀ a, q (f a) = p a) (as : List α) : (as.map f).anyM q = as.anyM p := by
  induction as with
  | nil => rfl
  | cons a as ih => simp only [List.map_cons, List.anyM_cons, h, ih]

/-- Whether a node needs statements does not depend on locations. -/
theorem isStatementWithin_relocate (n : Nat) (targets : List Target) (prefer : Bool) (e : Expr) :
    isStatementWithin n (targets.map (·.relocate ρ)) prefer (e.relocate ρ) =
      isStatementWithin n targets prefer e := by
  induction n generalizing targets prefer e with
  | zero => rfl
  | succ n ih =>
    cases e with
    | decisionTree dispatcher inner =>
      simp only [Expr.relocate, isStatementWithin, Expr.relocateTargets_eq, ih]
      rw [Except.anyM_congr (p := fun t => isStatementWithin n targets false t.body)
        fun t => ih targets false t.body]
    | success index values ty =>
      simp only [Expr.relocate, isStatementWithin, Expr.relocateList_eq, List.getElem?_map]
      cases targets[index]? with
      | none => rfl
      | some t => simp [ih]
    | cast | ifThenElse => simp only [Expr.relocate, isStatementWithin, ih]
    | _ => rfl

/-- Contexts that follow each other agree on which nodes need statements. -/
theorem Context.Follows.isStatement {ctx ctx' : Context} (h : Context.Follows ρ ctx ctx')
    (prefer : Bool) (e : Expr) :
    TypedLowering.isStatement ctx' prefer (e.relocate ρ) =
      TypedLowering.isStatement ctx prefer e := by
  rw [TypedLowering.isStatement, TypedLowering.isStatement, h.depth, h.targets,
    isStatementWithin_relocate]

end TypedLowering
