import TypedLowering.Dart.Lower.Declaration
import TypedLowering.Proofs.Lowering.Follows

/-!
# Lowering relocated code to Dart

Dart code has no locations, so parts with their locations changed are lowered to the same code, and
so are nodes (`Parts.Follows`), all nodes under the rules (`rules_follow`) and whole files
(`lowerFile_follows`).
-/

namespace TypedLowering.Dart

variable {ρ : Relocation}

/-- Whatever the locations of a part become, its code is the same. -/
structure Parts.Follows (ρ : Relocation) (r : Parts) : Prop where
  expr : ∀ {ctx ctx'}, ctx.Follows ρ ctx' → ∀ hoists e,
    Lower.Follows ρ (fun code => code) (r.expr ctx hoists e) (r.expr ctx' hoists (e.relocate ρ))
  stmts : ∀ {ctx ctx'}, ctx.Follows ρ ctx' → ∀ strategy e,
    Lower.Follows ρ (fun code => code) (r.stmts ctx strategy e)
      (r.stmts ctx' strategy (e.relocate ρ))

/-! ## Types and names -/

section
variable {file file' : SourceFile} (hf : file' = file.relocate ρ)
include hf

/-- The prefix of a runtime library is the same in a relocated file. -/
theorem follows_runtimePrefix (library : String) :
    Lower.Follows ρ (fun name => name) (runtimePrefix file library)
      (runtimePrefix file' library) := by
  rw [runtimePrefix, runtimePrefix, hf]
  exact .importWhole _

/-- An entity is looked up with the same result in a relocated file. -/
theorem follows_entity (entity : String) :
    Lower.Follows ρ (fun entity => entity)
      (.ofOption (.missingEntity entity) (file.settings.entity? entity))
      (.ofOption (.missingEntity entity) (file'.settings.entity? entity)) := by
  rw [hf]
  exact .ofOption rfl (Option.map_id_apply).symm

end

mutual

/-- A type is lowered to the same type in a relocated file. -/
theorem follows_lowerType {file file' : SourceFile} (hf : file' = file.relocate ρ) (ty : Ir.Ty) :
    Lower.Follows ρ (fun ty => ty) (lowerType file ty) (lowerType file' ty) := by
  cases ty with
  | any | unit | boolean | char | string | regex | number | param =>
    unfold lowerType
    exact .pure rfl
  | option item | array item | list item =>
    unfold lowerType
    exact .bind (follows_lowerType hf item) fun _ => .pure rfl
  | tuple items =>
    unfold lowerType
    exact .ite (.fail (congrArg _ ρ.map_none.symm)) (.bind (follows_lowerTypes hf items) fun _ =>
      .bind (follows_runtimePrefix hf _) fun _ => .pure rfl)
  | lambda arg ret =>
    unfold lowerType
    refine .ite (.bind (.pure rfl) fun _ => .bind (follows_lowerType hf ret) fun _ => .pure rfl) ?_
    exact .bind (follows_lowerType hf arg) fun _ => .bind (.pure rfl) fun _ =>
      .bind (follows_lowerType hf ret) fun _ => .pure rfl
  | delegate args ret =>
    unfold lowerType
    refine .ite (.bind (.pure rfl) fun _ => .bind (follows_lowerType hf ret) fun _ => .pure rfl) ?_
    exact .bind (follows_lowerTypes hf args) fun _ =>
      .bind (follows_lowerType hf ret) fun _ => .pure rfl
  | declared entity generics =>
    unfold lowerType
    exact .bind (follows_entity hf _) fun _ => .bind (follows_lowerTypes hf generics) fun _ =>
      .pure rfl

/-- Types are lowered to the same types in a relocated file. -/
theorem follows_lowerTypes {file file' : SourceFile} (hf : file' = file.relocate ρ)
    (tys : List Ir.Ty) :
    Lower.Follows ρ (fun tys => tys) (lowerTypes file tys) (lowerTypes file' tys) := by
  cases tys with
  | nil =>
    unfold lowerTypes
    exact .pure rfl
  | cons ty tys =>
    unfold lowerTypes
    exact .bind (follows_lowerType hf ty) fun _ =>
      .bind (follows_lowerTypes hf tys) fun _ => .pure rfl

end

section
variable {file file' : SourceFile} (hf : file' = file.relocate ρ)
include hf

/-- A relocated identifier is lowered to the same one, as locations are left out. -/
theorem follows_lowerIdent (id : Ir.Ident) :
    Lower.Follows ρ (fun id => id) (lowerIdent file id) (lowerIdent file' (id.relocate ρ)) :=
  .bind (follows_lowerType hf _) fun _ => .pure rfl

/-- Relocated identifiers are lowered to the same ones. -/
theorem follows_lowerIdents (ids : List Ir.Ident) :
    Lower.Follows ρ (fun ids => ids) (lowerIdents file ids)
      (lowerIdents file' (ids.map (·.relocate ρ))) := by
  induction ids with
  | nil => exact .pure rfl
  | cons id ids ih => exact .bind (follows_lowerIdent hf _) fun _ => .bind ih fun _ => .pure rfl

/-- The same local is new in a relocated file. -/
theorem follows_freshLocal (candidate : String) (ty : Ir.Ty) :
    Lower.Follows ρ (fun id => id) (freshLocal file candidate ty) (freshLocal file' candidate ty) :=
  .bind (.allocateLocal _) fun _ => .bind (follows_lowerType hf _) fun _ => .pure rfl

/-- Operands are saved in the same locals in a relocated file. -/
theorem follows_saveOperands (operands : List (Expr × Ir.Ty)) :
    Lower.Follows ρ (fun saved => saved) (saveOperands file operands)
      (saveOperands file' operands) := by
  induction operands with
  | nil => exact .pure rfl
  | cons operand operands ih =>
    refine .ite (.bind ih fun _ => .pure rfl) ?_
    exact .bind (follows_freshLocal hf _ _) fun _ => .bind ih fun _ => .pure rfl

/-- The slots of a loop become the same parameters and copies, wherever the parameters of the source
are. -/
theorem follows_loopParams (slots : List (Ir.Ident × String)) :
    Lower.Follows ρ (fun params => params) (Parts.loopParams file slots)
      (Parts.loopParams file' (slots.map fun (p, slot) => (p.relocate ρ, slot))) := by
  induction slots with
  | nil => exact .pure rfl
  | cons slot slots ih =>
    exact .bind (follows_lowerType hf _) fun _ => .bind ih fun _ => .pure rfl

/-- The slots of a loop are written the same way, wherever the parameters of the source are. -/
theorem follows_slotWrites (slots : List (Ir.Ident × String)) (values : List Expr) :
    Lower.Follows ρ (fun writes => writes) (Parts.slotWrites file slots values)
      (Parts.slotWrites file' (slots.map fun (p, slot) => (p.relocate ρ, slot)) values) := by
  induction slots generalizing values with
  | nil => exact .pure rfl
  | cons slot slots ih =>
    cases values with
    | nil => exact .pure rfl
    | cons value values =>
      exact .ite (ih _)
        (.bind (follows_lowerType hf _) fun _ => .bind (ih _) fun _ => .pure rfl)

/-! ## Values -/

/-- A binary operation gets the same code in a relocated file. -/
theorem follows_binaryValue (op : Ir.BinaryOp) (left right : Expr) (ty : Ir.Ty) :
    Lower.Follows ρ (fun value => value) (binaryValue file op left right ty)
      (binaryValue file' op left right ty) := by
  cases op with
  | exponent =>
    exact .bind (.importWhole _) fun _ => .bind (follows_lowerType hf _) fun _ => .pure rfl
  | _ => exact .pure rfl

/-- The constructor of an entity is the same in a relocated file. -/
theorem follows_constructorOf (entity : String) :
    Lower.Follows ρ (fun value => value) (constructorOf file entity) (constructorOf file' entity) :=
  .bind (follows_entity hf _) fun _ => .pure rfl

/-- The constructor of a tuple is the same in a relocated file; only an error tells the location. -/
theorem follows_tupleConstructor (ty : Ir.Ty) (loc : Option Ir.Location) :
    Lower.Follows ρ (fun value => value) (tupleConstructor file ty loc)
      (tupleConstructor file' ty (ρ.map loc)) := by
  refine .bind (follows_lowerType hf _) fun _ => ?_
  split
  · exact .pure rfl
  · exact .fail rfl

/-- A member of another file is imported the same way; only an error tells the location. -/
theorem follows_importedValue (ref : Ir.ImportRef) (ty : Ir.Ty) (loc : Option Ir.Location) :
    Lower.Follows ρ (fun value => value) (importedValue file ref ty loc)
      (importedValue file' ref ty (ρ.map loc)) := by
  refine .ite (.fail rfl) (.bind (.resolveImport hf _) fun _ => ?_)
  exact .bind (.importWhole _) fun _ => .bind (follows_lowerType hf _) fun _ => .pure rfl

/-- What is read from an object is the same in a relocated file. -/
theorem follows_access (obj : Expr) (kind : Ir.Access) (ty : Ir.Ty) :
    Lower.Follows ρ (fun value => value) (access file obj kind ty) (access file' obj kind ty) := by
  cases kind with
  | unionField => exact .bind (follows_lowerType hf _) fun _ => .pure rfl
  | _ => exact .pure rfl

/-- A test of a value is the same in a relocated file. -/
theorem follows_test (value : Expr) (kind : Ir.TestKind) :
    Lower.Follows ρ (fun value => value) (test file value kind) (test file' value kind) := by
  cases kind with
  | type => exact .bind (follows_lowerType hf _) fun _ => .pure rfl
  | option | unionCase => exact .pure rfl

end

namespace Parts.Follows

variable {r : Parts} (h : r.Follows ρ) {ctx ctx' : Context} (hc : ctx.Follows ρ ctx')
include h hc

/-! ## Parts -/

/-- The value of a relocated node is delivered by the same code. -/
theorem delivered (strategy : Strategy Expr) (e : Ir.Expr) :
    Lower.Follows ρ (fun code => code) (r.delivered ctx strategy e)
      (r.delivered ctx' strategy (e.relocate ρ)) :=
  .bind (h.expr hc.withoutTailCall _ _) fun _ => .pure rfl

/-- The value of a relocated node is captured by the same code. -/
theorem capture (hoists : Bool) (e : Ir.Expr) :
    Lower.Follows ρ (fun code => code) (r.capture ctx hoists e)
      (r.capture ctx' hoists (e.relocate ρ)) := by
  have hc := hc.withoutTailCall
  unfold Parts.capture
  rw [Ir.Expr.type_relocate, Ir.Expr.kindName_relocate, Ir.Expr.location_relocate]
  refine .ite (.fail rfl) (.ite (.bind (h.stmts hc _ _) fun _ => .pure rfl) ?_)
  exact .bind (follows_freshLocal hc.file _ _) fun _ => .bind (h.stmts hc _ _) fun _ => .pure rfl

/-- Relocated operands after those that are done are lowered to the same code. -/
theorem operandsAfter (hoists : Bool) (done : List (Expr × Ir.Ty)) (es : List Ir.Expr) :
    Lower.Follows ρ (fun code => code) (r.operandsAfter ctx hoists done es)
      (r.operandsAfter ctx' hoists done (es.map (·.relocate ρ))) := by
  induction es generalizing done with
  | nil => exact .pure rfl
  | cons e es ih =>
    simp only [List.map_cons, Parts.operandsAfter, Ir.Expr.type_relocate]
    refine .bind (h.expr hc _ _) fun _ => .ite ?_ ?_
    · exact .bind (.pure rfl) fun _ => .bind (ih _) fun _ => .pure rfl
    · exact .bind (follows_saveOperands hc.file _) fun _ => .bind (ih _) fun _ => .pure rfl

/-- Relocated operands are lowered to the same code. -/
theorem operands (hoists : Bool) (es : List Ir.Expr) :
    Lower.Follows ρ (fun code => code) (r.operands ctx hoists es)
      (r.operands ctx' hoists (es.map (·.relocate ρ))) :=
  h.operandsAfter hc _ _ _

/-- Two relocated operands are lowered to the same code. -/
theorem operandPair (hoists : Bool) (left right : Ir.Expr) :
    Lower.Follows ρ (fun code => code) (r.operandPair ctx hoists left right)
      (r.operandPair ctx' hoists (left.relocate ρ) (right.relocate ρ)) := by
  refine .bind (h.operands hc hoists [left, right]) fun _ => ?_
  split <;> exact .pure rfl

/-- A declaration of relocated parts is lowered to the same code. -/
theorem declare (id : Ir.Ident) (value : Ir.Expr) :
    Lower.Follows ρ (fun code => code) (r.declare ctx id value)
      (r.declare ctx' (id.relocate ρ) (value.relocate ρ)) := by
  have hc := hc.withoutTailCall
  refine .ite (h.stmts hc _ _) (.bind (follows_lowerIdent hc.file _) fun _ =>
    .bind (.isStatement hc _ _) fun _ => .ite ?_ ?_)
  · exact .bind (h.stmts hc _ _) fun _ => .pure rfl
  · exact .bind (h.expr hc _ _) fun _ => .pure rfl

/-- A closure of relocated parts is lowered to the same code. -/
theorem closure (params : List Ir.Ident) (body : Ir.Expr) :
    Lower.Follows ρ (fun code => code) (r.closure ctx params body)
      (r.closure ctx' (params.map (·.relocate ρ)) (body.relocate ρ)) := by
  unfold Parts.closure
  rw [declaredParams_relocate, Ir.Expr.type_relocate]
  exact .bind (follows_lowerIdents hc.file _) fun _ => .bind (h.stmts hc.withoutTailCall _ _)
    fun _ => .bind (follows_lowerType hc.file _) fun _ => .pure rfl

/-- A function of relocated parts is lowered to the same code. -/
theorem function (name : Option String) (params : List Ir.Ident) (body : Ir.Expr) :
    Lower.Follows ρ (fun code => code) (r.function ctx name params body)
      (r.function ctx' name (params.map (·.relocate ρ)) (body.relocate ρ)) := by
  unfold Parts.function
  simp only [declaredParams_relocate, Ir.Expr.type_relocate]
  refine .bind (follows_lowerType hc.file _) fun ret => ?_
  have hplain : ∀ ps : List Ir.Ident, Lower.Follows ρ (fun code => code)
      (do
        let stmts ← r.stmts ctx.withoutTailCall (.ofType body.type.isUnit) body
        return (← lowerIdents ctx.file ps, stmts, ret))
      (do
        let stmts ← r.stmts ctx'.withoutTailCall (.ofType body.type.isUnit) (body.relocate ρ)
        return (← lowerIdents ctx'.file (ps.map (·.relocate ρ)), stmts, ret)) := fun _ =>
    .bind (h.stmts hc.withoutTailCall _ _) fun _ =>
      .bind (follows_lowerIdents hc.file _) fun _ => .pure rfl
  cases name with
  | none => exact hplain _
  | some name =>
    cases declaredParams params with
    | nil => exact hplain []
    | cons p ps =>
      refine .bind (.allocateTailCall name (p :: ps)) fun t =>
        .bind (.inFunction (h.stmts (hc.withTailCall t) _ _)) fun ⟨stmts, looped⟩ =>
          .ite ?_ (.bind (follows_lowerIdents hc.file (p :: ps)) fun _ => .pure rfl)
      rw [TailCall.bindings_relocate]
      exact .bind (follows_loopParams hc.file _) fun _ => .pure rfl

/-- A local function of relocated parts is lowered to the same code. -/
theorem localFunction (id : Ir.Ident) (params : List Ir.Ident) (body : Ir.Expr) :
    Lower.Follows ρ (fun code => code) (r.localFunction ctx id params body)
      (r.localFunction ctx' (id.relocate ρ) (params.map (·.relocate ρ)) (body.relocate ρ)) :=
  .bind (h.function hc _ _ _) fun _ => .pure rfl

/-! ## Expressions -/

/-- An array, a tuple, a record or a case of a union of relocated parts is lowered to the same
code. -/
theorem aggregate (hoists : Bool) (kind : Ir.Aggregate) (values : List Ir.Expr)
    (loc : Option Ir.Location) :
    Lower.Follows ρ (fun code => code) (r.aggregate ctx hoists kind values loc)
      (r.aggregate ctx' hoists kind (values.map (·.relocate ρ)) (ρ.map loc)) := by
  have htypes : (values.map (·.relocate ρ)).map (·.type) = values.map (·.type) := by
    simp [Ir.Expr.type_relocate, Function.comp_def]
  cases kind with
  | array =>
    exact .bind (h.operands hc _ _) fun _ => .bind (follows_lowerType hc.file _) fun _ => .pure rfl
  | tuple =>
    simp only [Parts.aggregate, htypes]
    exact .bind (follows_tupleConstructor hc.file _ _) fun _ =>
      .bind (h.operands hc _ _) fun _ => .pure rfl
  | record | union =>
    exact .bind (follows_constructorOf hc.file _) fun _ => .bind (h.operands hc _ _) fun _ =>
      .pure rfl
  | anonymous => exact .fail rfl

/-- A call of relocated parts is lowered to the same code. -/
theorem call (hoists : Bool) (callee : Ir.Expr) (receiver : Option Ir.Expr)
    (args : List Ir.Expr) :
    Lower.Follows ρ (fun code => code) (r.call ctx hoists callee receiver args)
      (r.call ctx' hoists (callee.relocate ρ) (receiver.map (·.relocate ρ))
        (args.map (·.relocate ρ))) := by
  have hall : callee.relocate ρ ::
      ((receiver.map (·.relocate ρ)).toList ++ discardUnitArg (args.map (·.relocate ρ))) =
      (callee :: (receiver.toList ++ discardUnitArg args)).map (·.relocate ρ) := by
    cases receiver <;> simp [discardUnitArg_relocate]
  unfold Parts.call
  rw [hall]
  refine .bind (h.operands hc _ _) fun _ => ?_
  split <;> exact .pure rfl

/-- An application to curried arguments of relocated parts is lowered to the same code. -/
theorem applied (hoists : Bool) (f : Ir.Expr) (args : List Ir.Expr) :
    Lower.Follows ρ (fun code => code) (r.applied ctx hoists f args)
      (r.applied ctx' hoists (f.relocate ρ) (args.map (·.relocate ρ))) := by
  refine .bind (h.operands hc hoists (f :: args)) fun _ => ?_
  split <;> exact .pure rfl

/-- A logical operation of relocated parts is lowered to the same code. -/
theorem logical (hoists : Bool) (op : LogicalOp) (left right : Ir.Expr) :
    Lower.Follows ρ (fun code => code) (r.logical ctx hoists op left right)
      (r.logical ctx' hoists op (left.relocate ρ) (right.relocate ρ)) := by
  refine .bind (h.expr hc _ _) fun _ => .bind (h.expr hc _ _) fun _ => .ite (.pure rfl) ?_
  exact .bind (follows_freshLocal hc.file _ _) fun _ => .pure rfl

/-- A conditional of relocated parts is lowered to the same code. -/
theorem conditional (hoists : Bool) (guard thenExpr elseExpr : Ir.Expr) (ty : Ir.Ty) :
    Lower.Follows ρ (fun code => code) (r.conditional ctx hoists guard thenExpr elseExpr ty)
      (r.conditional ctx' hoists (guard.relocate ρ) (thenExpr.relocate ρ) (elseExpr.relocate ρ)
        ty) := by
  refine .bind (h.expr hc _ _) fun _ => .bind (h.expr hc _ _) fun _ =>
    .bind (h.expr hc _ _) fun _ => ?_
  refine .ite (.pure rfl) (.ite (.bind (.pure rfl) fun _ => .pure rfl) ?_)
  exact .bind (follows_freshLocal hc.file _ _) fun _ => .bind (.pure rfl) fun _ => .pure rfl

omit h in

/-- A success node selects the relocated target in a context with relocated targets. -/
theorem follows_target (index : Nat) :
    Lower.Follows ρ (Ir.Target.relocate ρ) (target ctx index) (target ctx' index) :=
  .ofOption rfl (hc.target? index)

omit h hc in

/-- Whether a callee can be constructed does not depend on where it is. -/
theorem isConstructible_relocate (callee : Ir.Expr) :
    isConstructible (callee.relocate ρ) = isConstructible callee := by
  rw [isConstructible, isConstructible, Ir.Expr.uncast_relocate]
  cases callee.uncast <;> rfl

/-- A relocated node that is an expression is lowered to the same code. -/
theorem exprCore (hoists : Bool) (e : Ir.Expr) :
    Lower.Follows ρ (fun code => code) (r.exprCore ctx hoists e)
      (r.exprCore ctx' hoists (e.relocate ρ)) := by
  cases e with
  | literal => exact .pure rfl
  | option value =>
    cases value with
    | none => exact .pure rfl
    | some => exact h.expr hc _ _
  | aggregate =>
    rw [Ir.Expr.relocate, Ir.Expr.relocateList_eq]
    exact h.aggregate hc _ _ _ _
  | ident => exact .ite (.pure rfl) (.bind (follows_lowerIdent hc.file _) fun _ => .pure rfl)
  | cast inner =>
    unfold Parts.exprCore
    simp only [Ir.Expr.relocate, Ir.Expr.type_relocate]
    exact .bind (h.expr hc _ _) fun _ => .ite (.pure rfl)
      (.bind (follows_lowerType hc.file _) fun _ => .pure rfl)
  | imported => exact .bind (follows_importedValue hc.file _ _ _) fun _ => .pure rfl
  | lambda arg body => exact .bind (h.closure hc [arg] body) fun _ => .pure rfl
  | delegate => exact .bind (h.closure hc _ _) fun _ => .pure rfl
  | object => exact .fail (congrArg _ ρ.map_none.symm)
  | call callee =>
    unfold Parts.exprCore
    simp only [Ir.Expr.relocate, Ir.Expr.relocateOption_eq, Ir.Expr.relocateList_eq,
      isConstructible_relocate]
    exact .ite (.fail rfl) (h.call hc _ _ _ _)
  | apply =>
    rw [Ir.Expr.relocate, Ir.Expr.relocateList_eq]
    exact h.applied hc _ _ _
  | unary =>
    refine .bind (h.expr hc _ _) fun _ => ?_
    split <;> exact .pure rfl
  | binary =>
    exact .bind (h.operandPair hc _ _ _) fun _ => .bind (follows_binaryValue hc.file _ _ _ _)
      fun _ => .pure rfl
  | logical => exact h.logical hc _ _ _ _
  | emit =>
    rw [Ir.Expr.relocate, Ir.Expr.relocateList_eq]
    exact .bind (h.operands hc _ _) fun _ => .pure rfl
  | get =>
    exact .bind (h.expr hc _ _) fun _ => .bind (follows_access hc.file _ _ _) fun _ => .pure rfl
  | getIndex => exact .bind (h.operandPair hc _ _ _) fun _ => .pure rfl
  | test =>
    exact .bind (h.expr hc _ _) fun _ => .bind (follows_test hc.file _ _) fun _ => .pure rfl
  | ifThenElse guard thenExpr elseExpr loc =>
    have htype := Ir.Expr.type_relocate (ρ := ρ) (.ifThenElse guard thenExpr elseExpr loc)
    unfold Parts.exprCore
    simp only [Ir.Expr.relocate] at htype ⊢
    rw [htype]
    exact h.conditional hc _ _ _ _ _
  | decisionTree dispatcher targets =>
    rw [Ir.Expr.relocate, Ir.Expr.relocateTargets_eq]
    exact h.expr (hc.withTargets targets) _ _
  | success => exact .bind (follows_target hc _) fun _ => h.expr hc _ _
  | curry =>
    exact .bind (h.expr hc _ _) fun _ => .bind (follows_runtimePrefix hc.file _) fun _ =>
      .pure rfl
  | throw | debugger | set | setIndex | letIn | letRec | sequence | whileLoop | forLoop
  | tryCatch => exact h.capture hc _ _

omit h in

/-- Whether a node is captured does not depend on where it is. -/
theorem follows_isCaptured (e : Ir.Expr) :
    Lower.Follows ρ (fun b => b) (isCaptured ctx e) (isCaptured ctx' (e.relocate ρ)) := by
  cases e with
  | ifThenElse | decisionTree | success => exact .isStatement hc _ _
  | _ => exact .pure rfl

omit h in

/-- A relocated call is expanded to the relocated expansion. -/
theorem follows_expansion? (e : Ir.Expr) :
    Lower.Follows ρ (Option.map (Ir.Expr.relocate ρ)) (expansion? ctx e)
      (expansion? ctx' (e.relocate ρ)) := by
  cases e with
  | call callee receiver =>
    simp only [Ir.Expr.relocate, Ir.Expr.relocateList_eq]
    cases receiver with
    | none => exact .expandInline hc.file _ _
    | some => exact .pure rfl
  | _ => exact .pure rfl

/-- Any relocated node in the place of an expression is lowered to the same code. -/
theorem exprRule (hoists : Bool) (e : Ir.Expr) :
    Lower.Follows ρ (fun code => code) (r.exprRule ctx hoists e)
      (r.exprRule ctx' hoists (e.relocate ρ)) := by
  refine .bind (follows_expansion? hc _) fun expanded => ?_
  cases expanded with
  | some => exact h.expr hc _ _
  | none =>
    exact .bind (follows_isCaptured hc _) fun _ => .ite (h.capture hc _ _) (h.exprCore hc _ _)

/-! ## Statements -/

/-- Relocated nodes are lowered to the same values. -/
theorem values (es : List Ir.Expr) :
    Lower.Follows ρ (fun code => code) (r.values ctx es)
      (r.values ctx' (es.map (·.relocate ρ))) := by
  induction es with
  | nil => exact .pure rfl
  | cons e es ih => exact .bind (h.expr hc _ _) fun _ => .bind ih fun _ => .pure rfl

/-- A self tail call of relocated parts is lowered to the same code. -/
theorem tailCall (t : TailCall) (args : List Ir.Expr) :
    Lower.Follows ρ (fun code => code) (r.tailCall ctx t args)
      (r.tailCall ctx' (t.relocate ρ) (args.map (·.relocate ρ))) := by
  rw [Parts.tailCall, Parts.tailCall, discardUnitArg_relocate, TailCall.bindings_relocate]
  exact .bind .markLooped fun _ => .bind (h.values hc.withoutTailCall _) fun _ =>
    .bind (follows_slotWrites hc.file _ _) fun _ => .pure rfl

/-- A recursive let of relocated parts is lowered to the same code. -/
theorem recursive (bs : List Ir.Binding) :
    Lower.Follows ρ (fun code => code) (r.recursive ctx bs)
      (r.recursive ctx' (bs.map (·.relocate ρ))) := by
  induction bs with
  | nil => exact .pure rfl
  | cons b bs ih =>
    have hrest : ∀ first : List Stmt, Lower.Follows ρ (fun code => code)
        (do let rest ← r.recursive ctx bs; return first ++ rest)
        (do let rest ← r.recursive ctx' (bs.map (·.relocate ρ)); return first ++ rest) :=
      fun _ => .bind ih fun _ => .pure rfl
    unfold Parts.recursive
    simp only [List.map_cons, Ir.Binding.relocate_value, Ir.Expr.uncast_relocate]
    cases b.value.uncast with
    | lambda arg body => exact .bind (h.localFunction hc _ [arg] _) fun _ => hrest _
    | delegate args body => exact .bind (h.localFunction hc _ _ _) fun _ => hrest _
    | _ => exact .bind (h.declare hc _ _) fun _ => hrest _

/-- A sequence of relocated parts is lowered to the same code. -/
theorem sequence (strategy : Strategy Expr) (es : List Ir.Expr) :
    Lower.Follows ρ (fun code => code) (r.sequence ctx strategy es)
      (r.sequence ctx' strategy (es.map (·.relocate ρ))) := by
  induction es with
  | nil => exact .pure rfl
  | cons e es ih =>
    cases es with
    | nil => exact h.stmts hc _ _
    | cons =>
      exact .bind (h.stmts hc.withoutTailCall _ _) fun _ => .bind ih fun _ => .pure rfl

/-- An assignment of relocated parts is lowered to the same code. -/
theorem assignment (place : Expr) (value : Ir.Expr) :
    Lower.Follows ρ (fun code => code) (r.assignment ctx place value)
      (r.assignment ctx' place (value.relocate ρ)) :=
  .bind (.isStatement hc _ _) fun _ => .ite (h.stmts hc _ _)
    (.bind (h.expr hc _ _) fun _ => .pure rfl)

/-- A counting loop of relocated parts is lowered to the same code. -/
theorem forLoop (id : Ir.Ident) (start limit body : Ir.Expr) (isUp : Bool) :
    Lower.Follows ρ (fun code => code) (r.forLoop ctx id start limit body isUp)
      (r.forLoop ctx' (id.relocate ρ) (start.relocate ρ) (limit.relocate ρ) (body.relocate ρ)
        isUp) :=
  .bind (h.expr hc _ _) fun _ => .bind (h.expr hc _ _) fun _ => .bind (h.stmts hc _ _) fun _ =>
    .bind (follows_lowerIdent hc.file _) fun _ => .pure rfl

/-- A handler of relocated parts is lowered to the same code. -/
theorem handler (strategy : Strategy Expr) (hd : Option Ir.Handler) :
    Lower.Follows ρ (fun code => code) (r.handler ctx strategy hd)
      (r.handler ctx' strategy (hd.map (·.relocate ρ))) := by
  cases hd with
  | none => exact .pure rfl
  | some =>
    exact .bind (follows_lowerIdent hc.file _) fun _ => .bind (h.stmts hc _ _) fun _ => .pure rfl

/-- A finalizer of relocated parts is lowered to the same code. -/
theorem finalizer (e : Option Ir.Expr) :
    Lower.Follows ρ (fun code => code) (r.finalizer ctx e)
      (r.finalizer ctx' (e.map (·.relocate ρ))) := by
  cases e with
  | none => exact .pure rfl
  | some => exact .bind (h.stmts hc _ _) fun _ => .pure rfl

omit h in

/-- Relocated targets bind the same variables, which are declared the same way. -/
theorem follows_targetVariables (targets : List Ir.Target) :
    Lower.Follows ρ (fun code => code) (targetVariables ctx targets)
      (targetVariables ctx' (targets.map (·.relocate ρ))) := by
  have hbound : ((targets.map (·.relocate ρ)).filter (!ctx'.hoists ·.bound)).flatMap (·.bound) =
      ((targets.filter (!ctx.hoists ·.bound)).flatMap (·.bound)).map (·.relocate ρ) := by
    simp [List.filter_map, List.flatMap_map, List.map_flatMap, Function.comp_def, hc.hoists]
  unfold targetVariables
  rw [hbound]
  exact .bind (follows_lowerIdents hc.file _) fun _ => .pure rfl

/-- The bodies of targets of relocated parts are lowered to the same code. -/
theorem targetBodies (strategy : Strategy Expr) (ts : List Ir.Target) :
    Lower.Follows ρ (fun code => code) (r.targetBodies ctx strategy ts)
      (r.targetBodies ctx' strategy (ts.map (·.relocate ρ))) := by
  induction ts with
  | nil => exact .pure rfl
  | cons t ts ih => exact .bind (h.stmts hc _ _) fun _ => .bind ih fun _ => .pure rfl

/-- A decision tree of relocated parts is lowered to the same code. -/
theorem decisionTree (strategy : Strategy Expr) (dispatcher : Ir.Expr)
    (targets : List Ir.Target) :
    Lower.Follows ρ (fun code => code) (r.decisionTree ctx strategy dispatcher targets)
      (r.decisionTree ctx' strategy (dispatcher.relocate ρ) (targets.map (·.relocate ρ))) := by
  unfold Parts.decisionTree
  rw [List.length_map, Ir.Expr.sharedTargets_relocate]
  refine .ite (h.stmts (hc.withTargets _) _ _) (.bind (.allocateLocal _) fun _ => ?_)
  exact .bind (follows_targetVariables hc _) fun _ =>
    .bind (h.stmts (hc.withTargets _).withoutTailCall _ _) fun _ =>
      .bind (h.targetBodies hc _ _) fun _ => .pure rfl

/-- Declarations of what a target binds of relocated parts are lowered to the same code. -/
theorem bindings (ids : List Ir.Ident) (values : List Ir.Expr) :
    Lower.Follows ρ (fun code => code) (r.bindings ctx ids values)
      (r.bindings ctx' (ids.map (·.relocate ρ)) (values.map (·.relocate ρ))) := by
  induction ids generalizing values with
  | nil => exact .pure rfl
  | cons id ids ih =>
    cases values with
    | nil => exact .pure rfl
    | cons => exact .bind (h.declare hc _ _) fun _ => .bind (ih _) fun _ => .pure rfl

/-- Assignments to what a target binds of relocated parts are lowered to the same code. -/
theorem assignments (ids : List Ir.Ident) (values : List Ir.Expr) :
    Lower.Follows ρ (fun code => code) (r.assignments ctx ids values)
      (r.assignments ctx' (ids.map (·.relocate ρ)) (values.map (·.relocate ρ))) := by
  induction ids generalizing values with
  | nil => exact .pure rfl
  | cons id ids ih =>
    cases values with
    | nil => exact .pure rfl
    | cons =>
      exact .bind (follows_lowerIdent hc.file _) fun _ =>
        .bind (h.stmts hc.withoutTailCall _ _) fun _ => .bind (ih _) fun _ => .pure rfl

/-- A success node of relocated parts is lowered to the same code. -/
theorem success (strategy : Strategy Expr) (index : Nat) (values : List Ir.Expr) :
    Lower.Follows ρ (fun code => code) (r.success ctx strategy index values)
      (r.success ctx' strategy index (values.map (·.relocate ρ))) := by
  refine .bind (follows_target hc _) fun _ => ?_
  cases strategy with
  | join => exact .bind (h.assignments hc _ _) fun _ => .pure rfl
  | ret | effect | assign =>
    exact .bind (h.bindings hc _ _) fun _ => .bind (h.stmts hc _ _) fun _ => .pure rfl

/-- A conditional statement of relocated parts is lowered to the same code. -/
theorem conditionalStmts (strategy : Strategy Expr) (guard thenExpr elseExpr : Ir.Expr) :
    Lower.Follows ρ (fun code => code) (r.conditionalStmts ctx strategy guard thenExpr elseExpr)
      (r.conditionalStmts ctx' strategy (guard.relocate ρ) (thenExpr.relocate ρ)
        (elseExpr.relocate ρ)) :=
  .bind (h.expr hc.withoutTailCall _ _) fun _ => .bind (h.stmts hc _ _) fun _ =>
    .bind (h.stmts hc _ _) fun _ => .pure rfl

omit h in

/-- Whether a cast is dropped does not depend on where it is. -/
theorem follows_dropsCast (strategy : Strategy Expr) (inner : Ir.Expr) :
    Lower.Follows ρ (fun b => b) (dropsCast ctx strategy inner)
      (dropsCast ctx' strategy (inner.relocate ρ)) :=
  .ite (.pure rfl) (.isStatement hc _ _)

omit h in

/-- Contexts that differ in locations prefer statements alike. -/
theorem prefersStatement_relocate (strategy : Strategy Expr) :
    prefersStatement ctx' strategy = prefersStatement ctx strategy := by
  cases strategy <;> simp [prefersStatement, hc.tailCall]

/-- Any relocated node in the place of statements is lowered to the same code. -/
theorem stmtsRule (strategy : Strategy Expr) (e : Ir.Expr) :
    Lower.Follows ρ (fun code => code) (r.stmtsRule ctx strategy e)
      (r.stmtsRule ctx' strategy (e.relocate ρ)) := by
  cases e with
  | cast inner ty =>
    exact .bind (follows_dropsCast hc _ _) fun _ => .ite (h.stmts hc _ _)
      (h.delivered hc _ (.cast inner ty))
  | call callee receiver args isNew ty loc =>
    have hdelivered := h.delivered hc strategy (.call callee receiver args isNew ty loc)
    simp only [Ir.Expr.relocate, Ir.Expr.relocateOption_eq, Ir.Expr.relocateList_eq]
      at hdelivered ⊢
    unfold Parts.stmtsRule
    dsimp only
    rw [hc.selfTailCall? (Eq.refl strategy.isTail)]
    cases ctx.selfTailCall? strategy callee receiver args isNew with
    | none => exact hdelivered
    | some t => exact h.tailCall hc t args
  | ifThenElse guard thenExpr elseExpr loc =>
    unfold Parts.stmtsRule
    simp only [Ir.Expr.relocate, prefersStatement_relocate hc]
    exact .bind (.isStatement hc _ (.ifThenElse guard thenExpr elseExpr loc)) fun _ =>
      .ite (h.conditionalStmts hc _ _ _ _)
        (h.delivered hc _ (.ifThenElse guard thenExpr elseExpr loc))
  | decisionTree =>
    rw [Ir.Expr.relocate, Ir.Expr.relocateTargets_eq]
    exact h.decisionTree hc _ _ _
  | success =>
    rw [Ir.Expr.relocate, Ir.Expr.relocateList_eq]
    exact h.success hc _ _ _
  | letIn => exact .bind (h.declare hc _ _) fun _ => .bind (h.stmts hc _ _) fun _ => .pure rfl
  | letRec =>
    rw [Ir.Expr.relocate, Ir.Expr.relocateBindings_eq]
    exact .bind (h.recursive hc _) fun _ => .bind (h.stmts hc _ _) fun _ => .pure rfl
  | sequence =>
    rw [Ir.Expr.relocate, Ir.Expr.relocateList_eq]
    exact h.sequence hc _ _
  | set =>
    exact .bind (h.expr hc.withoutTailCall _ _) fun _ =>
      .bind (h.assignment hc.withoutTailCall _ _) fun _ => .pure rfl
  | setIndex =>
    exact .bind (h.expr hc.withoutTailCall _ _) fun _ =>
      .bind (h.expr hc.withoutTailCall _ _) fun _ =>
        .bind (h.assignment hc.withoutTailCall _ _) fun _ => .pure rfl
  | whileLoop =>
    exact .bind (h.expr hc.withoutTailCall _ _) fun _ =>
      .bind (h.stmts hc.withoutTailCall _ _) fun _ => .pure rfl
  | forLoop => exact .bind (h.forLoop hc.withoutTailCall _ _ _ _ _) fun _ => .pure rfl
  | tryCatch =>
    rw [Ir.Expr.relocate, Ir.Expr.relocateHandler_eq, Ir.Expr.relocateOption_eq]
    exact .bind (h.stmts hc.withoutTailCall _ _) fun _ =>
      .bind (h.handler hc.withoutTailCall _ _) fun _ =>
        .bind (h.finalizer hc.withoutTailCall _) fun _ => .pure rfl
  | throw error =>
    cases error with
    | some => exact .bind (h.expr hc.withoutTailCall _ _) fun _ => .pure rfl
    | none => exact .pure rfl
  | debugger => exact .bind (.importWhole _) fun _ => .pure rfl
  | emit template args isStatement ty loc =>
    cases isStatement with
    | true =>
      rw [Ir.Expr.relocate, Ir.Expr.relocateList_eq]
      exact .bind (h.operands hc.withoutTailCall _ _) fun _ => .pure rfl
    | false => exact h.delivered hc strategy (.emit template args false ty loc)
  | literal | option | aggregate | ident | imported | lambda | delegate | object | apply | unary
  | binary | logical | get | getIndex | test | curry => exact h.delivered hc strategy _

end Parts.Follows

/-! ## The rules -/

/-- The rules follow a relocation at every depth. -/
theorem rules_follow (ρ : Relocation) (depth : Nat) : (rules depth).Follows ρ := by
  induction depth with
  | zero => exact ⟨fun _ _ _ => .fail rfl, fun _ _ _ => .fail rfl⟩
  | succ depth ih => exact ⟨fun hc _ e => ih.exprRule hc _ e, fun hc _ e => ih.stmtsRule hc _ e⟩

/-! ## Declarations -/

section
variable {ctx ctx' : Context} (hc : ctx.Follows ρ ctx')
include hc

/-- A relocated expression is lowered to the same code, with the same statements before it. -/
theorem captureExpr_follows (e : Ir.Expr) :
    Lower.Follows ρ (fun code => code) (captureExpr ctx e) (captureExpr ctx' (e.relocate ρ)) := by
  rw [captureExpr, captureExpr, hc.depth]
  exact (rules_follow ρ _).expr hc _ e

/-- A relocated node is lowered to the same statements. -/
theorem lowerStmts_follows (strategy : Strategy Expr) (e : Ir.Expr) :
    Lower.Follows ρ (fun code => code) (lowerStmts ctx strategy e)
      (lowerStmts ctx' strategy (e.relocate ρ)) := by
  rw [lowerStmts, lowerStmts, hc.depth]
  exact (rules_follow ρ _).stmts hc _ e

/-- A function of relocated parts is lowered to the same code. -/
theorem lowerFunction_follows (name : Option String) (params : List Ir.Ident) (body : Ir.Expr) :
    Lower.Follows ρ (fun code => code) (lowerFunction ctx name params body)
      (lowerFunction ctx' name (params.map (·.relocate ρ)) (body.relocate ρ)) := by
  rw [lowerFunction, lowerFunction, hc.depth]
  exact (rules_follow ρ _).function hc name params body

/-- A method of relocated parts is lowered to the same code. -/
theorem lowerMethod_follows (m : Ir.Member) :
    Lower.Follows ρ (fun code => code) (lowerMethod ctx m) (lowerMethod ctx' (m.relocate ρ)) := by
  have htypes : (m.args.map (·.relocate ρ)).map (·.ty) = m.args.map (·.ty) := by
    rw [List.map_map]
    rfl
  refine .bind (lowerFunction_follows hc _ _ _) fun _ => .pure ?_
  simp only [Ir.Member.relocate, Ir.Expr.type_relocate, functionGenerics, htypes]

/-- Methods of relocated parts are lowered to the same code. -/
theorem lowerMethods_follows (ms : List Ir.Member) :
    Lower.Follows ρ (fun code => code) (lowerMethods ctx ms)
      (lowerMethods ctx' (ms.map (·.relocate ρ))) := by
  induction ms with
  | nil => exact .pure rfl
  | cons m ms ih => exact .bind (lowerMethod_follows hc _) fun _ => .bind ih fun _ => .pure rfl

/-- A relocated member of a file is lowered to the same declaration. -/
theorem lowerMember_follows (m : Ir.Member) :
    Lower.Follows ρ (fun code => code) (lowerMember ctx m) (lowerMember ctx' (m.relocate ρ)) := by
  unfold lowerMember
  rw [show (m.relocate ρ).body.type = m.body.type from Ir.Expr.type_relocate _]
  refine .ite (.bind (follows_lowerType hc.file _) fun _ => ?_)
    (.bind (lowerMethod_follows hc _) fun _ => .pure rfl)
  exact .bind (captureExpr_follows hc _) fun _ => .pure rfl

omit hc in

/-- The fields of a class are lowered to the same code in a relocated file. -/
theorem lowerFields_follows {file file' : SourceFile} (hf : file' = file.relocate ρ)
    (fields : List Field) :
    Lower.Follows ρ (fun code => code) (lowerFields file fields) (lowerFields file' fields) := by
  induction fields with
  | nil => exact .pure rfl
  | cons f fs ih => exact .bind (follows_lowerType hf _) fun _ => .bind ih fun _ => .pure rfl

/-- The fields and the constructor of a class of relocated parts are lowered to the same code. -/
theorem lowerShape_follows (entity : Entity) (constructor : Option Ir.Member) :
    Lower.Follows ρ (fun code => code) (lowerShape ctx entity constructor)
      (lowerShape ctx' entity (constructor.map (·.relocate ρ))) := by
  unfold lowerShape
  cases entity.kind with
  | record => exact .bind (lowerFields_follows hc.file _) fun _ => .pure rfl
  | union => exact .pure rfl
  | plain =>
    cases constructor with
    | none => exact .pure rfl
    | some m => exact .bind (lowerFunction_follows hc _ _ _) fun _ => .pure rfl

/-- A class of relocated parts is lowered to the same code. -/
theorem lowerClass_follows (decl : Ir.ClassDecl) :
    Lower.Follows ρ (fun code => code) (lowerClass ctx decl) (lowerClass ctx' (decl.relocate ρ)) :=
  .bind (follows_entity hc.file _) fun _ => .bind (lowerShape_follows hc _ _) fun _ =>
    .bind (lowerMethods_follows hc _) fun _ => .pure rfl

end

/-! ## Files -/

/-- A relocated declaration of a file is lowered to the same output. -/
theorem lowerLeaf_follows (file : SourceFile) (leaf : Ir.Leaf) :
    Lower.Follows ρ (fun output => output) (lowerLeaf file leaf)
      (lowerLeaf (file.relocate ρ) (leaf.relocate ρ)) := by
  have hc := Context.Follows.ofFile ρ file
  unfold lowerLeaf
  cases leaf with
  | action a =>
    exact .inDeclaration _ (.bind (lowerStmts_follows hc _ _) fun _ => .pure rfl)
  | member m => exact .inDeclaration _ (.bind (lowerMember_follows hc _) fun _ => .pure rfl)
  | classDecl c => exact .inDeclaration _ (.bind (lowerClass_follows hc _) fun _ => .pure rfl)

/-- The declarations of a relocated file are lowered to the same output, with other notes in the
journal but no failure. -/
theorem lowerLeaves_follows (file : SourceFile) (leaves : List Ir.Leaf) (s : LowerState) :
    ∃ notes : List Note, (∀ note ∈ notes, note.IsQuiet) ∧ ∀ j,
      lowerLeaves (file.relocate ρ) (leaves.map (·.relocate ρ)) { s with journal := j } =
        let (result, output, t) := lowerLeaves file leaves s
        (Lower.relocated ρ (fun u => u) result, output, { t with journal := j.notes notes }) := by
  induction leaves generalizing s with
  | nil => exact ⟨[], nofun, fun _ => rfl⟩
  | cons leaf leaves ih =>
    obtain ⟨notes, hquiet, hleaf⟩ := lowerLeaf_follows (ρ := ρ) file leaf s
    simp only [List.map_cons, lowerLeaves, hleaf]
    rcases lowerLeaf file leaf s with ⟨e | output, t⟩
    · exact ⟨notes, hquiet, fun _ => rfl⟩
    · obtain ⟨notes', hquiet', hleaves⟩ := ih t
      refine ⟨notes ++ notes',
        fun note => (List.mem_append.1 · |>.elim (hquiet note) (hquiet' note)), fun j => ?_⟩
      rw [Journal.notes_append]
      simp only [Lower.relocated, hleaves]

/-- The function for the actions of a file is made with the same names in a relocated file. -/
theorem mainFunction_follows (actions : List Stmt) :
    Lower.Follows ρ (fun decls => decls) (mainFunction actions) (mainFunction actions) :=
  .ite (.pure rfl) (.bind (.allocateRoot _) fun _ => .pure rfl)

/-- The library for a file whose locations are changed is the library for the file, whatever stands
in the journal. -/
theorem lowerFile_follows (ρ : Relocation) (file : SourceFile) (content : Ir.File)
    (j : Journal) : ∃ notes : List Note, (∀ note ∈ notes, note.IsQuiet) ∧ ∀ j₁,
      lowerFile (file.relocate ρ) (content.relocate ρ) j₁ =
        (Lower.relocated ρ (fun library => library) (lowerFile file content j).1,
          j₁.notes notes) := by
  obtain ⟨notes, hquiet, hleaves⟩ := lowerLeaves_follows (ρ := ρ) file
    (Ir.Declaration.leavesList content.declarations) (.start j content.used reservedWords)
  unfold lowerFile
  simp only [Ir.File.relocate, Ir.Declaration.relocateList_eq, Ir.Declaration.leavesList_relocate]
  have hstart : ∀ j₁, lowerLeaves (file.relocate ρ)
      ((Ir.Declaration.leavesList content.declarations).map (·.relocate ρ))
      (.start j₁ content.used reservedWords) = _ := hleaves
  simp only [hstart]
  rcases lowerLeaves file (Ir.Declaration.leavesList content.declarations)
    (.start j content.used reservedWords) with ⟨e | _, output, t⟩
  · exact ⟨notes, hquiet, fun _ => rfl⟩
  · obtain ⟨notes', hquiet', hmain⟩ := mainFunction_follows (ρ := ρ) output.actions t
    refine ⟨notes ++ notes',
      fun note => (List.mem_append.1 · |>.elim (hquiet note) (hquiet' note)), fun j₁ => ?_⟩
    simp only [Lower.relocated, hmain (j₁.notes notes), Journal.notes_append]
    rcases mainFunction output.actions t with ⟨e | more, t⟩ <;> rfl

end TypedLowering.Dart
