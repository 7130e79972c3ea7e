import TypedLowering.Proofs.Dart.Control
import TypedLowering.Proofs.Dart.Declaration
import TypedLowering.Proofs.Ir.WellFormed
import TypedLowering.Proofs.Lowering.Dispatcher
import TypedLowering.Proofs.Lowering.Room

/-!
# What the blocks of lowered Dart declare

`blocks` lists, for each function body and block in code, the variables and functions that it
declares. Parts are lowered to code whose blocks declare a name once at most (`Parts.KeepsBlocks`),
and so are the rules with such parts. The statements that run before an expression join those of
the block around it, so operands share the room for a name.
-/

namespace TypedLowering.Dart

mutual

/-- What each function body and each block in an expression declares. -/
def Expr.blocks : Expr → List (List String)
  | .literal _ | .ident _ | .this => []
  | .list items _ | .emit _ items => itemBlocks items
  | .unary _ operand | .property operand _ | .typeTest operand _ | .cast operand _
  | .nullCheck operand => operand.blocks
  | .binary _ left right | .logical _ left right | .index left right =>
    left.blocks ++ right.blocks
  | .conditional test thenExpr elseExpr => test.blocks ++ thenExpr.blocks ++ elseExpr.blocks
  | .call callee args named => callee.blocks ++ itemBlocks args ++ namedBlocks named
  | .function _ body _ => introduced body :: innerBlocks body

/-- What the blocks in expressions declare. -/
def itemBlocks : List Expr → List (List String)
  | [] => []
  | e :: es => e.blocks ++ itemBlocks es

/-- What the blocks in named arguments declare. -/
def namedBlocks : List NamedArg → List (List String)
  | [] => []
  | ⟨_, value⟩ :: rest => value.blocks ++ namedBlocks rest

/-- What each function body and each block in a statement declares. -/
def Stmt.blocks : Stmt → List (List String)
  | .expr e | .throw e => e.blocks
  | .ret value | .declare _ _ value => optionBlocks value
  | .assign target value => target.blocks ++ value.blocks
  | .ifElse guard thenBody elseBody =>
    guard.blocks ++ introduced thenBody :: innerBlocks thenBody ++
      introduced elseBody :: innerBlocks elseBody
  | .whileLoop guard body => guard.blocks ++ introduced body :: innerBlocks body
  | .forLoop _ start limit _ body =>
    start.blocks ++ limit.blocks ++ introduced body :: innerBlocks body
  | .switch value cases default =>
    -- Each case of a switch is a block of its own.
    value.blocks ++ caseBlocks cases ++ finalizerBlocks default
  | .tryCatch body handler finalizer =>
    introduced body :: innerBlocks body ++ handlerBlocks handler ++ finalizerBlocks finalizer
  | .rethrow | .breakTo _ | .continueTo _ => []
  | .labeled _ body => body.blocks
  | .function func => func.blocks

/-- What the function bodies and blocks inside the statements of a block declare. -/
def innerBlocks : List Stmt → List (List String)
  | [] => []
  | s :: ss => s.blocks ++ innerBlocks ss

/-- What the blocks in an expression declare that may be missing. -/
def optionBlocks : Option Expr → List (List String)
  | none => []
  | some e => e.blocks

/-- What a handler and the blocks in it declare. -/
def handlerBlocks : Option CatchClause → List (List String)
  | none => []
  | some ⟨_, body⟩ => introduced body :: innerBlocks body

/-- The block of a finalizer or of a default case. -/
def finalizerBlocks : Option (List Stmt) → List (List String)
  | none => []
  | some stmts => introduced stmts :: innerBlocks stmts

/-- What the cases of a switch and the blocks in them declare. -/
def caseBlocks : List SwitchCase → List (List String)
  | [] => []
  | ⟨guards, body⟩ :: rest =>
    itemBlocks guards ++ introduced body :: innerBlocks body ++ caseBlocks rest

/-- What the body of a function and the blocks in it declare. -/
def Func.blocks : Func → List (List String)
  | ⟨_, _, body, _, _⟩ => introduced body :: innerBlocks body

end

/-- What a block declares, and what the blocks inside do. -/
def blocks (stmts : List Stmt) : List (List String) :=
  introduced stmts :: innerBlocks stmts

/-- What each function body and each block in a declaration of a library declares. -/
def Declaration.blocks : Declaration → List (List String)
  | .value _ e _ => e.blocks
  | .function func => func.blocks
  | .classDecl decl =>
    decl.constructor.toList.flatMap (fun c => Dart.blocks c.body) ++
      decl.methods.flatMap Func.blocks

/-- The name that a declaration of a library declares. -/
def Declaration.name : Declaration → String
  | .value id _ _ => id.name
  | .function func => func.name
  | .classDecl decl => decl.name

open Lower (Adds)

variable {load : String → List String} {x : String}

/-- In expressions, a block declares the name once if this holds of each of them. -/
theorem once_itemBlocks {es : List Expr} : Once x (itemBlocks es) ↔ ∀ e ∈ es, Once x e.blocks := by
  induction es with
  | nil => simp [itemBlocks]
  | cons e es ih => rw [itemBlocks, Once.append_iff, ih, List.forall_mem_cons]

/-- Whether statements declare a name so many times at most, and the blocks inside once at most. -/
structure DeclaresAtMost (x : String) (n : Nat) (stmts : List Stmt) : Prop where
  count : (introduced stmts).count x ≤ n
  inner : Once x (innerBlocks stmts)

namespace DeclaresAtMost

variable {m n : Nat} {as bs : List Stmt} {s : Stmt}

/-- No statements declare nothing. -/
theorem nil : DeclaresAtMost x n [] :=
  ⟨Nat.zero_le _, .nil⟩

/-- What declares the name so often at most does so for any larger number. -/
theorem mono (h : DeclaresAtMost x m as) (hmn : m ≤ n) : DeclaresAtMost x n as :=
  ⟨h.count.trans hmn, h.inner⟩

/-- Two parts of a block declare the name as often as both together. -/
theorem append (ha : DeclaresAtMost x m as) (hb : DeclaresAtMost x n bs) :
    DeclaresAtMost x (m + n) (as ++ bs) := by
  constructor
  · rw [introduced, List.flatMap_append, List.count_append]
    exact Nat.add_le_add ha.count hb.count
  · have happend : innerBlocks (as ++ bs) = innerBlocks as ++ innerBlocks bs := by
      clear ha hb
      induction as with
      | nil => rfl
      | cons a as ih => rw [List.cons_append, innerBlocks, ih, innerBlocks, List.append_assoc]
    exact happend ▸ Once.append_iff.2 ⟨ha.inner, hb.inner⟩

/-- A statement and those after it declare the name as often as both together. -/
theorem cons (hs : DeclaresAtMost x m [s]) (hb : DeclaresAtMost x n bs) :
    DeclaresAtMost x (m + n) (s :: bs) :=
  hs.append hb

/-- One statement. -/
theorem single (hcount : s.introduced.count x ≤ n) (h : Once x s.blocks) :
    DeclaresAtMost x n [s] :=
  ⟨by rwa [introduced, List.flatMap_singleton], Once.append_iff.2 ⟨h, .nil⟩⟩

/-- The statements of a block. -/
theorem once (h : DeclaresAtMost x n as) (hn : n ≤ 1) : Once x (blocks as) :=
  Once.cons_iff.2 ⟨h.count.trans hn, h.inner⟩

/-- A declaration declares its name. -/
theorem declare (id : Ident) (kind : VarKind) {value : Option Expr}
    (h : Once x (optionBlocks value)) :
    DeclaresAtMost x ([id.name].count x) [.declare id kind value] :=
  single (Nat.le_refl _) h

/-- A statement that declares nothing. -/
theorem plain (hcount : s.introduced = []) (h : Once x s.blocks) : DeclaresAtMost x 0 [s] :=
  single (hcount ▸ Nat.le_refl _) h

end DeclaresAtMost

/-- The same of the statements before a value, and of the value. -/
structure Hoisted.DeclaresAtMost {α : Type} (x : String) (n : Nat) (ofValue : α → Prop)
    (v : Hoisted α) : Prop where
  before : Dart.DeclaresAtMost x n v.before
  value : ofValue v.value

/-- A value whose blocks declare a name once at most, after such statements. -/
abbrev Hoisted.Keeps (x : String) (n : Nat) (v : Hoisted Expr) : Prop :=
  v.DeclaresAtMost x n fun value => Once x value.blocks

/-- Values that declare the name so often at most in their statements, and once in each block of
theirs. -/
abbrev Hoisted.KeepsAll (x : String) (n : Nat) (v : Hoisted (List Expr)) : Prop :=
  v.DeclaresAtMost x n fun values => ∀ e ∈ values, Once x e.blocks

/-- What a strategy writes to. -/
def PlaceOnce (x : String) : Strategy Expr → Prop
  | .assign place => Once x place.blocks
  | .ret | .effect | .join _ => True

/-- The place of the value of a function has no blocks. -/
theorem placeOnce_ofType (isUnit : Bool) : PlaceOnce x (.ofType isUnit) := by
  cases isUnit <;> trivial

/-- A value is put in its place without a declaration. -/
theorem declaresAtMost_deliver {strategy : Strategy Expr} {value : Expr}
    (hstrategy : PlaceOnce x strategy) (hvalue : Once x value.blocks) :
    DeclaresAtMost x 0 (deliver strategy value) := by
  cases strategy with
  | ret => exact .plain rfl hvalue
  | assign => exact .plain rfl (Once.append_iff.2 ⟨hstrategy, hvalue⟩)
  | join => exact .plain rfl hvalue
  | effect =>
    rw [deliver]
    split
    · exact .nil
    · exact .plain rfl hvalue

/-- The end of a node without a value declares nothing. -/
theorem declaresAtMost_deliverUnit (strategy : Strategy Expr) :
    DeclaresAtMost x 0 (deliverUnit strategy) := by
  cases strategy with
  | ret => exact .plain rfl .nil
  | effect | assign | join => exact .nil

/-- The end of a branch declares nothing. -/
theorem declaresAtMost_branchEnd (target : Option Ident) {value : Expr}
    (hvalue : Once x value.blocks) : DeclaresAtMost x 0 (branchEnd target value) := by
  cases target with
  | some id => exact .plain rfl hvalue
  | none =>
    rw [branchEnd]
    split
    · exact .nil
    · exact .plain rfl hvalue

/-! ## Types and names -/

/-- An identifier keeps its name. -/
theorem lowerIdent_adds (file : SourceFile) (id : Ir.Ident) {k : Nat} :
    Adds x k (lowerIdent file id) fun _ place => place.name = id.name :=
  .bind (.of_below (below_lowerType _ _)) fun _ _ _ => .pure fun _ => rfl

/-- Identifiers keep their names. -/
theorem lowerIdents_adds (file : SourceFile) (ids : List Ir.Ident) {k : Nat} :
    Adds x k (lowerIdents file ids) fun _ places =>
      places.map (·.name) = ids.map (·.name) := by
  induction ids generalizing k with
  | nil => exact .pure fun _ => rfl
  | cons id ids ih =>
    exact .bind (lowerIdent_adds _ _) fun _ _ hfirst => .bind ih fun _ _ hrest =>
      .pure fun _ => List.cons_eq_cons.2 ⟨hfirst, hrest⟩

/-- A new local is made. -/
theorem freshLocal_adds (file : SourceFile) (candidate : String) (ty : Ir.Ty) {k : Nat} :
    Adds x k (freshLocal file candidate ty) fun d id => [id.name].count x ≤ d :=
  .bind (.allocateLocal candidate) fun _ _ hname => .bind (.of_below (below_lowerType _ _))
    fun _ _ _ => .pure fun _ => (Nat.le_of_eq hname).trans (Nat.le_add_right _ _)

/-- A local that saves an operand may declare the name, and counts for it. -/
theorem saveOperands_adds {file : SourceFile} {operands : List (Expr × Ir.Ty)} {k : Nat}
    (h : ∀ d ∈ operands, Once x d.1.blocks) :
    Adds x k (saveOperands file operands) fun d saved =>
      saved.DeclaresAtMost x d fun saved => ∀ d ∈ saved, Once x d.1.blocks := by
  induction operands generalizing k with
  | nil => exact .pure fun _ => ⟨.nil, nofun⟩
  | cons operand operands ih =>
    obtain ⟨hfirst, hrest⟩ := List.forall_mem_cons.1 h
    refine .ite (fun _ => .bind (ih hrest) fun _ _ hsaved => .pure fun _ => ?_) fun _ =>
      .bind (freshLocal_adds _ _ _) fun d id hid => .bind (ih hrest) fun d' _ hsaved =>
        .pure fun _ => ?_
    · exact ⟨hsaved.before, List.forall_mem_cons.2 ⟨hfirst, hsaved.value⟩⟩
    · refine ⟨?_, List.forall_mem_cons.2 ⟨.nil, hsaved.value⟩⟩
      exact ((DeclaresAtMost.declare id .final hfirst).cons hsaved.before).mono (by omega)

/-- The copies with which an iteration of a loop begins. -/
theorem loopParams_adds (file : SourceFile) (slots : List (Ir.Ident × String)) {k : Nat} :
    Adds x k (Parts.loopParams file slots) fun _ l =>
      DeclaresAtMost x (((slots.map (·.1)).map (·.name)).count x) l.2 := by
  induction slots generalizing k with
  | nil => exact .pure fun _ => .nil
  | cons b slots ih =>
    rw [List.map_cons, List.map_cons, count_cons_add]
    exact .bind (.of_below (below_lowerType _ _)) fun _ _ _ => .bind ih fun _ ⟨_, _⟩ hrest =>
      .pure fun _ => (DeclaresAtMost.declare (.own b.1.name _) .final .nil).cons hrest

/-- The writes to the slots of a loop declare nothing. -/
theorem slotWrites_adds {file : SourceFile} {slots : List (Ir.Ident × String)}
    {values : List Expr} {k : Nat} (hvalues : ∀ e ∈ values, Once x e.blocks) :
    Adds x k (Parts.slotWrites file slots values) fun _ code => DeclaresAtMost x 0 code := by
  induction slots generalizing values k with
  | nil => exact .pure fun _ => .nil
  | cons b slots ih =>
    cases values with
    | nil => exact .pure fun _ => .nil
    | cons value values =>
      obtain ⟨hvalue, hvalues⟩ := List.forall_mem_cons.1 hvalues
      refine .ite (fun _ => ih hvalues) fun _ => .bind (.of_below (below_lowerType _ _))
        fun _ _ _ => .bind (ih hvalues) fun _ _ hrest => .pure fun _ => ?_
      exact (DeclaresAtMost.plain rfl hvalue).cons hrest

/-! ## Values -/

/-- A constant has no blocks. -/
theorem once_literalValue (value : Ir.Literal) : Once x (literalValue value).blocks := by
  cases value with
  | this | null | unit | bool | char | string => exact .nil
  | number value kind =>
    rw [literalValue]
    split <;> exact .nil
  | regex source flags =>
    have hflags : ∀ flags : List Char, Once x (namedBlocks (flags.filterMap flagArg?)) := by
      intro flags
      induction flags with
      | nil => exact .nil
      | cons flag flags ih =>
        cases hflag : flagArg? flag with
        | none => rwa [List.filterMap_cons_none hflag]
        | some arg =>
          rw [List.filterMap_cons_some hflag]
          revert hflag
          unfold flagArg?
          split <;> rintro ⟨⟩ <;> exact ih
    exact hflags _

/-- A binary operation has the blocks of its operands. -/
theorem binaryValue_adds {file : SourceFile} {left right : Expr} (op : Ir.BinaryOp) (ty : Ir.Ty)
    {k : Nat} (hleft : Once x left.blocks) (hright : Once x right.blocks) :
    Adds x k (binaryValue file op left right ty) fun _ value => Once x value.blocks := by
  have hboth : Once x (left.blocks ++ right.blocks) := Once.append_iff.2 ⟨hleft, hright⟩
  have hargs : Once x (itemBlocks [right]) := Once.append_iff.2 ⟨hright, .nil⟩
  cases op with
  | exponent =>
    refine .bind (.of_below (.importWhole _)) fun _ _ _ =>
      .bind (.of_below (below_lowerType _ _)) fun _ _ _ => .pure fun _ => ?_
    have hitems : Once x (itemBlocks [left, right]) := Once.append_iff.2 ⟨hleft, hargs⟩
    exact Once.append_iff.2 ⟨hitems, .nil⟩
  | modulus =>
    exact .pure fun _ => Once.append_iff.2 ⟨Once.append_iff.2 ⟨hleft, hargs⟩, .nil⟩
  | _ => exact .pure fun _ => hboth

/-- The constructor of an entity has no blocks. -/
theorem constructorOf_adds (file : SourceFile) (entity : String) {k : Nat} :
    Adds x k (constructorOf file entity) fun _ value => Once x value.blocks :=
  .bind (.ofOption _ _) fun _ _ _ => .pure fun _ => .nil

/-- The constructor of a tuple has no blocks. -/
theorem tupleConstructor_adds (file : SourceFile) (ty : Ir.Ty) (loc : Option Ir.Location)
    {k : Nat} : Adds x k (tupleConstructor file ty loc) fun _ value => Once x value.blocks := by
  refine .bind (.of_below (below_lowerType _ _)) fun _ ty _ => ?_
  split
  · exact .pure fun _ => .nil
  · exact .fail _

/-- A member of another file has no blocks. -/
theorem importedValue_adds (file : SourceFile) (ref : Ir.ImportRef) (ty : Ir.Ty)
    (loc : Option Ir.Location) {k : Nat} :
    Adds x k (importedValue file ref ty loc) fun _ value => Once x value.blocks :=
  .ite (fun _ => .fail _) fun _ => .bind (.of_below (.resolveImport _ _)) fun _ ⟨_, _⟩ _ =>
    .bind (.of_below (.importWhole _)) fun _ _ _ => .bind (.of_below (below_lowerType _ _))
      fun _ _ _ => .pure fun _ => .nil

/-- What is read from an object has the blocks of the object. -/
theorem access_adds {file : SourceFile} {obj : Expr} (kind : Ir.Access) (ty : Ir.Ty) {k : Nat}
    (h : Once x obj.blocks) :
    Adds x k (access file obj kind ty) fun _ value => Once x value.blocks := by
  cases kind with
  | unionField =>
    exact .bind (.of_below (below_lowerType _ _)) fun _ _ _ => .pure fun _ =>
      Once.append_iff.2 ⟨h, .nil⟩
  | _ => exact .pure fun _ => h

/-- A test has the blocks of its value. -/
theorem test_adds {file : SourceFile} {value : Expr} (kind : Ir.TestKind) {k : Nat}
    (h : Once x value.blocks) :
    Adds x k (test file value kind) fun _ value => Once x value.blocks := by
  cases kind with
  | type =>
    exact .bind (.of_below (below_lowerType _ _)) fun _ _ _ => .pure fun _ => h
  | option | unionCase => exact .pure fun _ => Once.append_iff.2 ⟨h, .nil⟩

/-- Whether parts are lowered to code whose blocks declare a name once at most, where there is room
for it. -/
structure Parts.KeepsBlocks (load : String → List String) (x : String) (r : Parts) : Prop where
  expr : ∀ {ctx hoists k e}, Bounded load x ctx.file ctx.targets →
    Room load x ctx.targets false k e →
    Adds x k (r.expr ctx hoists e) fun d v => v.Keeps x (k + d)
  stmts : ∀ {ctx strategy k e}, Bounded load x ctx.file ctx.targets → PlaceOnce x strategy →
    Room load x ctx.targets strategy.joinVariable?.isSome k e →
    Adds x k (r.stmts ctx strategy e) fun d code => DeclaresAtMost x (k + d) code

namespace Parts.KeepsBlocks

variable {r : Parts} (h : r.KeepsBlocks load x) {ctx : Context} {strategy : Strategy Expr}
  {hoists : Bool} {k : Nat} {e : Ir.Expr}
include h

/-! ## Parts -/

/-- The code that delivers a value declares the name as often as the node has room for. -/
theorem delivered (hctx : Bounded load x ctx.file ctx.targets) (hstrategy : PlaceOnce x strategy)
    (he : Room load x ctx.targets false k e) :
    Adds x k (r.delivered ctx strategy e) fun d code => DeclaresAtMost x (k + d) code :=
  .bind (h.expr hctx he) fun _ _ hvalue => .pure fun _ =>
    hvalue.before.append (declaresAtMost_deliver hstrategy hvalue.value)

/-- The local that captures a value may declare the name, and counts for it. -/
theorem capture (hctx : Bounded load x ctx.file ctx.targets)
    (he : Room load x ctx.targets false k e) :
    Adds x k (r.capture ctx hoists e) fun d v => v.Keeps x (k + d) := by
  refine .ite (fun _ => .fail _) fun _ => .ite (fun _ => ?_) fun _ => ?_
  · exact .bind (h.stmts hctx trivial he) fun _ _ hstmts => .pure fun _ => ⟨hstmts, .nil⟩
  · refine .bind (freshLocal_adds _ _ _) fun d id hid => .bind (.mono (h.stmts hctx .nil he)
      (Nat.le_add_right _ _)) fun d' _ hstmts => .pure fun _ => ⟨?_, .nil⟩
    exact ((DeclaresAtMost.declare id .var .nil).cons hstmts).mono (by omega)

/-- The operands that come next, with the statements that save those before. -/
theorem operandsAfter {done : List (Expr × Ir.Ty)} {es : List Ir.Expr}
    (hctx : Bounded load x ctx.file ctx.targets) (hdone : ∀ d ∈ done, Once x d.1.blocks)
    (hes : ∀ e ∈ es, e.Closed) (hk : (es.map (Ir.Expr.weight load x)).sum ≤ k) :
    Adds x k (r.operandsAfter ctx hoists done es) fun d v =>
      v.KeepsAll x ((es.map (Ir.Expr.weight load x)).sum + d) := by
  induction es generalizing done k with
  | nil => exact .pure fun _ => ⟨.nil, List.forall_mem_map.2 hdone⟩
  | cons e es ih =>
    obtain ⟨he, hes⟩ := List.forall_mem_cons.1 hes
    rw [List.map_cons, List.sum_cons] at hk ⊢
    have hnext : ∀ {saved : List (Expr × Ir.Ty)} {value : Expr} {ty : Ir.Ty},
        (∀ d ∈ saved, Once x d.1.blocks) → Once x value.blocks →
        ∀ d ∈ saved ++ [(value, ty)], Once x d.1.blocks := fun hsaved hvalue =>
      List.forall_mem_append.2 ⟨hsaved, List.forall_mem_singleton.2 hvalue⟩
    have hjoin : ∀ {j d d' : Nat} {operand : Hoisted Expr} {saved : Hoisted (List (Expr × Ir.Ty))},
        (es.map (Ir.Expr.weight load x)).sum ≤ j → operand.Keeps x (e.weight load x + d) →
        (saved.DeclaresAtMost x d' fun saved => ∀ d ∈ saved, Once x d.1.blocks) →
        Adds x j (do
          let rest ← r.operandsAfter ctx hoists (saved.value ++ [(operand.value, e.type)]) es
          return (⟨saved.before ++ operand.before ++ rest.before, rest.value⟩ :
            Hoisted (List Expr))) fun d'' v => v.KeepsAll x
              (e.weight load x + (es.map (Ir.Expr.weight load x)).sum + (d + (d' + d''))) := by
      intro j d d' operand saved hj hoperand hsaved
      refine .bind (ih (hnext hsaved.value hoperand.value) hes hj) fun d'' rest hrest =>
        .pure fun _ => ⟨?_, hrest.value⟩
      exact ((hsaved.before.append hoperand.before).append hrest.before).mono (by omega)
    refine .bind (.mono (h.expr hctx (.of_closed he (Nat.le_refl _))) (by omega))
      fun d operand hoperand => .ite (fun _ => ?_) fun _ => ?_
    · exact .bind (Q := fun d' => Hoisted.DeclaresAtMost x d' fun saved : List (Expr × Ir.Ty) =>
        ∀ d ∈ saved, Once x d.1.blocks) (.pure fun _ => ⟨.nil, hdone⟩)
        fun _ _ hsaved => hjoin (by omega) hoperand hsaved
    · exact .bind (saveOperands_adds hdone) fun _ _ hsaved => hjoin (by omega) hoperand hsaved

/-- In operands from left to right, a block declares the name as often as the parts have room
for. -/
theorem operands {es : List Ir.Expr} (hctx : Bounded load x ctx.file ctx.targets)
    (hes : ∀ e ∈ es, e.Closed) (hk : (es.map (Ir.Expr.weight load x)).sum ≤ k) :
    Adds x k (r.operands ctx hoists es) fun d v =>
      v.KeepsAll x ((es.map (Ir.Expr.weight load x)).sum + d) :=
  h.operandsAfter hctx nofun hes hk

/-- In two operands, a block declares the name as often as the parts have room for. -/
theorem operandPair {left right : Ir.Expr} (hctx : Bounded load x ctx.file ctx.targets)
    (hleft : left.Closed) (hright : right.Closed)
    (hk : left.weight load x + right.weight load x ≤ k) :
    Adds x k (r.operandPair ctx hoists left right) fun d v =>
      v.DeclaresAtMost x (left.weight load x + right.weight load x + d) fun both =>
        Once x both.1.blocks ∧ Once x both.2.blocks := by
  have hes : ∀ e ∈ [left, right], e.Closed :=
    List.forall_mem_cons.2 ⟨hleft, List.forall_mem_singleton.2 hright⟩
  refine .bind (h.operands hctx hes hk) fun d both hboth => ?_
  split
  · rename_i heq
    obtain ⟨ha, hb⟩ := List.forall_mem_cons.1 (heq ▸ hboth.value)
    exact .pure fun _ => ⟨hboth.before, ha, hb _ List.mem_cons_self⟩
  · exact .pure fun _ => ⟨hboth.before, .nil, .nil⟩

/-- A declaration declares its name. -/
theorem declare {id : Ir.Ident} (hctx : Bounded load x ctx.file ctx.targets) (he : e.Closed)
    (hk : [id.name].count x + e.weight load x ≤ k) :
    Adds x k (r.declare ctx id e) fun d code =>
      DeclaresAtMost x ([id.name].count x + e.weight load x + d) code := by
  have hroom : ∀ {stores}, Room load x ctx.targets stores (e.weight load x) e :=
    .of_closed he (Nat.le_refl _)
  have hle : e.weight load x ≤ k := by omega
  refine .ite (fun _ => ?_) fun _ => .bind (lowerIdent_adds _ _) fun d₀ place hplace =>
    .bind (.isStatement _ _ _) fun d₁ _ _ => .ite (fun _ => ?_) fun _ => ?_
  · exact .imp (.mono (h.stmts hctx trivial hroom) hle) fun d _ _ hcode => hcode.mono (by omega)
  · refine .bind (.mono (h.stmts hctx .nil hroom) (by omega)) fun d _ hcode => .pure fun _ => ?_
    exact ((hplace ▸ DeclaresAtMost.declare place _ .nil).cons hcode).mono (by omega)
  · refine .bind (.mono (h.expr hctx hroom) (by omega)) fun d _ hvalue => .pure fun _ => ?_
    exact (hvalue.before.append (hplace ▸ DeclaresAtMost.declare place _ hvalue.value)).mono
      (by omega)

/-- In a closure, each block declares the name once at most. -/
theorem closure {params : List Ir.Ident} {body : Ir.Expr}
    (hctx : Bounded load x ctx.file ctx.targets) (hbody : body.Closed)
    (hk : body.weight load x ≤ k) :
    Adds x k (r.closure ctx params body) fun _ code => Once x code.blocks :=
  .bind (.of_below (below_lowerIdents _ _)) fun _ _ _ =>
    .bind (.mono (h.stmts hctx (placeOnce_ofType _) (.of_closed hbody (Nat.le_refl _))) (by omega))
      fun _ _ hstmts => .bind (.of_below (below_lowerType _ _)) fun _ _ _ => .pure fun _ =>
        hstmts.once (by omega)

/-- A function that became a loop has nothing but the loop in its body, and each iteration is a
block of its own. -/
theorem function {name : Option String} {params : List Ir.Ident} {body : Ir.Expr}
    (hctx : Bounded load x ctx.file ctx.targets) (hbody : body.Closed)
    (hk : (params.map (·.name)).count x + body.weight load x ≤ k) :
    Adds x k (r.function ctx name params body) fun _ f => Once x (blocks f.2.1) := by
  have hroom : ∀ {targets stores}, Room load x targets stores (body.weight load x) body :=
    .of_closed hbody (Nat.le_refl _)
  unfold Parts.function
  dsimp only
  refine .bind (.of_below (below_lowerType _ _)) fun d₀ _ _ => ?_
  split
  · refine .bind (.allocateTailCall _ _) fun d₁ loop hloop =>
      .bind (.inFunction (.mono (h.stmts hctx (placeOnce_ofType _) hroom) (by omega)))
        fun d inner hinner => .ite (fun _ => .bind (loopParams_adds _ _) fun d' l hcopies =>
          .pure fun _ => ?_) fun _ => .bind (.of_below (below_lowerIdents _ _)) fun _ _ _ =>
            .pure fun _ => hinner.once (by omega)
    have hdeclared := ((declaredParams_sublist params).map (·.name)).count_le x
    have hexit : DeclaresAtMost x 0
        (if (Strategy.ofType body.type.isUnit : Strategy Expr).isEffect then [Stmt.breakTo none]
          else []) := by
      split
      · exact .plain rfl .nil
      · exact .nil
    have hiteration := ((hcopies.append hinner).append hexit).once (by omega)
    exact (DeclaresAtMost.plain rfl hiteration).once (Nat.zero_le _)
  · exact .bind (.mono (h.stmts hctx (placeOnce_ofType _) hroom) (by omega))
      fun d _ hstmts => .bind (.of_below (below_lowerIdents _ _)) fun _ _ _ => .pure fun _ =>
        hstmts.once (by omega)

/-- In a local function, a block declares the name as often as the parts have room for. -/
theorem localFunction {id : Ir.Ident} {params : List Ir.Ident} {body : Ir.Expr}
    (hctx : Bounded load x ctx.file ctx.targets) (hbody : body.Closed)
    (hk : (params.map (·.name)).count x + body.weight load x ≤ k) :
    Adds x k (r.localFunction ctx id params body) fun _ stmt =>
      DeclaresAtMost x ([id.name].count x) [stmt] :=
  .bind (h.function hctx hbody hk) fun _ ⟨_, _, _⟩ hf => .pure fun _ =>
    .single (Nat.le_refl _) hf

/-! ## Expressions -/

/-- In an array, a tuple, a record or a case of a union, a block declares the name as often as the
parts have room for. -/
theorem aggregate {kind : Ir.Aggregate} {values : List Ir.Expr} {loc : Option Ir.Location}
    (hctx : Bounded load x ctx.file ctx.targets) (hvalues : ∀ e ∈ values, e.Closed)
    (hk : (values.map (Ir.Expr.weight load x)).sum ≤ k) :
    Adds x k (r.aggregate ctx hoists kind values loc) fun d v => v.Keeps x (k + d) := by
  have hoperands : ∀ {j}, k ≤ j → Adds x j (r.operands ctx hoists values) fun d v =>
      v.KeepsAll x ((values.map (Ir.Expr.weight load x)).sum + d) := fun hj =>
    h.operands hctx hvalues (hk.trans hj)
  cases kind with
  | array =>
    exact .bind (hoperands (Nat.le_refl _)) fun _ _ hitems =>
      .bind (.of_below (below_lowerType _ _)) fun _ _ _ => .pure fun _ =>
        ⟨hitems.before.mono (by omega), once_itemBlocks.2 hitems.value⟩
  | tuple =>
    exact .bind (tupleConstructor_adds _ _ _) fun _ _ hcallee =>
      .bind (hoperands (Nat.le_add_right _ _)) fun _ _ hitems => .pure fun _ =>
        ⟨hitems.before.mono (by omega), Once.append_iff.2
          ⟨Once.append_iff.2 ⟨hcallee, once_itemBlocks.2 hitems.value⟩, .nil⟩⟩
  | record =>
    exact .bind (constructorOf_adds _ _) fun _ _ hcallee =>
      .bind (hoperands (Nat.le_add_right _ _)) fun _ _ hitems => .pure fun _ =>
        ⟨hitems.before.mono (by omega), Once.append_iff.2
          ⟨Once.append_iff.2 ⟨hcallee, once_itemBlocks.2 hitems.value⟩, .nil⟩⟩
  | union tag entity cases =>
    refine .bind (constructorOf_adds _ _) fun _ _ hcallee =>
      .bind (hoperands (Nat.le_add_right _ _)) fun _ items hitems => .pure fun _ =>
        ⟨hitems.before.mono (by omega), ?_⟩
    have hfields : Once x (itemBlocks [.integer tag, .list items.value .dynamic]) :=
      Once.append_iff.2 ⟨.nil, Once.append_iff.2 ⟨once_itemBlocks.2 hitems.value, .nil⟩⟩
    exact Once.append_iff.2 ⟨Once.append_iff.2 ⟨hcallee, hfields⟩, .nil⟩
  | anonymous => exact .fail _

/-- In a call, a block declares the name as often as the parts have room for. -/
theorem call {callee : Ir.Expr} {receiver : Option Ir.Expr} {args : List Ir.Expr}
    (hctx : Bounded load x ctx.file ctx.targets)
    (hparts : ∀ e ∈ callee :: (receiver.toList ++ args), e.Closed)
    (hk : ((callee :: (receiver.toList ++ args)).map (Ir.Expr.weight load x)).sum ≤ k) :
    Adds x k (r.call ctx hoists callee receiver args) fun d v => v.Keeps x (k + d) := by
  have hsub : (callee :: (receiver.toList ++ discardUnitArg args)).Sublist
      (callee :: (receiver.toList ++ args)) :=
    .cons_cons _ ((List.Sublist.refl _).append (discardUnitArg_sublist _))
  have hle := (hsub.map (Ir.Expr.weight load x)).sum_le_sum fun _ _ => Nat.zero_le _
  refine .bind (h.operands hctx (fun e he => hparts e (hsub.subset he)) (hle.trans hk))
    fun _ all hall => ?_
  have hbefore := hall.before.mono (Nat.add_le_add_right (hle.trans hk) _)
  split
  · rename_i heq
    obtain ⟨hf, hitems⟩ := List.forall_mem_cons.1 (heq ▸ hall.value)
    exact .pure fun _ => ⟨hbefore, Once.append_iff.2
      ⟨Once.append_iff.2 ⟨hf, once_itemBlocks.2 hitems⟩, .nil⟩⟩
  · exact .pure fun _ => ⟨hbefore, .nil⟩

omit h in

/-- A chain of calls has the blocks of the callee and the arguments. -/
theorem once_foldl_callWith {f : Expr} {args : List Expr} (hf : Once x f.blocks)
    (hargs : ∀ e ∈ args, Once x e.blocks) :
    Once x (args.foldl (fun f arg => .callWith f [arg]) f).blocks := by
  induction args generalizing f with
  | nil => exact hf
  | cons arg args ih =>
    obtain ⟨harg, hargs⟩ := List.forall_mem_cons.1 hargs
    have hitems : Once x (itemBlocks [arg]) := Once.append_iff.2 ⟨harg, .nil⟩
    exact ih (Once.append_iff.2 ⟨Once.append_iff.2 ⟨hf, hitems⟩, .nil⟩) hargs

/-- In an application to curried arguments, a block declares the name as often as the parts have
room for. -/
theorem applied {f : Ir.Expr} {args : List Ir.Expr} (hctx : Bounded load x ctx.file ctx.targets)
    (hparts : ∀ e ∈ f :: args, e.Closed)
    (hk : ((f :: args).map (Ir.Expr.weight load x)).sum ≤ k) :
    Adds x k (r.applied ctx hoists f args) fun d v => v.Keeps x (k + d) := by
  refine .bind (h.operands hctx hparts hk) fun _ all hall => ?_
  have hbefore := hall.before.mono (Nat.add_le_add_right hk _)
  split
  · rename_i heq
    obtain ⟨hf, hitems⟩ := List.forall_mem_cons.1 (heq ▸ hall.value)
    exact .pure fun _ => ⟨hbefore, once_foldl_callWith hf hitems⟩
  · exact .pure fun _ => ⟨hbefore, .nil⟩

/-- In a logical operation, a block declares the name as often as the parts have room for. -/
theorem logical {op : LogicalOp} {left right : Ir.Expr}
    (hctx : Bounded load x ctx.file ctx.targets) (hleft : left.Closed) (hright : right.Closed)
    (hk : left.weight load x + right.weight load x ≤ k) :
    Adds x k (r.logical ctx hoists op left right) fun d v => v.Keeps x (k + d) := by
  refine .bind (.mono (h.expr hctx (.of_closed hleft (Nat.le_refl _))) (by omega))
    fun d₀ a ha => .bind (.mono (h.expr hctx (.of_closed hright (Nat.le_refl _))) (by omega))
      fun d b hb => .ite (fun _ => .pure fun _ => ?_) fun _ =>
        .bind (freshLocal_adds _ _ _) fun d' id hid => .pure fun _ => ⟨?_, .nil⟩
  · exact ⟨ha.before.mono (by omega), Once.append_iff.2 ⟨ha.value, hb.value⟩⟩
  · have hguard : ∀ guard : Expr, Once x guard.blocks → DeclaresAtMost x 0
        [.ifElse guard (b.before ++ [.assign (.ident id) b.value]) []] := fun guard hguard => by
      have hassign : DeclaresAtMost x 0 [.assign (.ident id) b.value] := .plain rfl hb.value
      have hthen := (hb.before.append hassign).once (by omega)
      exact .plain rfl (Once.append_iff.2 ⟨Once.append_iff.2 ⟨hguard, hthen⟩,
        DeclaresAtMost.nil.once (Nat.zero_le _)⟩)
    have hdeclare : DeclaresAtMost x ([id.name].count x) [.declare id .var (some a.value)] :=
      .declare id .var ha.value
    exact (ha.before.append (hdeclare.cons (hguard _ (by cases op <;> exact .nil)))).mono (by omega)

/-- The statements of a branch stay in the branch. -/
theorem conditional {guard thenExpr elseExpr : Ir.Expr} {loc : Option Ir.Location} {ty : Ir.Ty}
    (hctx : Bounded load x ctx.file ctx.targets)
    (he : Room load x ctx.targets false k (.ifThenElse guard thenExpr elseExpr loc)) :
    Adds x k (r.conditional ctx hoists guard thenExpr elseExpr ty) fun d v =>
      v.Keeps x (k + d) := by
  refine .bind (h.expr hctx (he.child List.mem_cons_self rfl)) fun d₀ test htest =>
    .bind (.mono (h.expr hctx (he.child (by simp [Ir.Expr.children]) rfl)) (by omega))
      fun d a ha => .bind (.mono (h.expr hctx (he.child (by simp [Ir.Expr.children]) rfl))
        (by omega)) fun d' b hb => ?_
  have hbranches : ∀ (id : Option Ident) {n : Nat}, k + d + d' ≤ 1 →
      (∀ tmp ∈ id, [tmp.name].count x ≤ n) → DeclaresAtMost x (k + d₀ + n)
        (test.before ++ id.toList.map (fun id => .declare id .var none) ++
          [.ifElse test.value (a.before ++ branchEnd id a.value)
            (b.before ++ branchEnd id b.value)]) := by
    intro id n hle hid
    have hdeclared : DeclaresAtMost x n
        (id.toList.map fun id => Stmt.declare id .var none) := by
      cases id with
      | none => exact .nil
      | some id => exact (DeclaresAtMost.declare id .var .nil).mono (hid id rfl)
    have hthen := (ha.before.append (declaresAtMost_branchEnd id ha.value)).once (by omega)
    have helse := (hb.before.append (declaresAtMost_branchEnd id hb.value)).once (by omega)
    refine (htest.before.append hdeclared).append (.plain rfl ?_)
    exact Once.append_iff.2 ⟨Once.append_iff.2 ⟨htest.value, hthen⟩, helse⟩
  refine .ite (fun _ => .pure fun _ => ?_) fun _ => .ite (fun _ => ?_) fun _ => ?_
  · exact ⟨htest.before.mono (by omega), Once.append_iff.2
      ⟨Once.append_iff.2 ⟨htest.value, ha.value⟩, hb.value⟩⟩
  · rw [pure_bind]
    exact .pure fun _ => ⟨(hbranches none (n := 0) (by omega) fun tmp hnone =>
      absurd hnone (Option.not_mem_none tmp)).mono (by omega), .nil⟩
  · refine .bind (freshLocal_adds _ _ _) fun n id hid => ?_
    rw [pure_bind]
    exact .pure fun _ => ⟨(hbranches (some id) (by omega) fun _ hx =>
      Option.some.inj hx ▸ hid).mono (by omega), .nil⟩

/-- In a node that is an expression, a block declares the name as often as there is room for. -/
theorem exprCore (hctx : Bounded load x ctx.file ctx.targets)
    (he : Room load x ctx.targets false k e) :
    Adds x k (r.exprCore ctx hoists e) fun d v => v.Keeps x (k + d) := by
  have hsum : (e.children.map (Ir.Expr.weight load x)).sum ≤ k :=
    (Ir.Expr.sum_children_le load x e).trans he.own
  cases e with
  | literal value => exact .pure fun _ => ⟨.nil, once_literalValue value⟩
  | option value =>
    cases value with
    | none => exact .pure fun _ => ⟨.nil, .nil⟩
    | some value => exact h.expr hctx (he.child List.mem_cons_self rfl)
  | aggregate => exact h.aggregate hctx (fun _ hmem => he.atEnd.closedPart hmem) hsum
  | ident id =>
    exact .ite (fun _ => .pure fun _ => ⟨.nil, .nil⟩) fun _ =>
      .bind (lowerIdent_adds _ _) fun _ _ _ => .pure fun _ => ⟨.nil, .nil⟩
  | cast inner =>
    exact .bind (h.expr hctx (he.child List.mem_cons_self rfl)) fun _ _ hvalue =>
      .ite (fun _ => .pure fun _ => hvalue) fun _ => .bind (.of_below (below_lowerType _ _))
        fun _ _ _ => .pure fun _ => ⟨hvalue.before.mono (by omega), hvalue.value⟩
  | imported =>
    exact .bind (importedValue_adds _ _ _ _) fun _ _ hvalue => .pure fun _ => ⟨.nil, hvalue⟩
  | lambda arg body | delegate args body =>
    refine .bind (h.closure hctx (he.atEnd.closedPart List.mem_cons_self) ?_) fun _ _ hvalue =>
      .pure fun _ => ⟨.nil, hvalue⟩
    exact (Ir.Expr.weight_le_of_child load x List.mem_cons_self).trans he.own
  | object => exact .fail _
  | call callee receiver args isNew =>
    exact .ite (fun _ => .fail _) fun _ => h.call hctx (fun _ hmem => he.atEnd.closedPart hmem) hsum
  | apply => exact h.applied hctx (fun _ hmem => he.atEnd.closedPart hmem) hsum
  | unary op operand =>
    refine .bind (h.expr hctx (he.child List.mem_cons_self rfl)) fun _ _ hvalue => ?_
    split
    · exact .pure fun _ => hvalue
    · exact .pure fun _ => ⟨hvalue.before, hvalue.value⟩
  | binary op left right =>
    refine .bind (h.operandPair hctx (he.atEnd.closedPart List.mem_cons_self)
      (he.atEnd.closedPart (by simp [Ir.Expr.closedParts, Ir.Expr.children])) hsum)
      fun _ ⟨_, _, _⟩ hboth => .bind (binaryValue_adds _ _ hboth.value.1 hboth.value.2)
        fun _ _ hvalue => .pure fun _ => ⟨hboth.before.mono ?_, hvalue⟩
    have hpair : left.weight load x + right.weight load x ≤ k := hsum
    omega
  | logical op left right =>
    exact h.logical hctx (he.atEnd.closedPart List.mem_cons_self)
      (he.atEnd.closedPart (by simp [Ir.Expr.closedParts, Ir.Expr.children])) hsum
  | emit template args =>
    exact .bind (h.operands hctx (fun _ hmem => he.atEnd.closedPart hmem) hsum) fun _ _ hargs =>
      .pure fun _ => ⟨hargs.before.mono (Nat.add_le_add_right hsum _),
        once_itemBlocks.2 hargs.value⟩
  | get obj kind =>
    exact .bind (h.expr hctx (he.child List.mem_cons_self rfl)) fun _ _ hobj =>
      .bind (access_adds kind _ hobj.value) fun _ _ hvalue => .pure fun _ =>
        ⟨hobj.before.mono (by omega), hvalue⟩
  | getIndex obj index =>
    refine .bind (h.operandPair hctx (he.atEnd.closedPart List.mem_cons_self)
      (he.atEnd.closedPart (by simp [Ir.Expr.closedParts, Ir.Expr.children])) hsum)
      fun _ ⟨_, _, _⟩ hboth => .pure fun _ => ⟨hboth.before.mono ?_, Once.append_iff.2 hboth.value⟩
    have hpair : obj.weight load x + index.weight load x ≤ k := hsum
    omega
  | test value kind =>
    exact .bind (h.expr hctx (he.child List.mem_cons_self rfl)) fun _ _ hvalue =>
      .bind (test_adds kind hvalue.value) fun _ _ htest => .pure fun _ =>
        ⟨hvalue.before.mono (by omega), htest⟩
  | ifThenElse guard thenExpr elseExpr => exact h.conditional hctx he
  | decisionTree dispatcher targets => exact h.expr (hctx.tree he.atEnd) he.tree
  | success index =>
    exact .bind (.ofOption _ _) fun _ t ht =>
      .imp (.mono (h.expr hctx (he.target hctx ht.2)) (Nat.le_add_right _ _)) fun _ _ _ hv =>
        ⟨hv.before.mono (by omega), hv.value⟩
  | curry inner =>
    refine .bind (h.expr hctx (he.child List.mem_cons_self rfl)) fun _ value hvalue =>
      .bind (.of_below (below_runtimePrefix _ _)) fun _ _ _ => .pure fun _ =>
        ⟨hvalue.before.mono (by omega), ?_⟩
    have hargs : Once x (itemBlocks [value.value]) := Once.append_iff.2 ⟨hvalue.value, .nil⟩
    exact Once.append_iff.2 ⟨hargs, .nil⟩
  | throw | debugger | set | setIndex | letIn | letRec | sequence | whileLoop | forLoop
  | tryCatch => exact h.capture hctx he

omit h in

/-- The expansion of a call has the room of the call and of its new names. -/
theorem expansion?_adds (hctx : Bounded load x ctx.file ctx.targets)
    (he : Room load x ctx.targets false k e) :
    Adds x k (expansion? ctx e) fun d o => ∀ e ∈ o, Room load x ctx.targets false (k + d) e := by
  unfold expansion?
  split
  · exact .expandInline hctx he
  · exact .pure fun _ => nofun

/-- In any node in the place of an expression, a block declares the name as often as there is room
for. -/
theorem exprRule (hctx : Bounded load x ctx.file ctx.targets)
    (he : Room load x ctx.targets false k e) :
    Adds x k (r.exprRule ctx hoists e) fun d v => v.Keeps x (k + d) := by
  refine .bind (expansion?_adds hctx he) fun _ expanded hexpanded => ?_
  cases expanded with
  | some expanded =>
    exact .imp (h.expr hctx (hexpanded expanded rfl)) fun _ _ _ hv =>
      ⟨hv.before.mono (by omega), hv.value⟩
  | none =>
    refine .bind (.of_below (Deepens.below_isCaptured _ _)) fun _ _ _ =>
      .ite (fun _ => ?_) fun _ => ?_
    · exact .imp (.mono (h.capture hctx he) (by omega)) fun _ _ _ hv =>
        ⟨hv.before.mono (by omega), hv.value⟩
    · exact .imp (.mono (h.exprCore hctx he) (by omega)) fun _ _ _ hv =>
        ⟨hv.before.mono (by omega), hv.value⟩

/-! ## Statements -/

/-- In nodes as expressions, a block declares the name as often as the parts have room for. -/
theorem values {es : List Ir.Expr} (hctx : Bounded load x ctx.file ctx.targets)
    (hes : ∀ e ∈ es, e.Closed) (hk : (es.map (Ir.Expr.weight load x)).sum ≤ k) :
    Adds x k (r.values ctx es) fun d v =>
      v.KeepsAll x ((es.map (Ir.Expr.weight load x)).sum + d) := by
  induction es generalizing k with
  | nil => exact .pure fun _ => ⟨.nil, nofun⟩
  | cons e es ih =>
    obtain ⟨he, hes⟩ := List.forall_mem_cons.1 hes
    rw [List.map_cons, List.sum_cons] at hk ⊢
    refine .bind (.mono (h.expr hctx (.of_closed he (Nat.le_refl _))) (by omega))
      fun d _ hfirst => .bind (.mono (ih hes (Nat.le_refl _)) (by omega)) fun d' _ hrest =>
        .pure fun _ => ⟨?_, List.forall_mem_cons.2 ⟨hfirst.value, hrest.value⟩⟩
    exact (hfirst.before.append hrest.before).mono (by omega)

/-- In a self tail call, a block declares the name as often as the parts have room for. -/
theorem tailCall {loop : TailCall} {args : List Ir.Expr}
    (hctx : Bounded load x ctx.file ctx.targets) (hargs : ∀ e ∈ args, e.Closed)
    (hk : (args.map (Ir.Expr.weight load x)).sum ≤ k) :
    Adds x k (r.tailCall ctx loop args) fun d code => DeclaresAtMost x (k + d) code := by
  have hsub := discardUnitArg_sublist args
  have hle := (hsub.map (Ir.Expr.weight load x)).sum_le_sum fun _ _ => Nat.zero_le _
  refine .bind (.of_below .markLooped) fun _ _ _ =>
    .bind (.mono (h.values hctx (fun e he => hargs e (hsub.subset he)) (hle.trans hk))
      (Nat.le_add_right _ _)) fun _ _ hvalues =>
        .bind (slotWrites_adds hvalues.value) fun _ _ hwrites => .pure fun _ => ?_
  exact ((hvalues.before.append hwrites).append (.plain rfl .nil)).mono (by omega)

/-- In a recursive let, a block declares the name as often as the parts have room for. -/
theorem recursive {bs : List Ir.Binding} (hctx : Bounded load x ctx.file ctx.targets)
    (hbs : ∀ b ∈ bs, b.value.Closed) (hk : (bs.map (Ir.Binding.weight load x)).sum ≤ k) :
    Adds x k (r.recursive ctx bs) fun d code =>
      DeclaresAtMost x ((bs.map (Ir.Binding.weight load x)).sum + d) code := by
  induction bs generalizing k with
  | nil => exact .pure fun _ => .nil
  | cons b bs ih =>
    obtain ⟨hb, hbs⟩ := List.forall_mem_cons.1 hbs
    rw [List.map_cons, List.sum_cons, Ir.Binding.weight] at hk ⊢
    rcases recursive_cons r ctx b bs with ⟨params, body, name, hvalue, heq⟩ | heq
    · obtain ⟨hbody, hle⟩ := hb.functionBody hvalue load x
      rw [heq]
      refine .bind (h.localFunction hctx hbody (by omega)) fun d _ hfirst =>
        .bind (.mono (ih hbs (by omega)) (Nat.le_refl _)) fun d' _ hrest => .pure fun _ => ?_
      exact (hfirst.cons hrest).mono (by omega)
    · rw [heq]
      refine .bind (h.declare hctx hb (by omega)) fun d _ hfirst =>
        .bind (.mono (ih hbs (by omega)) (Nat.le_refl _)) fun d' _ hrest => .pure fun _ => ?_
      exact (hfirst.append hrest).mono (by omega)

/-- In a sequence, a block declares the name as often as the parts have room for. -/
theorem sequence {es : List Ir.Expr} (hctx : Bounded load x ctx.file ctx.targets)
    (hstrategy : PlaceOnce x strategy)
    (he : Room load x ctx.targets strategy.joinVariable?.isSome k (.sequence es)) :
    Adds x k (r.sequence ctx strategy es) fun d code => DeclaresAtMost x (k + d) code := by
  induction es generalizing k with
  | nil => exact .pure fun _ => (declaresAtMost_deliverUnit strategy).mono (Nat.zero_le _)
  | cons e es ih =>
    have hfirst := (he.child List.mem_cons_self rfl).own
    cases es with
    | nil => exact h.stmts hctx hstrategy (he.child List.mem_cons_self rfl)
    | cons =>
      have hclosed := he.atEnd.closedPart (c := e) List.mem_cons_self
      refine .bind (.mono (h.stmts hctx trivial (.of_closed hclosed (Nat.le_refl _))) hfirst)
        fun d _ hstmts => .bind (.mono (ih he.rest) (by omega)) fun d' _ hrest => .pure fun _ => ?_
      exact (hstmts.append hrest).mono (by omega)

/-- In an assignment, a block declares the name as often as the parts have room for. -/
theorem assignment {place : Expr} (hctx : Bounded load x ctx.file ctx.targets)
    (hplace : Once x place.blocks) (he : e.Closed) (hk : e.weight load x ≤ k) :
    Adds x k (r.assignment ctx place e) fun d code =>
      DeclaresAtMost x (e.weight load x + d) code := by
  have hroom : ∀ {stores}, Room load x ctx.targets stores (e.weight load x) e :=
    .of_closed he (Nat.le_refl _)
  refine .bind (.isStatement _ _ _) fun _ _ _ => .ite (fun _ => ?_) fun _ => ?_
  · exact .imp (.mono (h.stmts hctx hplace hroom) (by omega)) fun d _ _ hcode =>
      hcode.mono (by omega)
  · refine .bind (.mono (h.expr hctx hroom) (by omega)) fun _ value hvalue => .pure fun _ => ?_
    have hassign : DeclaresAtMost x 0 [.assign place value.value] :=
      .plain rfl (Once.append_iff.2 ⟨hplace, hvalue.value⟩)
    exact (hvalue.before.append hassign).mono (by omega)

omit h in
/-- If the condition needs statements, these are in the block of the body. -/
theorem declaresAtMost_whileStmt {guard : Hoisted Expr} {body : List Stmt} {m n : Nat}
    (hguard : guard.Keeps x m) (hbody : DeclaresAtMost x n body) (hle : m + n ≤ 1) :
    DeclaresAtMost x 0 [whileStmt guard body] := by
  rw [whileStmt]
  split
  · exact .plain rfl (Once.append_iff.2 ⟨hguard.value, hbody.once (by omega)⟩)
  · have hexit : DeclaresAtMost x 0 [.ifElse (.unary .not guard.value) [.breakTo none] []] := by
      have hbreak : DeclaresAtMost x 0 [.breakTo none] := .plain rfl .nil
      exact .plain rfl (Once.append_iff.2 ⟨Once.append_iff.2 ⟨hguard.value,
        hbreak.once (Nat.zero_le _)⟩, DeclaresAtMost.nil.once (Nat.zero_le _)⟩)
    exact .plain rfl ((hguard.before.append (hexit.cons hbody)).once (by omega))

/-- In a counting loop, a block declares the name as often as the parts have room for. -/
theorem forLoop {id : Ir.Ident} {start limit body : Ir.Expr} {isUp : Bool}
    (hctx : Bounded load x ctx.file ctx.targets) (hstart : start.Closed) (hlimit : limit.Closed)
    (hbody : body.Closed)
    (hk : start.weight load x + (limit.weight load x + body.weight load x) ≤ k) :
    Adds x k (r.forLoop ctx id start limit body isUp) fun d code =>
      DeclaresAtMost x (k + d) code := by
  refine .bind (.mono (h.expr hctx (.of_closed hstart (Nat.le_refl _))) (by omega))
    fun d start hstart =>
    .bind (.mono (h.expr hctx (.of_closed hlimit (Nat.le_refl _))) (by omega))
    fun d' limit hlimit =>
    .bind (.mono (h.stmts hctx trivial (.of_closed hbody (Nat.le_refl _))) (by omega))
    fun d'' stmts hstmts => .bind (lowerIdent_adds _ _) fun _ id _ => .pure fun _ => ?_
  have hloop : DeclaresAtMost x 0 [.forLoop id start.value limit.value isUp stmts] :=
    .plain rfl (Once.append_iff.2 ⟨Once.append_iff.2 ⟨hstart.value, hlimit.value⟩,
      hstmts.once (by omega)⟩)
  exact ((hstart.before.append hlimit.before).append hloop).mono (by omega)

/-- In a handler, each block declares the name once at most. -/
theorem handler {hd : Option Ir.Handler} (hctx : Bounded load x ctx.file ctx.targets)
    (hstrategy : PlaceOnce x strategy) (hbody : ∀ hdl ∈ hd,
      Room load x ctx.targets strategy.joinVariable?.isSome k hdl.body) :
    Adds x k (r.handler ctx strategy hd) fun _ code => Once x (handlerBlocks code) := by
  cases hd with
  | none => exact .pure fun _ => .nil
  | some hd =>
    exact .bind (lowerIdent_adds _ _) fun d _ _ =>
      .bind (.mono (h.stmts hctx hstrategy (hbody hd rfl)) (by omega)) fun d' _ hstmts =>
        .pure fun _ => hstmts.once (by omega)

/-- In a finalizer, each block declares the name once at most. -/
theorem finalizer {o : Option Ir.Expr} (hctx : Bounded load x ctx.file ctx.targets)
    (ho : ∀ e ∈ o, Room load x ctx.targets false k e) :
    Adds x k (r.finalizer ctx o) fun _ code => Once x (finalizerBlocks code) := by
  cases o with
  | none => exact .pure fun _ => .nil
  | some e =>
    exact .bind (h.stmts hctx trivial (ho e rfl)) fun d _ hstmts =>
      .pure fun _ => hstmts.once (by omega)

omit h in

/-- The declarations of what targets bind declare the name as often as the targets bind it. -/
theorem targetVariables_adds (targets : List Ir.Target) :
    Adds x k (targetVariables ctx targets) fun _ code => DeclaresAtMost x
      (targets.map fun t => (t.bound.map (·.name)).count x).sum code := by
  refine .bind (lowerIdents_adds _ _) fun _ ids hids => .pure fun _ => ?_
  have hdeclare : DeclaresAtMost x ((ids.map (·.name)).count x)
      (ids.map fun id => .declare id .late none) := by
    clear hids
    induction ids with
    | nil => exact .nil
    | cons id ids ih =>
      rw [List.map_cons, List.map_cons, count_cons_add]
      exact (DeclaresAtMost.declare _ _ .nil).cons ih
  refine hdeclare.mono (hids ▸ ?_)
  clear hdeclare hids
  induction targets with
  | nil => exact Nat.le_refl _
  | cons t ts ih =>
    rw [List.filter_cons, List.map_cons, List.sum_cons]
    split
    · rw [List.flatMap_cons, List.map_append, List.count_append]
      exact Nat.add_le_add_left ih _
    · exact ih.trans (Nat.le_add_left _ _)

/-- The bodies of the targets, each with what it declares. -/
theorem targetBodies {ts : List Ir.Target} (hctx : Bounded load x ctx.file ctx.targets)
    (hstrategy : PlaceOnce x strategy) (hts : ∀ t ∈ ts, t.body.Closed)
    (hk : (ts.map fun t => t.body.weight load x).sum ≤ k) :
    Adds x k (r.targetBodies ctx strategy ts) fun _ bodies => ∀ b ∈ bodies, Once x (blocks b) := by
  induction ts generalizing k with
  | nil => exact .pure fun _ => nofun
  | cons t ts ih =>
    obtain ⟨ht, hts⟩ := List.forall_mem_cons.1 hts
    rw [List.map_cons, List.sum_cons] at hk
    exact .bind (.mono (h.stmts hctx hstrategy (.of_closed ht (Nat.le_refl _))) (by omega))
      fun d _ hbody => .bind (.mono (ih hts (Nat.le_refl _)) (by omega)) fun d' _ hrest =>
        .pure fun _ => List.forall_mem_cons.2 ⟨hbody.once (by omega), hrest⟩

omit h in

/-- The switch over the selected target has the blocks of the bodies. -/
theorem once_dispatch {join : String} {bodies : List (List Stmt)}
    (hbodies : ∀ b ∈ bodies, Once x (blocks b)) : Once x (dispatch join bodies).blocks := by
  have hcases : ∀ {numbered : List (List Stmt × Nat)}, (∀ c ∈ numbered, Once x (blocks c.1)) →
      Once x (caseBlocks (numbered.map fun c => ⟨[.integer c.2], c.1⟩)) := by
    intro numbered hnumbered
    induction numbered with
    | nil => exact .nil
    | cons c numbered ih =>
      obtain ⟨hc, hnumbered⟩ := List.forall_mem_cons.1 hnumbered
      exact Once.append_iff.2 ⟨Once.append_iff.2 ⟨.nil, hc⟩, ih hnumbered⟩
  refine Once.append_iff.2 ⟨Once.append_iff.2 ⟨.nil, hcases fun c hc => hbodies _ ?_⟩, ?_⟩
  · exact List.dropLast_subset _ (List.fst_mem_of_mem_zipIdx hc)
  · cases hlast : bodies.getLast? with
    | none => exact .nil
    | some last => exact hbodies last (List.mem_of_getLast? hlast)

/-- In a decision tree, a block declares the name as often as the parts have room for. -/
theorem decisionTree {dispatcher : Ir.Expr} {targets : List Ir.Target}
    (hctx : Bounded load x ctx.file ctx.targets) (hstrategy : PlaceOnce x strategy)
    (he : Room load x ctx.targets strategy.joinVariable?.isSome k
      (.decisionTree dispatcher targets)) :
    Adds x k (r.decisionTree ctx strategy dispatcher targets) fun d code =>
      DeclaresAtMost x (k + d) code := by
  have hclosed : ∀ t ∈ targets, t.body.Closed := fun t ht =>
    he.atEnd.closedPart (List.mem_map_of_mem ht)
  have hle := he.tree_le
  refine .ite (fun _ => h.stmts (hctx.tree he.atEnd) hstrategy he.tree) fun _ =>
    .bind (.allocateLocal "matchResult") fun d join hjoin =>
      .bind (targetVariables_adds targets) fun d₀ _ hdeclared => ?_
  refine .bind (.mono (h.stmts (hctx.tree he.atEnd) trivial he.stored) (by omega))
    fun d₁ _ hselect => .bind (.mono (h.targetBodies hctx hstrategy hclosed (Nat.le_refl _))
      (by omega)) fun d₂ _ hbodies => .pure fun _ => ?_
  exact (((DeclaresAtMost.declare (joinIdent join) .late .nil).cons
    (hdeclared.append hselect)).append (.plain rfl (once_dispatch hbodies))).mono (by
      have hcount : [(joinIdent join).name].count x = d := hjoin
      omega)

/-- In declarations of what a target binds, a block declares the name as often as the parts have
room for. -/
theorem bindings {ids : List Ir.Ident} {values : List Ir.Expr}
    (hctx : Bounded load x ctx.file ctx.targets) (hvalues : ∀ e ∈ values, e.Closed)
    (hk : (ids.map (·.name)).count x + (values.map (Ir.Expr.weight load x)).sum ≤ k) :
    Adds x k (r.bindings ctx ids values) fun d code => DeclaresAtMost x
      ((ids.map (·.name)).count x + (values.map (Ir.Expr.weight load x)).sum + d) code := by
  induction ids generalizing values k with
  | nil => exact .pure fun _ => .nil
  | cons id ids ih =>
    cases values with
    | nil => exact .pure fun _ => .nil
    | cons value values =>
      obtain ⟨hvalue, hvalues⟩ := List.forall_mem_cons.1 hvalues
      rw [List.map_cons, List.map_cons, List.sum_cons, count_cons_add] at hk ⊢
      refine .bind (.mono (h.declare hctx hvalue (Nat.le_refl _)) (by omega)) fun d _ hfirst =>
        .bind (.mono (ih hvalues (Nat.le_refl _)) (by omega)) fun d' _ hrest => .pure fun _ => ?_
      exact (hfirst.append hrest).mono (by omega)

/-- In assignments to what a target binds, a block declares the name as often as the parts have room
for. -/
theorem assignments {ids : List Ir.Ident} {values : List Ir.Expr}
    (hctx : Bounded load x ctx.file ctx.targets) (hvalues : ∀ e ∈ values, e.Closed)
    (hk : (values.map (Ir.Expr.weight load x)).sum ≤ k) :
    Adds x k (r.assignments ctx ids values) fun d code => DeclaresAtMost x
      ((values.map (Ir.Expr.weight load x)).sum + d) code := by
  induction ids generalizing values k with
  | nil => exact .pure fun _ => .nil
  | cons id ids ih =>
    cases values with
    | nil => exact .pure fun _ => .nil
    | cons value values =>
      obtain ⟨hvalue, hvalues⟩ := List.forall_mem_cons.1 hvalues
      rw [List.map_cons, List.sum_cons] at hk ⊢
      refine .bind (lowerIdent_adds _ _) fun d₀ place _ =>
        .bind (.mono (h.stmts hctx (show PlaceOnce x (.assign (.ident place)) from .nil)
          (.of_closed hvalue (Nat.le_refl _))) (by omega)) fun d _ hfirst =>
        .bind (.mono (ih hvalues (Nat.le_refl _)) (by omega)) fun d' _ hrest => .pure fun _ => ?_
      exact (hfirst.append hrest).mono (by omega)

/-- In place, a target has its bindings and its body in one block with the values. If its index is
stored, then the block has nothing but the values. -/
theorem success {index : Nat} {values : List Ir.Expr} {ty : Ir.Ty}
    (hctx : Bounded load x ctx.file ctx.targets) (hstrategy : PlaceOnce x strategy)
    (he : Room load x ctx.targets strategy.joinVariable?.isSome k (.success index values ty)) :
    Adds x k (r.success ctx strategy index values) fun d code => DeclaresAtMost x (k + d) code := by
  have hvalues : ∀ e ∈ values, e.Closed := fun e hmem => he.atEnd.closedPart hmem
  refine .bind (.ofOption _ _) fun d t ht => ?_
  cases strategy with
  | join name =>
    have hown : (values.map (Ir.Expr.weight load x)).sum ≤ k :=
      (Ir.Expr.sum_children_le load x _).trans he.own
    refine .bind (.mono (h.assignments hctx hvalues hown) (Nat.le_add_right _ _))
      fun d' _ hstmts => .pure fun _ => ?_
    exact (hstmts.append (.plain rfl .nil)).mono (by omega)
  | ret | effect | assign =>
    have hle := he.success_le ht.2
    rw [Ir.Target.weight] at hle
    refine .bind (.mono (h.bindings hctx hvalues (Nat.le_refl _)) (by omega)) fun d' _ hstmts =>
      .bind (.mono (h.stmts hctx hstrategy (.of_closed (hctx.targets t (List.mem_of_getElem? ht.2))
        (Nat.le_refl _))) (by omega)) fun d'' _ hbody => .pure fun _ => ?_
    exact (hstmts.append hbody).mono (by omega)

/-- In a conditional statement, a block declares the name as often as the parts have room for. -/
theorem conditionalStmts {guard thenExpr elseExpr : Ir.Expr} {loc : Option Ir.Location}
    (hctx : Bounded load x ctx.file ctx.targets) (hstrategy : PlaceOnce x strategy)
    (he : Room load x ctx.targets strategy.joinVariable?.isSome k
      (.ifThenElse guard thenExpr elseExpr loc)) :
    Adds x k (r.conditionalStmts ctx strategy guard thenExpr elseExpr) fun d code =>
      DeclaresAtMost x (k + d) code := by
  refine .bind (h.expr hctx (he.closedPart List.mem_cons_self)) fun d₀ _ htest =>
    .bind (.mono (h.stmts hctx hstrategy (he.child (by simp [Ir.Expr.children]) rfl)) (by omega))
      fun d _ hthen => .bind (.mono (h.stmts hctx hstrategy
        (he.child (by simp [Ir.Expr.children]) rfl)) (by omega)) fun d' _ helse =>
          .pure fun _ => ?_
  refine (htest.before.append (.plain rfl ?_)).mono (by omega)
  exact Once.append_iff.2 ⟨Once.append_iff.2 ⟨htest.value, hthen.once (by omega)⟩,
    helse.once (by omega)⟩

omit h in
/-- The dispatcher of a shared tree is stored without casts. -/
theorem dropsCast_adds (ctx : Context) (strategy : Strategy Expr) (inner : Ir.Expr) :
    Adds x k (dropsCast ctx strategy inner) fun _ drops =>
      drops = false → strategy.joinVariable?.isSome = false :=
  .ite (fun _ => .pure fun _ => nofun) fun hstores =>
    .imp (.isStatement _ _ _) fun _ _ _ _ _ => eq_false_of_ne_true hstores

/-- In any node in the place of statements, a block declares the name as often as there is room
for. -/
theorem stmtsRule (hctx : Bounded load x ctx.file ctx.targets) (hstrategy : PlaceOnce x strategy)
    (he : Room load x ctx.targets strategy.joinVariable?.isSome k e) :
    Adds x k (r.stmtsRule ctx strategy e) fun d code => DeclaresAtMost x (k + d) code := by
  have hunit : ∀ {m n : Nat} {stmts : List Stmt}, DeclaresAtMost x m stmts → m ≤ n →
      DeclaresAtMost x n (stmts ++ deliverUnit strategy) := fun hstmts hle =>
    (hstmts.append (declaresAtMost_deliverUnit strategy)).mono hle
  have hsum : (e.children.map (Ir.Expr.weight load x)).sum ≤ k :=
    (Ir.Expr.sum_children_le load x e).trans he.own
  cases e with
  | cast inner =>
    refine .bind (dropsCast_adds _ _ _) fun d drops hdrops => .ite (fun _ => ?_) fun hkept => ?_
    · exact .imp (.mono (h.stmts hctx hstrategy (he.child List.mem_cons_self rfl))
        (Nat.le_add_right _ _)) fun d' _ _ hcode => hcode.mono (by omega)
    · have hstores := hdrops (eq_false_of_ne_true hkept)
      exact .imp (.mono (h.delivered hctx hstrategy (hstores ▸ he)) (Nat.le_add_right _ _))
        fun d' _ _ hcode => hcode.mono (by omega)
  | call callee receiver args isNew =>
    unfold Parts.stmtsRule
    dsimp only
    split
    · have hargs : (args.map (Ir.Expr.weight load x)).sum ≤ k := by
        have hsub : args.Sublist (callee :: (receiver.toList ++ args)) :=
          .cons _ (List.sublist_append_right _ _)
        exact ((hsub.map _).sum_le_sum fun _ _ => Nat.zero_le _).trans hsum
      refine h.tailCall hctx (fun a ha => he.atEnd.closedPart ?_) hargs
      exact List.mem_cons_of_mem _ (List.mem_append_right _ ha)
    · exact h.delivered hctx hstrategy (he.operation rfl rfl)
  | ifThenElse guard thenExpr elseExpr =>
    refine .bind (.isStatement _ _ _) fun d b hb => .ite (fun _ => ?_) fun hnot => ?_
    · exact .imp (.mono (h.conditionalStmts hctx hstrategy he) (Nat.le_add_right _ _))
        fun d' _ _ hcode => hcode.mono (by omega)
    · -- Where the dispatcher of a shared tree is stored, a conditional is a statement.
      cases strategy with
      | join name =>
        have hprefers := isStatement_of_prefers ctx guard thenExpr elseExpr
        exact absurd (Except.ok.inj (hb.2.symm.trans (hprefers _))) hnot
      | ret | effect | assign =>
        exact .imp (.mono (h.delivered hctx hstrategy he) (Nat.le_add_right _ _)) fun d _ _ hcode =>
          hcode.mono (by omega)
  | decisionTree dispatcher targets => exact h.decisionTree hctx hstrategy he
  | success index values => exact h.success hctx hstrategy he
  | letIn id value body =>
    have hvalue : value.Closed := he.atEnd.closedPart List.mem_cons_self
    have hweight := Ir.Expr.weight_letIn load x id value body
    have hown := he.own
    have hbody := he.beside (c := body) (j := [id.name].count x + value.weight load x)
      (by simp [Ir.Expr.children]) rfl (by omega)
    refine .bind (.mono (h.declare hctx hvalue (Nat.le_refl _)) (by omega)) fun d _ hfirst =>
      .bind (.mono (h.stmts hctx hstrategy hbody) (by omega)) fun d' _ hrest => .pure fun _ => ?_
    exact (hfirst.append hrest).mono (by omega)
  | letRec bs body =>
    have hvalues : ∀ b ∈ bs, b.value.Closed := fun b hb =>
      he.atEnd.closedPart (List.mem_map_of_mem hb)
    have hweight := Ir.Expr.weight_letRec load x bs body
    have hown := he.own
    have hbody := he.beside (c := body) (j := (bs.map (Ir.Binding.weight load x)).sum)
      (by simp [Ir.Expr.children]) rfl (by omega)
    refine .bind (.mono (h.recursive hctx hvalues (Nat.le_refl _)) (by omega)) fun d _ hfirst =>
      .bind (.mono (h.stmts hctx hstrategy hbody) (by omega)) fun d' _ hrest => .pure fun _ => ?_
    exact (hfirst.append hrest).mono (by omega)
  | sequence es => exact h.sequence hctx hstrategy he
  | set target field value =>
    have htarget : target.Closed := he.atEnd.closedPart List.mem_cons_self
    have hvalue : value.Closed :=
      he.atEnd.closedPart (by simp [Ir.Expr.closedParts, Ir.Expr.children])
    have hle : target.weight load x + value.weight load x ≤ k := hsum
    refine .bind (.mono (h.expr hctx (.of_closed htarget (Nat.le_refl _))) (by omega))
      fun d place hplace => .bind (.mono (h.assignment hctx ?_ hvalue (Nat.le_refl _)) (by omega))
        fun d' _ hstmts => .pure fun _ => hunit (hplace.before.append hstmts) (by omega)
    cases field <;> exact hplace.value
  | setIndex target index value =>
    have htarget : target.Closed := he.atEnd.closedPart List.mem_cons_self
    have hindex : index.Closed :=
      he.atEnd.closedPart (by simp [Ir.Expr.closedParts, Ir.Expr.children])
    have hvalue : value.Closed :=
      he.atEnd.closedPart (by simp [Ir.Expr.closedParts, Ir.Expr.children])
    have hle : target.weight load x + (index.weight load x + value.weight load x) ≤ k := hsum
    refine .bind (.mono (h.expr hctx (.of_closed htarget (Nat.le_refl _))) (by omega))
      fun d place hplace => .bind (.mono (h.expr hctx (.of_closed hindex (Nat.le_refl _)))
        (by omega)) fun d' item hitem => .bind (.mono (h.assignment hctx
          (Once.append_iff.2 ⟨hplace.value, hitem.value⟩) hvalue (Nat.le_refl _)) (by omega))
        fun d'' _ hstmts => .pure fun _ => ?_
    exact hunit ((hplace.before.append hitem.before).append hstmts) (by omega)
  | whileLoop guard body =>
    have hguard : guard.Closed := he.atEnd.closedPart List.mem_cons_self
    have hbody : body.Closed :=
      he.atEnd.closedPart (by simp [Ir.Expr.closedParts, Ir.Expr.children])
    have hle : guard.weight load x + body.weight load x ≤ k := hsum
    refine .bind (.mono (h.expr hctx (.of_closed hguard (Nat.le_refl _))) (by omega))
      fun d test htest => .bind (.mono (h.stmts hctx trivial (.of_closed hbody (Nat.le_refl _)))
        (by omega)) fun d' _ hstmts => .pure fun _ => ?_
    exact hunit (declaresAtMost_whileStmt htest hstmts (by omega)) (Nat.zero_le _)
  | forLoop id start limit body =>
    exact .bind (h.forLoop hctx (he.atEnd.closedPart List.mem_cons_self)
      (he.atEnd.closedPart (by simp [Ir.Expr.closedParts, Ir.Expr.children]))
      (he.atEnd.closedPart (by simp [Ir.Expr.closedParts, Ir.Expr.children])) hsum)
        fun d _ hstmts => .pure fun _ => hunit hstmts (Nat.le_refl _)
  | tryCatch body hd fin =>
    refine .bind (h.stmts hctx hstrategy (he.child List.mem_cons_self rfl)) fun d₀ _ hblock =>
      .bind (.mono (h.handler hctx hstrategy fun hdl hmem => he.child ?_ rfl)
        (Nat.le_add_right _ _)) fun d _ hhandler =>
      .bind (.mono (h.finalizer hctx fun e hmem => he.closedPart ?_) (by omega))
        fun d' _ hfinalizer => .pure fun _ => .single (Nat.zero_le _) ?_
    · obtain rfl := Option.mem_def.1 hmem
      simp [Ir.Expr.children]
    · obtain rfl := Option.mem_def.1 hmem
      simp [Ir.Expr.closedParts]
    · exact Once.append_iff.2 ⟨Once.append_iff.2 ⟨hblock.once (by omega), hhandler⟩, hfinalizer⟩
  | throw error =>
    cases error with
    | some error =>
      refine .bind (h.expr hctx (he.closedPart List.mem_cons_self)) fun _ value hvalue =>
        .pure fun _ => ?_
      have hthrow : DeclaresAtMost x 0 [.throw value.value] := .plain rfl hvalue.value
      exact hvalue.before.append hthrow
    | none => exact .pure fun _ => .single (Nat.zero_le _) .nil
  | debugger =>
    exact .bind (.of_below (.importWhole _)) fun _ library _ => .pure fun _ =>
      hunit (.plain (s := .expr (.callWith (.ident (.imported library "debugger" .dynamic)) []))
        rfl .nil) (Nat.zero_le _)
  | emit template args isStatement =>
    cases isStatement with
    | true =>
      refine .bind (h.operands hctx (fun _ hmem => he.atEnd.closedPart hmem) hsum)
        fun d items hitems => .pure fun _ => ?_
      have hemit : DeclaresAtMost x 0 [.expr (.emit template items.value)] :=
        .plain rfl (once_itemBlocks.2 hitems.value)
      exact (hitems.before.append (hunit hemit (Nat.le_refl _))).mono (Nat.add_le_add_right hsum _)
    | false => exact h.delivered hctx hstrategy (he.operation rfl rfl)
  | literal | option | aggregate | ident | imported | lambda | delegate | object | apply | unary
  | binary | logical | get | getIndex | test | curry =>
    exact h.delivered hctx hstrategy (he.operation rfl rfl)

end Parts.KeepsBlocks

/-! ## The rules -/

/-- The blocks of what the rules lower to declare a name once at most, if there is room for it. -/
theorem rules_keepBlocks (load : String → List String) (x : String) (n : Nat) :
    (rules n).KeepsBlocks load x := by
  induction n with
  | zero => exact ⟨fun _ _ => .fail _, fun _ _ _ => .fail _⟩
  | succ n ih => exact ⟨ih.exprRule, ih.stmtsRule⟩

/-! ## Declarations -/

variable {ctx : Context}

/-- In a function, each block declares the name once at most. -/
theorem lowerFunction_adds {name : Option String} {params : List Ir.Ident} {body : Ir.Expr}
    (hctx : Bounded load x ctx.file ctx.targets) (hbody : body.Closed) :
    Adds x ((params.map (·.name)).count x + body.weight load x) (lowerFunction ctx name params body)
      fun _ f => Once x (blocks f.2.1) :=
  (rules_keepBlocks load x _).function hctx hbody (Nat.le_refl _)

/-- In a method, each block declares the name once at most. -/
theorem lowerMethod_adds {m : Ir.Member} (hctx : Bounded load x ctx.file ctx.targets)
    (hbody : m.body.Closed) :
    Adds x ((m.binders load).count x) (lowerMethod ctx m) fun _ func =>
      Once x func.blocks ∧ func.name = m.name := by
  rw [Ir.Member.binders, List.count_append]
  exact .bind (lowerFunction_adds hctx hbody) fun _ ⟨_, _, _⟩ hf => .pure fun _ => ⟨hf, rfl⟩

/-- In methods, each block declares the name once at most. -/
theorem lowerMethods_adds {ms : List Ir.Member} (hctx : Bounded load x ctx.file ctx.targets)
    (hms : ∀ m ∈ ms, m.body.Closed) :
    Adds x ((ms.flatMap (Ir.Member.binders load)).count x) (lowerMethods ctx ms) fun _ funcs =>
      Once x (funcs.flatMap Func.blocks) := by
  induction ms with
  | nil => exact .pure fun _ => .nil
  | cons m ms ih =>
    obtain ⟨hm, hms⟩ := List.forall_mem_cons.1 hms
    rw [List.flatMap_cons, List.count_append]
    exact .bind (.mono (lowerMethod_adds hctx hm) (Nat.le_add_right _ _)) fun d _ hf =>
      .bind (.mono (ih hms) (by omega)) fun _ _ hrest => .pure fun _ =>
        Once.append_iff.2 ⟨hf.1, hrest⟩

/-- In a constructor, each block declares the name once at most. -/
theorem lowerShape_adds {entity : Entity} {constructor : Option Ir.Member}
    (hctx : Bounded load x ctx.file ctx.targets) (hbody : ∀ m ∈ constructor, m.body.Closed) :
    Adds x ((constructor.toList.flatMap (Ir.Member.binders load)).count x)
      (lowerShape ctx entity constructor) fun _ shape =>
        Once x (shape.2.toList.flatMap fun c => blocks c.body) := by
  have hfields : ∀ fields, Once x ((some (fieldConstructor fields)).toList.flatMap fun c =>
      blocks c.body) := fun _ => DeclaresAtMost.nil.once (Nat.zero_le _)
  unfold lowerShape
  split
  · exact .bind (.of_below (below_lowerFields _ _)) fun _ _ _ => .pure fun _ => hfields _
  · exact .pure fun _ => hfields _
  · cases constructor with
    | none => exact .pure fun _ => .nil
    | some m =>
      rw [Option.toList_some, List.flatMap_singleton, Ir.Member.binders, List.count_append]
      exact .bind (lowerFunction_adds hctx (hbody m rfl)) fun _ ⟨_, _, _⟩ hf => .pure fun _ =>
        Once.append_iff.2 ⟨hf, .nil⟩

/-- In a class, each block declares the name once at most. -/
theorem lowerClass_adds {decl : Ir.ClassDecl} (hctx : Bounded load x ctx.file ctx.targets)
    (hbodies : ∀ e ∈ (Ir.Leaf.classDecl decl).bodies, e.Closed) :
    Adds x (((Ir.Leaf.classDecl decl).binders load).count x) (lowerClass ctx decl) fun _ d =>
      Once x d.blocks ∧ d.name = decl.name := by
  have hconstructor : ∀ m ∈ decl.constructor, m.body.Closed := fun m hm =>
    hbodies _ (List.mem_append_left _ (List.mem_map_of_mem (Option.mem_toList.2 hm)))
  have hmethods : ∀ m ∈ decl.members, m.body.Closed := fun m hm =>
    hbodies _ (List.mem_append_right _ (List.mem_map_of_mem hm))
  rw [Ir.Leaf.binders, List.flatMap_append, List.count_append]
  exact .bind (.ofOption _ _) fun _ entity _ =>
    .bind (.mono (lowerShape_adds hctx hconstructor) (by omega)) fun _ ⟨_, _⟩ hshape =>
    .bind (.mono (lowerMethods_adds hctx hmethods) (by omega)) fun _ _ hrest => .pure fun _ =>
      ⟨Once.append_iff.2 ⟨hshape, hrest⟩, rfl⟩

/-- The statements before the value of a variable are the body of a function. -/
theorem lowerMember_adds {m : Ir.Member} (hctx : Bounded load x ctx.file ctx.targets)
    (hbody : m.body.Closed) :
    Adds x ((m.binders load).count x) (lowerMember ctx m) fun _ d =>
      Once x d.blocks ∧ d.name = m.name := by
  have hle : m.body.weight load x ≤ (m.binders load).count x := by
    rw [Ir.Member.binders, List.count_append]
    exact Nat.le_add_left _ _
  refine .ite (fun _ => .bind (.of_below (below_lowerType _ _)) fun _ ty _ =>
    .bind (.mono ((rules_keepBlocks load x _).expr hctx (.of_closed hbody hle))
      (Nat.le_add_right _ _)) fun _ value hvalue => .pure fun _ => ⟨?_, rfl⟩)
    fun _ => .bind (lowerMethod_adds hctx hbody) fun _ _ hf => .pure fun _ => hf
  have hreturn : DeclaresAtMost x 0 [.ret (some value.value)] := .plain rfl hvalue.value
  have hinvoked : Once x (invoked value ty).blocks := by
    rw [invoked]
    split
    · exact hvalue.value
    · exact Once.append_iff.2 ⟨Once.append_iff.2
        ⟨(hvalue.before.append hreturn).once (by omega), .nil⟩, .nil⟩
  exact hinvoked

/-- What a declaration is lowered to: a declaration of the library whose blocks declare a variable
once at most, or statements that do. -/
structure Output.DeclaresAtMost (x : String) (leaf : Ir.Leaf) (output : Output) : Prop where
  names : output.declarations.map (·.name) = leaf.declared
  blocks : Once x (output.declarations.flatMap Declaration.blocks)
  actions : Dart.DeclaresAtMost x leaf.isAction.toNat output.actions

/-- A declaration of a file declares the name as often as its binders do, and once in each block. -/
theorem lowerLeaf_declaresAtMost {file : SourceFile} {leaf : Ir.Leaf} {s t : LowerState}
    {output : Output} (h : lowerLeaf file leaf s = (.ok output, t)) (hfile : Bounded load x file [])
    (hbodies : ∀ e ∈ leaf.bodies, e.Closed) (hcount : (leaf.binders load).count x ≤ 1)
    (hbinders : x ∈ leaf.binders load → x ∈ leaf.used) : output.DeclaresAtMost x leaf := by
  have hused : 0 < (leaf.binders load).count x → x ∈ leaf.used := fun hpos =>
    hbinders (List.count_pos_iff.1 hpos)
  cases leaf with
  | action a =>
    have hbody : a.body.Closed := hbodies a.body List.mem_cons_self
    have hadds : Adds x ((a.body.binders load).count x)
        (do return (⟨[], ← lowerStmts (.ofFile file) .effect a.body⟩ : Output)) fun d output =>
          output.declarations = [] ∧
            DeclaresAtMost x ((a.body.binders load).count x + d) output.actions :=
      .bind ((rules_keepBlocks load x _).stmts hfile trivial (.of_closed hbody (Nat.le_refl _)))
        fun _ _ hstmts => .pure fun _ => ⟨rfl, hstmts⟩
    obtain ⟨d, hd, -, hnone, hstmts⟩ := hadds.inDeclaration h hcount hused
    exact ⟨hnone ▸ rfl, hnone ▸ .nil, hstmts.mono hd⟩
  | member m =>
    have hadds : Adds x ((m.binders load).count x)
        (do return (⟨[← lowerMember (.ofFile file) m], []⟩ : Output)) fun _ output =>
          output.DeclaresAtMost x (.member m) :=
      .bind (lowerMember_adds hfile (hbodies m.body List.mem_cons_self)) fun _ _ hdecl =>
        .pure fun _ => ⟨congrArg ([·]) hdecl.2, Once.append_iff.2 ⟨hdecl.1, .nil⟩, .nil⟩
    obtain ⟨_, -, -, houtput⟩ := hadds.inDeclaration h hcount hused
    exact houtput
  | classDecl c =>
    have hadds : Adds x (((Ir.Leaf.classDecl c).binders load).count x)
        (do return (⟨[← lowerClass (.ofFile file) c], []⟩ : Output)) fun _ output =>
          output.DeclaresAtMost x (.classDecl c) :=
      .bind (lowerClass_adds hfile hbodies) fun _ _ hdecl =>
        .pure fun _ => ⟨congrArg ([·]) hdecl.2, Once.append_iff.2 ⟨hdecl.1, .nil⟩, .nil⟩
    obtain ⟨_, -, -, houtput⟩ := hadds.inDeclaration h hcount hused
    exact houtput

end TypedLowering.Dart
