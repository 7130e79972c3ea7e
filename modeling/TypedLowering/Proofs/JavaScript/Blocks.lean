import TypedLowering.Proofs.Ir.WellFormed
import TypedLowering.Proofs.JavaScript.Control
import TypedLowering.Proofs.JavaScript.Declaration
import TypedLowering.Proofs.Lowering.Dispatcher
import TypedLowering.Proofs.Lowering.Room

/-!
# What the blocks of lowered JavaScript declare

`blocks` lists, for each function body and block in code, the names that it declares: variables,
functions and classes. If parts are lowered to code whose blocks declare a name once at most
(`Parts.KeepsBlocks`), then so does a rule that has such parts, with the variables that it declares
itself. There is one lemma for each rule.
-/

namespace TypedLowering.JavaScript

mutual

/-- What each function body and each block in an expression declares. -/
def Expr.blocks : Expr → List (List String)
  | ⟨_, form⟩ => form.blocks

/-- What the blocks in the form of an expression declare. -/
def ExprForm.blocks : ExprForm → List (List String)
  | .ident _ | .this | .literal _ => []
  | .array items | .sequence items | .emit _ items => itemBlocks items
  | .object members => memberBlocks members
  | .unary _ operand | .spread operand | .member operand _ => operand.blocks
  | .binary _ left right | .index left right => left.blocks ++ right.blocks
  | .conditional test thenExpr elseExpr => test.blocks ++ thenExpr.blocks ++ elseExpr.blocks
  | .call callee args | .construct callee args => callee.blocks ++ itemBlocks args
  | .function func => func.blocks

/-- What the blocks in expressions declare. -/
def itemBlocks : List Expr → List (List String)
  | [] => []
  | e :: es => e.blocks ++ itemBlocks es

/-- What the blocks in the members of an object declare. -/
def memberBlocks : List ObjectMember → List (List String)
  | [] => []
  | ⟨_, value⟩ :: rest => value.blocks ++ memberBlocks rest

/-- What the blocks in the value of a member declare. -/
def MemberValue.blocks : MemberValue → List (List String)
  | .value value => value.blocks
  | .method func | .getter func | .setter func => func.blocks

/-- What the body of a function and the blocks in it declare. -/
def Func.blocks : Func → List (List String)
  | ⟨_, _, _, body⟩ => body.blocks

/-- What a body and the blocks in it declare. -/
def FuncBody.blocks : FuncBody → List (List String)
  | .block stmts => introduced stmts :: innerBlocks stmts
  | .value value => value.blocks

/-- What each function body and each block in a statement declares. -/
def Stmt.blocks : Stmt → List (List String)
  | ⟨_, form⟩ => form.blocks

/-- What the blocks in the form of a statement declare. -/
def StmtForm.blocks : StmtForm → List (List String)
  | .expr e | .throw e => e.blocks
  | .block stmts => introduced stmts :: innerBlocks stmts
  | .declare ⟨_, declarators⟩ => declaratorBlocks declarators
  | .ifElse test thenStmts elseStmts =>
    test.blocks ++ introduced thenStmts :: innerBlocks thenStmts ++
      introduced elseStmts :: innerBlocks elseStmts
  | .whileLoop test body => test.blocks ++ introduced body :: innerBlocks body
  | .forLoop start test update body =>
    startBlocks start ++ optionBlocks test ++ optionBlocks update ++
      introduced body :: innerBlocks body
  | .ret value => optionBlocks value
  | .breakTo _ | .continueTo _ | .debugger => []
  | .labeled _ body | .exported body => body.blocks
  | .tryCatch block handler finalizer =>
    introduced block :: innerBlocks block ++ handlerBlocks handler ++ finalizerBlocks finalizer
  | .switch subject cases =>
    -- The cases of a switch are one block.
    subject.blocks ++ (cases.flatMap fun c => introduced c.body) :: caseBlocks cases
  | .function func => func.blocks
  | .classDecl ⟨_, base, members⟩ => optionBlocks base ++ methodBlocks members

/-- What the function bodies and blocks inside the statements of a block declare. -/
def innerBlocks : List Stmt → List (List String)
  | [] => []
  | s :: ss => s.blocks ++ innerBlocks ss

/-- What the blocks in an expression that may be missing declare. -/
def optionBlocks : Option Expr → List (List String)
  | none => []
  | some e => e.blocks

/-- What the blocks in declarators declare. -/
def declaratorBlocks : List Declarator → List (List String)
  | [] => []
  | ⟨_, value⟩ :: rest => optionBlocks value ++ declaratorBlocks rest

/-- What the blocks in the head of a loop declare. -/
def startBlocks : Option VarDecl → List (List String)
  | none => []
  | some ⟨_, declarators⟩ => declaratorBlocks declarators

/-- What a handler and the blocks in it declare. -/
def handlerBlocks : Option CatchClause → List (List String)
  | none => []
  | some ⟨_, body⟩ => introduced body :: innerBlocks body

/-- What a finalizer and the blocks in it declare. -/
def finalizerBlocks : Option (List Stmt) → List (List String)
  | none => []
  | some stmts => introduced stmts :: innerBlocks stmts

/-- What the blocks in the tests and bodies of cases declare. -/
def caseBlocks : List SwitchCase → List (List String)
  | [] => []
  | ⟨test, body⟩ :: rest => optionBlocks test ++ innerBlocks body ++ caseBlocks rest

/-- What the blocks in the members of a class declare. -/
def methodBlocks : List ClassMember → List (List String)
  | [] => []
  | ⟨_, _, _, func⟩ :: rest => func.blocks ++ methodBlocks rest

end

/-- What a block declares, and what the blocks inside do. -/
def blocks (stmts : List Stmt) : List (List String) :=
  introduced stmts :: innerBlocks stmts

/-- What the module and the function bodies and blocks in it declare. -/
def Program.blocks (p : Program) : List (List String) :=
  JavaScript.blocks p.body

open Lower (Adds)

variable {load : String → List String} {x : String}

/-- In expressions, a block declares the name once if this holds of each of them. -/
theorem once_itemBlocks {es : List Expr} : Once x (itemBlocks es) ↔ ∀ e ∈ es, Once x e.blocks := by
  induction es with
  | nil => simp [itemBlocks]
  | cons e es ih => rw [itemBlocks, Once.append_iff, ih, List.forall_mem_cons]

/-- A location does not add blocks. -/
theorem once_withLoc {e : Expr} (h : Once x e.blocks) (loc : Option Ir.Location) :
    Once x (e.withLoc loc).blocks := by
  obtain ⟨_, form⟩ := e
  rw [Expr.withLoc]
  split <;> exact h

/-- Whether statements declare a name so many times at most, and the blocks inside once at most. -/
structure DeclaresAtMost (x : String) (n : Nat) (stmts : List Stmt) : Prop where
  count : (introduced stmts).count x ≤ n
  inner : Once x (innerBlocks stmts)

namespace DeclaresAtMost

variable {m n : Nat} {as bs : List Stmt} {s : Stmt}

/-- No statements declare nothing. -/
theorem nil : DeclaresAtMost x n [] :=
  ⟨Nat.zero_le _, .nil⟩

/-- What declares the name so often at most does so for any larger number. -/
theorem mono (h : DeclaresAtMost x m as) (hmn : m ≤ n) : DeclaresAtMost x n as :=
  ⟨h.count.trans hmn, h.inner⟩

/-- Two parts of a block declare the name as often as both together. -/
theorem append (ha : DeclaresAtMost x m as) (hb : DeclaresAtMost x n bs) :
    DeclaresAtMost x (m + n) (as ++ bs) := by
  constructor
  · rw [introduced, List.flatMap_append, List.count_append]
    exact Nat.add_le_add ha.count hb.count
  · have happend : innerBlocks (as ++ bs) = innerBlocks as ++ innerBlocks bs := by
      clear ha hb
      induction as with
      | nil => rfl
      | cons a as ih => rw [List.cons_append, innerBlocks, ih, innerBlocks, List.append_assoc]
    exact happend ▸ Once.append_iff.2 ⟨ha.inner, hb.inner⟩

/-- A statement and those after it declare the name as often as both together. -/
theorem cons (hs : DeclaresAtMost x m [s]) (hb : DeclaresAtMost x n bs) :
    DeclaresAtMost x (m + n) (s :: bs) :=
  hs.append hb

/-- One statement. -/
theorem single (hcount : s.introduced.count x ≤ n) (h : Once x s.blocks) :
    DeclaresAtMost x n [s] :=
  ⟨by rwa [introduced, List.flatMap_singleton], Once.append_iff.2 ⟨h, .nil⟩⟩

/-- The statements of a block. -/
theorem once (h : DeclaresAtMost x n as) (hn : n ≤ 1) : Once x (blocks as) :=
  Once.cons_iff.2 ⟨h.count.trans hn, h.inner⟩

/-- A declaration declares its name. -/
theorem declare (mode : DeclMode) (name : String) {value : Option Expr}
    (h : Once x (optionBlocks value)) :
    DeclaresAtMost x ([name].count x) [.declare mode name value] :=
  single (Nat.le_refl _) (Once.append_iff.2 ⟨h, .nil⟩)

end DeclaresAtMost

/-- What a strategy writes to. -/
def PlaceOnce (x : String) : Strategy Expr → Prop
  | .assign place => Once x place.blocks
  | .ret | .effect | .join _ => True

/-- The place of the value of a function has no blocks. -/
theorem placeOnce_ofType (isUnit : Bool) : PlaceOnce x (.ofType isUnit) := by
  cases isUnit <;> trivial

/-- A value is put in its place without a declaration. -/
theorem declaresAtMost_deliver {strategy : Strategy Expr} {value : Expr} {n : Nat}
    (hstrategy : PlaceOnce x strategy) (hvalue : Once x value.blocks) :
    DeclaresAtMost x n (deliver strategy value) := by
  cases strategy with
  | ret | effect => exact .single (Nat.zero_le _) hvalue
  | assign => exact .single (Nat.zero_le _) (Once.append_iff.2 ⟨hstrategy, hvalue⟩)
  | join => exact .single (Nat.zero_le _) hvalue

/-- The end of a node without a value declares nothing. -/
theorem declaresAtMost_deliverUnit {n : Nat} (strategy : Strategy Expr) :
    DeclaresAtMost x n (deliverUnit strategy) := by
  cases strategy with
  | ret => exact .single (Nat.zero_le _) .nil
  | effect | assign | join => exact .nil

/-- Whether parts are lowered to code whose blocks declare a name once at most, where there is room
for it. -/
structure Parts.KeepsBlocks (load : String → List String) (x : String) (r : Parts) : Prop where
  expr : ∀ {ctx k e}, Bounded load x ctx.file ctx.targets → Room load x ctx.targets false k e →
    Adds x k (r.expr ctx e) fun _ code => Once x code.blocks
  stmts : ∀ {ctx strategy k e}, Bounded load x ctx.file ctx.targets → PlaceOnce x strategy →
    Room load x ctx.targets strategy.joinVariable?.isSome k e →
    Adds x k (r.stmts ctx strategy e) fun d code => DeclaresAtMost x (k + d) code

namespace Parts.KeepsBlocks

variable {r : Parts} (h : r.KeepsBlocks load x) {ctx : Context} {strategy : Strategy Expr} {k : Nat}
  {e : Ir.Expr}
include h

/-- In expressions, each block declares the name once at most. -/
theorem exprs {es : List Ir.Expr} (hctx : Bounded load x ctx.file ctx.targets)
    (hes : ∀ e ∈ es, Room load x ctx.targets false k e) :
    Adds x k (r.exprs ctx es) fun _ items => Once x (itemBlocks items) := by
  induction es generalizing k with
  | nil => exact .pure fun _ => .nil
  | cons e es ih =>
    obtain ⟨he, hes⟩ := List.forall_mem_cons.1 hes
    exact .bind (h.expr hctx he) fun d _ hfirst => .bind ((ih hes).mono (Nat.le_add_right _ _))
      fun _ _ hrest => .pure fun _ => Once.append_iff.2 ⟨hfirst, hrest⟩

/-- The code that delivers a value declares the name as often as the node has room for. -/
theorem delivered (hctx : Bounded load x ctx.file ctx.targets) (hstrategy : PlaceOnce x strategy)
    (he : Room load x ctx.targets false k e) :
    Adds x k (r.delivered ctx strategy e) fun d code => DeclaresAtMost x (k + d) code :=
  .bind (h.expr hctx he) fun _ _ hvalue => .pure fun _ => declaresAtMost_deliver hstrategy hvalue

/-- A declaration declares its name, and the value as often as there is room for. -/
theorem declare {id : Ir.Ident} (hctx : Bounded load x ctx.file ctx.targets) (he : e.Closed)
    (hk : [id.name].count x + e.weight load x ≤ k) :
    Adds x k (r.declare ctx id e) fun d code =>
      DeclaresAtMost x ([id.name].count x + e.weight load x + d) code := by
  have hroom : ∀ {stores}, Room load x ctx.targets stores (e.weight load x) e :=
    .of_closed he (Nat.le_refl _)
  have hle : e.weight load x ≤ k := by omega
  refine .ite (fun _ => ?_) fun _ => .bind (.isStatement _ _ _) fun d₀ _ _ =>
    .ite (fun _ => ?_) fun _ => ?_
  · exact .imp (.mono (h.stmts hctx trivial hroom) hle) fun d _ _ hcode => hcode.mono (by omega)
  · refine .bind (.mono (h.stmts hctx .nil hroom) (by omega)) fun d _ hcode => .pure fun _ => ?_
    exact ((DeclaresAtMost.declare _ _ .nil).cons hcode).mono (by omega)
  · refine .bind (.mono (h.expr hctx hroom) (by omega)) fun d _ hvalue => .pure fun _ => ?_
    exact (DeclaresAtMost.declare _ _ hvalue).mono (by omega)

/-- In a node that is called at once, each block declares the name once at most. -/
theorem invoked (hctx : Bounded load x ctx.file ctx.targets)
    (he : Room load x ctx.targets false k e) :
    Adds x k (r.invoked ctx e) fun _ code => Once x code.blocks := by
  have hstores : (Strategy.ofType e.type.isUnit : Strategy Expr).joinVariable?.isSome = false := by
    cases e.type.isUnit <;> rfl
  refine .bind (h.stmts hctx (placeOnce_ofType _) (hstores ▸ he)) fun d _ hbody => .pure fun _ => ?_
  exact Once.append_iff.2 ⟨hbody.once (by omega), .nil⟩

omit h in

/-- The body of an arrow function is a block of its own, or a value without one. -/
theorem once_arrowBody {n : Nat} {stmts : List Stmt} (hstmts : DeclaresAtMost x n stmts)
    (hn : n ≤ 1) : Once x (arrowBody stmts).blocks := by
  unfold arrowBody
  split
  · exact (Once.append_iff.1 hstmts.inner).1
  · exact hstmts.once hn

/-- In a closure, each block declares the name once at most. -/
theorem closure {params : List Ir.Ident} {body : Ir.Expr}
    (hctx : Bounded load x ctx.file ctx.targets) (hbody : body.Closed)
    (hk : body.weight load x ≤ k) :
    Adds x k (r.closure ctx params body) fun _ code => Once x code.blocks :=
  .bind (.mono (h.stmts hctx (placeOnce_ofType _) (.of_closed hbody (Nat.le_refl _))) hk)
    fun d _ hstmts => .pure fun _ => once_arrowBody hstmts (by omega)

omit h in
/-- The copies with which an iteration of a loop begins. -/
theorem declaresAtMost_copies (bindings : List (Ir.Ident × String)) : DeclaresAtMost x
    (((bindings.map (·.1)).map (·.name)).count x)
    (bindings.map fun b => .declare .const b.1.name (some (.ident b.2))) := by
  induction bindings with
  | nil => exact .nil
  | cons b bs ih =>
    rw [List.map_cons, List.map_cons, List.map_cons, count_cons_add]
    exact (DeclaresAtMost.declare _ _ .nil).cons ih

/-- A function that became a loop has nothing but the loop in its body, and each iteration is a
block of its own. -/
theorem function {name : Option String} {params : List Ir.Ident} {body : Ir.Expr}
    (hctx : Bounded load x ctx.file ctx.targets) (hbody : body.Closed)
    (hk : (params.map (·.name)).count x + body.weight load x ≤ k) :
    Adds x k (r.function ctx name params body) fun _ f => Once x (blocks f.2) := by
  have hroom : ∀ {targets stores}, Room load x targets stores (body.weight load x) body :=
    .of_closed hbody (Nat.le_refl _)
  unfold Parts.function
  dsimp only
  split
  · refine .bind (.allocateTailCall _ _) fun d₀ loop hloop =>
      .bind (.inFunction (.mono (h.stmts hctx (placeOnce_ofType _) hroom) (by omega)))
        fun d inner hinner => .ite (fun _ => .pure fun _ => ?_) fun _ => .pure fun _ =>
          hinner.once (by omega)
    have hdeclared := ((declaredParams_sublist params).map (·.name)).count_le x
    have hexit : DeclaresAtMost x 0
        (if (Strategy.ofType body.type.isUnit : Strategy Expr).isEffect then [.of (.breakTo none)]
          else []) := by
      split
      · exact .single (Nat.zero_le _) .nil
      · exact .nil
    have hiteration := ((declaresAtMost_copies loop.bindings).append hinner).append hexit
    exact (DeclaresAtMost.single (n := 0) (Nat.le_refl _) (hiteration.once (by omega))).once
      (Nat.zero_le _)
  · exact .bind (.mono (h.stmts hctx (placeOnce_ofType _) hroom) (by omega))
      fun d _ hstmts => .pure fun _ => hstmts.once (by omega)

/-- A local function declares its name, and each block of its body another one once at most. -/
theorem localFunction {id : Ir.Ident} {params : List Ir.Ident} {body : Ir.Expr}
    (hctx : Bounded load x ctx.file ctx.targets) (hbody : body.Closed)
    (hk : (params.map (·.name)).count x + body.weight load x ≤ k) :
    Adds x k (r.localFunction ctx id params body) fun _ stmt =>
      DeclaresAtMost x ([id.name].count x) [stmt] :=
  .bind (h.function hctx hbody hk) fun _ _ hf => .pure fun _ => .single (Nat.le_refl _) hf

/-! ## Expressions -/

/-- In a property list, each block declares the name once at most. -/
theorem properties {keys : List String} {values : List Ir.Expr}
    (hctx : Bounded load x ctx.file ctx.targets)
    (hvalues : ∀ e ∈ values, Room load x ctx.targets false k e) :
    Adds x k (r.properties ctx keys values) fun _ members => Once x (memberBlocks members) := by
  induction keys generalizing values k with
  | nil => exact .pure fun _ => .nil
  | cons key keys ih =>
    cases values with
    | nil => exact .pure fun _ => .nil
    | cons value values =>
      obtain ⟨hvalue, hvalues⟩ := List.forall_mem_cons.1 hvalues
      exact .bind (h.expr hctx hvalue) fun d _ hfirst =>
        .bind (.mono (ih hvalues) (Nat.le_add_right _ _)) fun _ _ hrest =>
          .pure fun _ => Once.append_iff.2 ⟨hfirst, hrest⟩

/-- In an array, a tuple, a record or a case of a union, each block declares the name once at
most. -/
theorem aggregate {kind : Ir.Aggregate} {values : List Ir.Expr}
    (hctx : Bounded load x ctx.file ctx.targets)
    (hvalues : ∀ e ∈ values, Room load x ctx.targets false k e) :
    Adds x k (r.aggregate ctx kind values) fun _ code => Once x code.blocks := by
  cases kind with
  | array | tuple =>
    exact .bind (h.exprs hctx hvalues) fun _ _ hitems => .pure fun _ => hitems
  | record =>
    exact .bind (.ofOption _ _) fun _ _ _ =>
      .bind (.mono (h.exprs hctx hvalues) (Nat.le_add_right _ _)) fun _ _ hitems =>
        .pure fun _ => hitems
  | anonymous =>
    exact .bind (h.properties hctx hvalues) fun _ _ hmembers => .pure fun _ => hmembers
  | union =>
    refine .bind (h.exprs hctx hvalues) fun _ _ hitems => .bind (.ofOption _ _) fun _ _ _ =>
      .pure fun _ => ?_
    exact once_itemBlocks.2 (List.forall_mem_cons.2 ⟨.nil, List.forall_mem_singleton.2 hitems⟩)

/-- In a member of an object, each block declares the name once at most. -/
theorem objectMember {m : Ir.ObjectMember} (hctx : Bounded load x ctx.file ctx.targets)
    (hbody : m.body.Closed) (hk : (m.args.map (·.name)).count x + m.body.weight load x ≤ k) :
    Adds x k (r.objectMember ctx m) fun _ code => Once x code.value.blocks := by
  unfold Parts.objectMember
  cases m.kind with
  | value =>
    exact .bind (h.expr hctx (.of_closed hbody (by omega))) fun _ _ hvalue => .pure fun _ => hvalue
  | method | getter | setter =>
    exact .bind (h.function hctx hbody hk) fun _ _ hf => .pure fun _ => hf

/-- In the members of an object, each block declares the name once at most. -/
theorem objectMembers {ms : List Ir.ObjectMember} (hctx : Bounded load x ctx.file ctx.targets)
    (hms : ∀ m ∈ ms, m.body.Closed ∧
      (m.args.map (·.name)).count x + m.body.weight load x ≤ k) :
    Adds x k (r.objectMembers ctx ms) fun _ members => Once x (memberBlocks members) := by
  induction ms generalizing k with
  | nil => exact .pure fun _ => .nil
  | cons m ms ih =>
    obtain ⟨hm, hms⟩ := List.forall_mem_cons.1 hms
    exact .bind (h.objectMember hctx hm.1 hm.2) fun _ ⟨_, _⟩ hfirst =>
      .bind (.mono (ih hms) (Nat.le_add_right _ _)) fun _ _ hrest =>
        .pure fun _ => Once.append_iff.2 ⟨hfirst, hrest⟩

/-- In a call, each block declares the name once at most. -/
theorem call {callee : Ir.Expr} {receiver : Option Ir.Expr} {args : List Ir.Expr} {isNew : Bool}
    (hctx : Bounded load x ctx.file ctx.targets) (hcallee : Room load x ctx.targets false k callee)
    (hargs : ∀ e ∈ receiver.toList ++ args, Room load x ctx.targets false k e) :
    Adds x k (r.call ctx callee receiver args isNew) fun _ code => Once x code.blocks := by
  have hvalues : ∀ e ∈ receiver.toList ++ discardUnitArg args, Room load x ctx.targets false k e :=
    fun e he => hargs e (((List.Sublist.refl _).append (discardUnitArg_sublist args)).subset he)
  refine .bind (h.expr hctx hcallee) fun _ _ hf =>
    .bind (.mono (h.exprs hctx hvalues) (Nat.le_add_right _ _)) fun _ _ hitems => .pure fun _ => ?_
  cases isNew <;> exact Once.append_iff.2 ⟨hf, hitems⟩

/-- In an application, each block declares the name once at most. -/
theorem applied {f : Expr} {args : List Ir.Expr} (hctx : Bounded load x ctx.file ctx.targets)
    (hf : Once x f.blocks) (hargs : ∀ e ∈ args, Room load x ctx.targets false k e) :
    Adds x k (r.applied ctx f args) fun _ code => Once x code.blocks := by
  induction args generalizing f k with
  | nil => exact .pure fun _ => hf
  | cons arg args ih =>
    obtain ⟨harg, hargs⟩ := List.forall_mem_cons.1 hargs
    refine .bind (h.expr hctx harg) fun _ _ hvalue => .mono (ih ?_ hargs) (Nat.le_add_right _ _)
    exact Once.append_iff.2 ⟨hf, Once.append_iff.2 ⟨hvalue, .nil⟩⟩

/-- In a binary operation, each block declares the name once at most. -/
theorem binary {op : Ir.BinaryOp} {left right : Ir.Expr} {ty : Ir.Ty}
    (hctx : Bounded load x ctx.file ctx.targets) (hleft : Room load x ctx.targets false k left)
    (hright : Room load x ctx.targets false k right) :
    Adds x k (r.binary ctx op left right ty) fun _ code => Once x code.blocks := by
  refine .bind (h.expr hctx hleft) fun d a ha =>
    .bind (.mono (h.expr hctx hright) (Nat.le_add_right _ _)) fun d' b hb => ?_
  have hplain : Once x (Expr.binary (binaryOperator op) a b).blocks :=
    Once.append_iff.2 ⟨ha, hb⟩
  cases op with
  | equal | notEqual =>
    refine .ite (fun _ => .pure fun _ => hplain) fun _ =>
      .bind (.of_below (.importMember _ _)) fun _ _ _ => .pure fun _ => ?_
    exact once_itemBlocks.2 (List.forall_mem_cons.2 ⟨ha, List.forall_mem_singleton.2 hb⟩)
  | divide =>
    refine .pure fun _ => ?_
    split
    · exact Once.append_iff.2 ⟨hplain, .nil⟩
    · exact hplain
  | _ => exact .pure fun _ => hplain

/-- In the place that an assignment writes to, each block declares the name once at most. -/
theorem place {target : Ir.Expr} {field : Option String}
    (hctx : Bounded load x ctx.file ctx.targets)
    (htarget : Room load x ctx.targets false k target) :
    Adds x k (r.place ctx target field) fun _ code => Once x code.blocks := by
  refine .bind (h.expr hctx htarget) fun _ _ hobj => .pure fun _ => ?_
  cases field <;> exact hobj

/-- In the element that an assignment writes to, each block declares the name once at most. -/
theorem element {target index : Ir.Expr} (hctx : Bounded load x ctx.file ctx.targets)
    (htarget : Room load x ctx.targets false k target)
    (hindex : Room load x ctx.targets false k index) :
    Adds x k (r.element ctx target index) fun _ code => Once x code.blocks :=
  .bind (h.expr hctx htarget) fun _ _ hobj =>
    .bind (.mono (h.expr hctx hindex) (Nat.le_add_right _ _)) fun _ _ hi =>
      .pure fun _ => Once.append_iff.2 ⟨hobj, hi⟩

omit h in

/-- What is read from an object has the blocks of the object. -/
theorem once_access {obj : Expr} (hobj : Once x obj.blocks) (kind : Ir.Access) :
    Once x (access obj kind).blocks := by
  cases kind with
  | field | unionTag | optionValue => exact hobj
  | tupleItem | unionField => exact Once.append_iff.2 ⟨hobj, .nil⟩

omit h in

/-- A test has the blocks of its value. -/
theorem test_adds {value : Expr} {kind : Ir.TestKind} {loc : Option Ir.Location}
    (hvalue : Once x value.blocks) :
    Adds x k (test ctx value kind loc) fun _ code => Once x code.blocks := by
  have hfirst : Once x (value.blocks ++ []) := Once.append_iff.2 ⟨hvalue, .nil⟩
  cases kind with
  | option | unionCase => exact .pure fun _ => hfirst
  | type ty =>
    cases ty with
    | any => exact .pure fun _ => .nil
    | boolean | char | string | number | lambda | delegate | regex => exact .pure fun _ => hfirst
    | array | list | tuple => exact .pure fun _ => Once.append_iff.2 ⟨.nil, hfirst⟩
    | declared entity => exact .bind (.ofOption _ _) fun _ _ _ => .pure fun _ => hfirst
    | unit | option | param => exact .fail _

/-- In a node that is an expression, each block declares the name once at most. -/
theorem exprCore (hctx : Bounded load x ctx.file ctx.targets)
    (he : Room load x ctx.targets false k e) :
    Adds x k (r.exprCore ctx e) fun _ code => Once x code.blocks := by
  cases e with
  | literal value =>
    refine .pure fun _ => ?_
    cases value <;> exact .nil
  | option value =>
    cases value with
    | none => exact .pure fun _ => .nil
    | some value => exact h.expr hctx (he.child List.mem_cons_self rfl)
  | aggregate kind values => exact h.aggregate hctx fun _ hmem => he.child hmem rfl
  | ident id =>
    refine .pure fun _ => ?_
    split <;> exact .nil
  | cast inner => exact h.expr hctx (he.child List.mem_cons_self rfl)
  | imported =>
    exact .bind (.of_below (.resolveImport _ _)) fun _ _ _ =>
      .bind (.of_below (.importMember _ _)) fun _ _ _ => .pure fun _ => .nil
  | lambda arg body | delegate args body =>
    exact h.closure hctx (he.atEnd.closedPart List.mem_cons_self)
      (he.child List.mem_cons_self rfl).own
  | object members ty base =>
    have hmembers : ∀ m ∈ members, m.body.Closed ∧
        (m.args.map (·.name)).count x + m.body.weight load x ≤ k := fun m hm =>
      ⟨he.atEnd.closedPart (List.mem_append_left _ (List.mem_map_of_mem hm)),
        (Ir.Expr.weight_member_le load x hm).trans he.own⟩
    refine .bind (h.objectMembers hctx hmembers) fun _ _ hobj => ?_
    cases base with
    | none => exact .pure fun _ => hobj
    | some base =>
      refine .bind (.mono (h.expr hctx (he.child ?_ rfl)) (Nat.le_add_right _ _)) fun _ _ hbase =>
        .pure fun _ => ?_
      · exact List.mem_append_right _ List.mem_cons_self
      · exact once_itemBlocks.2 (List.forall_mem_cons.2 ⟨hbase, List.forall_mem_singleton.2 hobj⟩)
  | call callee receiver args isNew =>
    exact h.call hctx (he.child List.mem_cons_self rfl)
      fun _ hmem => he.child (List.mem_cons_of_mem _ hmem) rfl
  | apply f args =>
    exact .bind (h.expr hctx (he.child List.mem_cons_self rfl)) fun _ _ hf =>
      .mono (h.applied hctx hf fun _ hmem => he.child (List.mem_cons_of_mem _ hmem) rfl)
        (Nat.le_add_right _ _)
  | unary op operand =>
    exact .bind (h.expr hctx (he.child List.mem_cons_self rfl)) fun _ _ hvalue =>
      .pure fun _ => hvalue
  | get obj kind =>
    exact .bind (h.expr hctx (he.child List.mem_cons_self rfl)) fun _ _ hobj =>
      .pure fun _ => once_access hobj kind
  | binary op left right =>
    exact h.binary hctx (he.child List.mem_cons_self rfl)
      (he.child (by simp [Ir.Expr.children]) rfl)
  | logical op left right =>
    exact .bind (h.expr hctx (he.child List.mem_cons_self rfl)) fun _ _ ha =>
      .bind (.mono (h.expr hctx (he.child (by simp [Ir.Expr.children]) rfl))
        (Nat.le_add_right _ _)) fun _ _ hb => .pure fun _ => Once.append_iff.2 ⟨ha, hb⟩
  | emit template args =>
    exact .bind (h.exprs hctx fun _ hmem => he.child hmem rfl) fun _ _ hargs =>
      .pure fun _ => hargs
  | sequence es =>
    refine .bind (h.exprs hctx fun _ hmem => he.child hmem rfl) fun _ items hitems =>
      .pure fun _ => ?_
    rcases items with _ | ⟨item, _ | _⟩
    · exact .nil
    · exact (Once.append_iff.1 hitems).1
    · exact hitems
  | getIndex obj index =>
    exact h.element hctx (he.child List.mem_cons_self rfl)
      (he.child (by simp [Ir.Expr.children]) rfl)
  | set target field value =>
    exact .bind (h.place hctx (he.child List.mem_cons_self rfl)) fun _ _ hplace =>
      .bind (.mono (h.expr hctx (he.child (by simp [Ir.Expr.children]) rfl))
        (Nat.le_add_right _ _)) fun _ _ hvalue => .pure fun _ => Once.append_iff.2 ⟨hplace, hvalue⟩
  | setIndex target index value =>
    exact .bind (h.element hctx (he.child List.mem_cons_self rfl)
      (he.child (by simp [Ir.Expr.children]) rfl)) fun _ _ hplace =>
      .bind (.mono (h.expr hctx (he.child (by simp [Ir.Expr.children]) rfl))
        (Nat.le_add_right _ _)) fun _ _ hvalue => .pure fun _ => Once.append_iff.2 ⟨hplace, hvalue⟩
  | test value kind =>
    exact .bind (h.expr hctx (he.child List.mem_cons_self rfl)) fun _ _ hvalue =>
      .mono (test_adds hvalue) (Nat.zero_le _)
  | ifThenElse guard thenExpr elseExpr =>
    exact .bind (h.expr hctx (he.child List.mem_cons_self rfl)) fun _ _ hguard =>
      .bind (.mono (h.expr hctx (he.child (by simp [Ir.Expr.children]) rfl))
        (Nat.le_add_right _ _)) fun _ _ hthen =>
      .bind (.mono (h.expr hctx (he.child (by simp [Ir.Expr.children]) rfl))
        (by omega)) fun _ _ helse => .pure fun _ =>
          Once.append_iff.2 ⟨Once.append_iff.2 ⟨hguard, hthen⟩, helse⟩
  | decisionTree dispatcher targets => exact h.expr (hctx.tree he.atEnd) he.tree
  | success index =>
    exact .bind (.ofOption _ _) fun _ t ht =>
      .mono (h.expr hctx (he.target hctx ht.2)) (Nat.le_add_right _ _)
  | curry inner =>
    exact .bind (.of_below (.importMember _ _)) fun _ _ _ =>
      .bind (.mono (h.expr hctx (he.child List.mem_cons_self rfl)) (Nat.le_add_right _ _))
        fun _ _ hvalue => .pure fun _ => Once.append_iff.2 ⟨.nil, Once.append_iff.2 ⟨hvalue, .nil⟩⟩
  | throw | debugger | letIn | letRec | whileLoop | forLoop | tryCatch => exact h.invoked hctx he

omit h in

/-- The expansion of a call has the room of the call and of its new names. -/
theorem expansion?_adds (hctx : Bounded load x ctx.file ctx.targets)
    (he : Room load x ctx.targets false k e) :
    Adds x k (expansion? ctx e) fun d o => ∀ e ∈ o, Room load x ctx.targets false (k + d) e := by
  unfold expansion?
  split
  · exact .expandInline hctx he
  · exact .pure fun _ => nofun

/-- In any node in the place of an expression, each block declares the name once at most. -/
theorem exprRule (hctx : Bounded load x ctx.file ctx.targets)
    (he : Room load x ctx.targets false k e) :
    Adds x k (r.exprRule ctx e) fun _ code => Once x code.blocks := by
  refine .bind (expansion?_adds hctx he) fun _ expanded hexpanded => ?_
  cases expanded with
  | some expanded => exact h.expr hctx (hexpanded expanded rfl)
  | none =>
    refine .bind (.of_below (Deepens.below_isInvoked _ _)) fun _ _ _ =>
      .ite (fun _ => ?_) fun _ => ?_
    · exact .mono (h.invoked hctx he) (by omega)
    · exact .bind (.mono (h.exprCore hctx he) (by omega)) fun _ _ hvalue =>
        .pure fun _ => once_withLoc hvalue _

/-! ## Statements -/

/-- The writes to the slots of a loop declare nothing that has no room. -/
theorem slotWrites {slots : List (Ir.Ident × String)} {args : List Ir.Expr}
    (hctx : Bounded load x ctx.file ctx.targets)
    (hargs : ∀ e ∈ args, Room load x ctx.targets false k e) :
    Adds x k (r.slotWrites ctx slots args) fun _ code => DeclaresAtMost x 0 code := by
  induction slots generalizing args k with
  | nil => exact .pure fun _ => .nil
  | cons b slots ih =>
    cases args with
    | nil => exact .pure fun _ => .nil
    | cons arg args =>
      obtain ⟨harg, hargs⟩ := List.forall_mem_cons.1 hargs
      rw [slotWrites_cons]
      refine .bind (h.expr hctx harg) fun _ _ hvalue =>
        .bind (.mono (ih hargs) (Nat.le_add_right _ _)) fun _ _ hrest => .pure fun _ => ?_
      split
      · exact hrest
      · exact (DeclaresAtMost.single (n := 0) (Nat.le_refl _) hvalue).cons hrest

/-- A self tail call declares nothing that has no room. -/
theorem tailCall {loop : TailCall} {args : List Ir.Expr}
    (hctx : Bounded load x ctx.file ctx.targets)
    (hargs : ∀ e ∈ args, Room load x ctx.targets false k e) :
    Adds x k (r.tailCall ctx loop args) fun _ code => DeclaresAtMost x 0 code :=
  .bind (.of_below .markLooped) fun _ _ _ =>
    .bind (.mono (h.slotWrites hctx fun e he => hargs e (mem_of_mem_discardUnitArg he))
      (Nat.le_add_right _ _)) fun _ _ hwrites => .pure fun _ =>
        hwrites.append (.single (n := 0) (Nat.le_refl _) .nil)

/-- A recursive let declares its names, and the values as often as there is room for. -/
theorem recursive {bs : List Ir.Binding} (hctx : Bounded load x ctx.file ctx.targets)
    (hbs : ∀ b ∈ bs, b.value.Closed) (hk : (bs.map (Ir.Binding.weight load x)).sum ≤ k) :
    Adds x k (r.recursive ctx bs) fun d code =>
      DeclaresAtMost x ((bs.map (Ir.Binding.weight load x)).sum + d) code := by
  induction bs generalizing k with
  | nil => exact .pure fun _ => .nil
  | cons b bs ih =>
    obtain ⟨hb, hbs⟩ := List.forall_mem_cons.1 hbs
    rw [List.map_cons, List.sum_cons, Ir.Binding.weight] at hk ⊢
    rcases recursive_cons r ctx b bs with ⟨params, body, name, hvalue, heq⟩ | heq
    · obtain ⟨hbody, hle⟩ := hb.functionBody hvalue load x
      rw [heq]
      refine .bind (h.localFunction hctx hbody (by omega)) fun d _ hfirst =>
        .bind (.mono (ih hbs (by omega)) (Nat.le_refl _)) fun d' _ hrest => .pure fun _ => ?_
      exact (hfirst.cons hrest).mono (by omega)
    · rw [heq]
      refine .bind (h.declare hctx hb (by omega)) fun d _ hfirst =>
        .bind (.mono (ih hbs (by omega)) (Nat.le_refl _)) fun d' _ hrest => .pure fun _ => ?_
      exact (hfirst.append hrest).mono (by omega)

/-- A sequence declares the name as often as its nodes have room for. -/
theorem sequence {es : List Ir.Expr} (hctx : Bounded load x ctx.file ctx.targets)
    (hstrategy : PlaceOnce x strategy)
    (he : Room load x ctx.targets strategy.joinVariable?.isSome k (.sequence es)) :
    Adds x k (r.sequence ctx strategy es) fun d code => DeclaresAtMost x (k + d) code := by
  induction es generalizing k with
  | nil => exact .pure fun _ => declaresAtMost_deliverUnit strategy
  | cons e es ih =>
    have hfirst := (he.child List.mem_cons_self rfl).own
    cases es with
    | nil => exact h.stmts hctx hstrategy (he.child List.mem_cons_self rfl)
    | cons =>
      have hclosed := he.atEnd.closedPart (c := e) List.mem_cons_self
      refine .bind (.mono (h.stmts hctx trivial (.of_closed hclosed (Nat.le_refl _))) hfirst)
        fun d _ hstmts => .bind (.mono (ih he.rest) (by omega)) fun d' _ hrest => .pure fun _ => ?_
      exact (hstmts.append hrest).mono (by omega)

/-- An assignment declares nothing that has no room. -/
theorem assignment {place : Expr} {loc : Option Ir.Location}
    (hctx : Bounded load x ctx.file ctx.targets) (hplace : Once x place.blocks)
    (he : Room load x ctx.targets false k e) :
    Adds x k (r.assignment ctx place e loc) fun d code => DeclaresAtMost x (k + d) code := by
  refine .bind (.isStatement _ _ _) fun _ _ _ => .ite (fun _ => ?_) fun _ => ?_
  · have hstrategy : PlaceOnce x (.assign place) := hplace
    exact .imp (.mono (h.stmts hctx hstrategy he) (Nat.le_add_right _ _)) fun d _ _ hcode =>
      hcode.mono (by omega)
  · refine .bind (.mono (h.expr hctx he) (Nat.le_add_right _ _)) fun _ value hvalue =>
      .pure fun _ => .single (Nat.zero_le _) ?_
    exact once_withLoc (e := .assign place value) (Once.append_iff.2 ⟨hplace, hvalue⟩) loc

/-- A counting loop declares the bound outside and the counter in its head. -/
theorem forLoop {id : Ir.Ident} {start limit body : Ir.Expr} {isUp : Bool}
    {loc : Option Ir.Location} (hctx : Bounded load x ctx.file ctx.targets)
    (hstart : Room load x ctx.targets false k start)
    (hlimit : Room load x ctx.targets false k limit)
    (hbody : Room load x ctx.targets false k body) :
    Adds x k (r.forLoop ctx id start limit body isUp loc) fun d code =>
      DeclaresAtMost x (k + d) code := by
  refine .bind (h.expr hctx hstart) fun d₁ start hstart =>
    .bind (.mono (h.expr hctx hlimit) (by omega)) fun d₂ limit hlimit => ?_
  have hloop : ∀ {bound : Expr} {stmts : List Stmt} {comparison step : Operator} {n : Nat},
      Once x bound.blocks → DeclaresAtMost x n stmts → n ≤ 1 → DeclaresAtMost x 0 [(⟨loc, .forLoop
        (some ⟨.let, [⟨id.name, some start⟩]⟩) (some (.binary comparison (.ident id.name) bound))
        (some (.binary step (.ident id.name) (.number 1))) stmts⟩ : Stmt)] := by
    intro bound stmts comparison step n hbound hstmts hn
    have hhead : Once x (start.blocks ++ []) := Once.append_iff.2 ⟨hstart, .nil⟩
    have htest := Once.append_iff.2 ⟨hhead, Once.append_iff.2 ⟨Once.nil, hbound⟩⟩
    exact .single (Nat.le_refl _)
      (Once.append_iff.2 ⟨Once.append_iff.2 ⟨htest, .nil⟩, hstmts.once hn⟩)
  dsimp only
  refine .ite (fun _ => ?_) fun _ => .bind (.allocateLocal "limit") fun d name hname => ?_
  · rw [pure_bind]
    refine .bind (.mono (h.stmts hctx trivial hbody) (by omega)) fun d _ hstmts => ?_
    cases isUp <;> exact .pure fun _ => (hloop hlimit hstmts (by omega)).mono (Nat.zero_le _)
  · rw [pure_bind]
    refine .bind (.mono (h.stmts hctx trivial hbody) (by omega)) fun d' _ hstmts => ?_
    have hdeclare : DeclaresAtMost x ([name].count x) [.declare .const name (some limit)] :=
      .declare _ _ hlimit
    cases isUp <;> exact .pure fun _ =>
      (hdeclare.append (hloop .nil hstmts (by omega))).mono (by omega)

/-- In a handler, each block declares the name once at most. -/
theorem handler {hd : Option Ir.Handler} (hctx : Bounded load x ctx.file ctx.targets)
    (hstrategy : PlaceOnce x strategy) (hbody : ∀ hdl ∈ hd,
      Room load x ctx.targets strategy.joinVariable?.isSome k hdl.body) :
    Adds x k (r.handler ctx strategy hd) fun _ code => Once x (handlerBlocks code) := by
  cases hd with
  | none => exact .pure fun _ => .nil
  | some hd =>
    exact .bind (.inHandler (h.stmts hctx hstrategy (hbody hd rfl))) fun d _ hstmts =>
      .pure fun _ => hstmts.once (by omega)

/-- In a finalizer, each block declares the name once at most. -/
theorem finalizer {o : Option Ir.Expr} (hctx : Bounded load x ctx.file ctx.targets)
    (ho : ∀ e ∈ o, Room load x ctx.targets false k e) :
    Adds x k (r.finalizer ctx o) fun _ code => Once x (finalizerBlocks code) := by
  cases o with
  | none => exact .pure fun _ => .nil
  | some e =>
    exact .bind (h.stmts hctx trivial (ho e rfl)) fun d _ hstmts =>
      .pure fun _ => hstmts.once (by omega)

omit h in

/-- The declarations of what targets bind declare the name as often as the targets bind it. -/
theorem declaresAtMost_targetVariables (targets : List Ir.Target) : DeclaresAtMost x
    (targets.map fun t => (t.bound.map (·.name)).count x).sum (targetVariables ctx targets) := by
  have hbound : ∀ ids : List Ir.Ident, DeclaresAtMost x ((ids.map (·.name)).count x)
      (ids.map fun id => .declare .let id.name none) := by
    intro ids
    induction ids with
    | nil => exact .nil
    | cons id ids ih =>
      rw [List.map_cons, List.map_cons, count_cons_add]
      exact (DeclaresAtMost.declare _ _ .nil).cons ih
  unfold targetVariables
  induction targets with
  | nil => exact .nil
  | cons t ts ih =>
    rw [List.filter_cons, List.map_cons, List.sum_cons]
    split
    · exact (hbound t.bound).append ih
    · exact ih.mono (Nat.le_add_left _ _)

/-- The cases of a switch are one block. -/
theorem cases {index : Nat} {ts : List Ir.Target} (hctx : Bounded load x ctx.file ctx.targets)
    (hstrategy : PlaceOnce x strategy) (hts : ∀ t ∈ ts, t.body.Closed)
    (hk : (ts.map fun t => t.body.weight load x).sum ≤ k) :
    Adds x k (r.cases ctx strategy index ts) fun d code =>
      (code.flatMap fun c => introduced c.body).count x ≤
        (ts.map fun t => t.body.weight load x).sum + d ∧ Once x (caseBlocks code) := by
  induction ts generalizing index k with
  | nil => exact .pure fun _ => ⟨Nat.zero_le _, .nil⟩
  | cons t ts ih =>
    obtain ⟨ht, hts⟩ := List.forall_mem_cons.1 hts
    rw [List.map_cons, List.sum_cons] at hk ⊢
    refine .bind (.mono (h.stmts hctx hstrategy (.of_closed ht (Nat.le_refl _))) (by omega))
      fun d body hbody => ?_
    refine .bind (.mono (ih hts (by omega)) (Nat.le_refl _)) fun d' rest hrest => .pure fun _ => ?_
    have hcode : ∀ {exit : List Stmt}, DeclaresAtMost x 0 exit →
        let first : SwitchCase :=
          ⟨if ts.isEmpty then none else some (.number index), body ++ exit⟩
        ((first :: rest).flatMap fun c => introduced c.body).count x ≤
          t.body.weight load x + (ts.map fun t => t.body.weight load x).sum + (d + d') ∧
            Once x (caseBlocks (first :: rest)) := by
      intro exit hexit
      have hcase := hbody.append hexit
      refine ⟨?_, Once.append_iff.2 ⟨Once.append_iff.2 ⟨?_, hcase.inner⟩, hrest.2⟩⟩
      · rw [List.flatMap_cons, List.count_append]
        exact (Nat.add_le_add hcase.count hrest.1).trans (by omega)
      · split <;> exact .nil
    cases strategy with
    | ret => exact hcode .nil
    | effect | assign | join => exact hcode (.single (Nat.zero_le _) .nil)

/-- A decision tree declares what its targets bind and the join variable. -/
theorem decisionTree {dispatcher : Ir.Expr} {targets : List Ir.Target}
    (hctx : Bounded load x ctx.file ctx.targets) (hstrategy : PlaceOnce x strategy)
    (he : Room load x ctx.targets strategy.joinVariable?.isSome k
      (.decisionTree dispatcher targets)) :
    Adds x k (r.decisionTree ctx strategy dispatcher targets) fun d code =>
      DeclaresAtMost x (k + d) code := by
  have hclosed : ∀ t ∈ targets, t.body.Closed := fun t ht =>
    he.atEnd.closedPart (List.mem_map_of_mem ht)
  have hle := he.tree_le
  refine .ite (fun _ => h.stmts (hctx.tree he.atEnd) hstrategy he.tree) fun _ =>
    .bind (.allocateLocal "matchResult") fun d join hjoin => ?_
  refine .bind (.mono (h.stmts (hctx.tree he.atEnd) trivial he.stored) (by omega))
    fun d₁ _ hselect => .bind (.mono (h.cases hctx hstrategy hclosed (Nat.le_refl _)) (by omega))
      fun d₂ cases hcases => .pure fun _ => ?_
  have hswitch : DeclaresAtMost x 0 [.of (.switch (.ident join) cases)] :=
    .single (Nat.le_refl _) (Once.cons_iff.2 ⟨hcases.1.trans (by omega), hcases.2⟩)
  exact (((DeclaresAtMost.declare _ _ .nil).cons
    ((declaresAtMost_targetVariables targets).append hselect)).append hswitch).mono (by omega)

/-- Declarations of what a target binds declare the name as often as the target binds it. -/
theorem bindings {ids : List Ir.Ident} {values : List Ir.Expr}
    (hctx : Bounded load x ctx.file ctx.targets) (hvalues : ∀ e ∈ values, e.Closed)
    (hk : (ids.map (·.name)).count x + (values.map (Ir.Expr.weight load x)).sum ≤ k) :
    Adds x k (r.bindings ctx ids values) fun d code => DeclaresAtMost x
      ((ids.map (·.name)).count x + (values.map (Ir.Expr.weight load x)).sum + d) code := by
  induction ids generalizing values k with
  | nil => exact .pure fun _ => .nil
  | cons id ids ih =>
    cases values with
    | nil => exact .pure fun _ => .nil
    | cons value values =>
      obtain ⟨hvalue, hvalues⟩ := List.forall_mem_cons.1 hvalues
      rw [List.map_cons, List.map_cons, List.sum_cons, count_cons_add] at hk ⊢
      refine .bind (.mono (h.declare hctx hvalue (Nat.le_refl _)) (by omega)) fun d _ hfirst =>
        .bind (.mono (ih hvalues (Nat.le_refl _)) (by omega)) fun d' _ hrest => .pure fun _ => ?_
      exact (hfirst.append hrest).mono (by omega)

/-- Assignments to what a target binds declare nothing that has no room. -/
theorem assignments {ids : List Ir.Ident} {values : List Ir.Expr}
    (hctx : Bounded load x ctx.file ctx.targets) (hvalues : ∀ e ∈ values, e.Closed)
    (hk : (values.map (Ir.Expr.weight load x)).sum ≤ k) :
    Adds x k (r.assignments ctx ids values) fun d code => DeclaresAtMost x
      ((values.map (Ir.Expr.weight load x)).sum + d) code := by
  induction ids generalizing values k with
  | nil => exact .pure fun _ => .nil
  | cons id ids ih =>
    cases values with
    | nil => exact .pure fun _ => .nil
    | cons value values =>
      obtain ⟨hvalue, hvalues⟩ := List.forall_mem_cons.1 hvalues
      rw [List.map_cons, List.sum_cons] at hk ⊢
      refine .bind (.mono (h.stmts hctx .nil (.of_closed hvalue (Nat.le_refl _))) (by omega))
        fun d _ hfirst => .bind (.mono (ih hvalues (Nat.le_refl _)) (by omega))
          fun d' _ hrest => .pure fun _ => ?_
      exact (hfirst.append hrest).mono (by omega)

/-- In place, a target has its bindings and its body in one block with the values. If its index is
stored, then the block has nothing but the values. -/
theorem success {index : Nat} {values : List Ir.Expr} {ty : Ir.Ty}
    (hctx : Bounded load x ctx.file ctx.targets) (hstrategy : PlaceOnce x strategy)
    (he : Room load x ctx.targets strategy.joinVariable?.isSome k (.success index values ty)) :
    Adds x k (r.success ctx strategy index values) fun d code => DeclaresAtMost x (k + d) code := by
  have hvalues : ∀ e ∈ values, e.Closed := fun e hmem => he.atEnd.closedPart hmem
  refine .bind (.ofOption _ _) fun d t ht => ?_
  cases strategy with
  | join name =>
    have hown := (Ir.Expr.sum_children_le load x _).trans he.own
    refine .bind (.mono (h.assignments hctx hvalues hown) (Nat.le_add_right _ _))
      fun d' _ hstmts => .pure fun _ => ?_
    exact (hstmts.append (.single (n := 0) (Nat.zero_le _) .nil)).mono (by
      rw [Ir.Expr.children] at hown
      omega)
  | ret | effect | assign =>
    have hle := he.success_le ht.2
    rw [Ir.Target.weight] at hle
    refine .bind (.mono (h.bindings hctx hvalues (Nat.le_refl _)) (by omega)) fun d' _ hstmts =>
      .bind (.mono (h.stmts hctx hstrategy (.of_closed (hctx.targets t (List.mem_of_getElem? ht.2))
        (Nat.le_refl _))) (by omega)) fun d'' _ hbody => .pure fun _ => ?_
    exact (hstmts.append hbody).mono (by omega)

/-- A conditional statement has a block for each branch. -/
theorem conditional {guard thenExpr elseExpr : Ir.Expr} {loc : Option Ir.Location}
    (hctx : Bounded load x ctx.file ctx.targets) (hstrategy : PlaceOnce x strategy)
    (he : Room load x ctx.targets strategy.joinVariable?.isSome k
      (.ifThenElse guard thenExpr elseExpr loc)) :
    Adds x k (r.conditional ctx strategy guard thenExpr elseExpr loc) fun _ code =>
      DeclaresAtMost x 0 code := by
  refine .bind (h.expr hctx (he.closedPart List.mem_cons_self)) fun d₀ _ htest =>
    .bind (.mono (h.stmts hctx hstrategy (he.child (by simp [Ir.Expr.children]) rfl)) (by omega))
      fun d _ hthen => .bind (.mono (h.stmts hctx hstrategy
        (he.child (by simp [Ir.Expr.children]) rfl)) (by omega)) fun d' _ helse =>
          .pure fun _ => .single (Nat.zero_le _) ?_
  exact Once.append_iff.2 ⟨Once.append_iff.2 ⟨htest, hthen.once (by omega)⟩,
    helse.once (by omega)⟩

/-- Any node in the place of statements declares the name as often as there is room for. -/
theorem stmtsRule (hctx : Bounded load x ctx.file ctx.targets) (hstrategy : PlaceOnce x strategy)
    (he : Room load x ctx.targets strategy.joinVariable?.isSome k e) :
    Adds x k (r.stmtsRule ctx strategy e) fun d code => DeclaresAtMost x (k + d) code := by
  have hunit : ∀ {m n : Nat} {stmts : List Stmt}, DeclaresAtMost x m stmts → m ≤ n →
      DeclaresAtMost x n (stmts ++ deliverUnit strategy) := fun hstmts hle =>
    (hstmts.append (declaresAtMost_deliverUnit (n := 0) strategy)).mono hle
  have hcons : ∀ {n : Nat} {s : Stmt}, s.introduced.count x ≤ 0 → Once x s.blocks →
      DeclaresAtMost x n (s :: deliverUnit strategy) := fun hcount hblocks =>
    hunit (.single hcount hblocks) (Nat.zero_le _)
  cases e with
  | cast inner => exact h.stmts hctx hstrategy (he.child List.mem_cons_self rfl)
  | call callee receiver args isNew =>
    unfold Parts.stmtsRule
    dsimp only
    split
    · refine .imp (h.tailCall hctx fun a ha => he.closedPart ?_) fun d _ _ hcode =>
        hcode.mono (Nat.zero_le _)
      exact List.mem_cons_of_mem _ (List.mem_append_right _ ha)
    · exact h.delivered hctx hstrategy (he.operation rfl rfl)
  | ifThenElse guard thenExpr elseExpr =>
    refine .bind (.isStatement _ _ _) fun d b hb => .ite (fun _ => ?_) fun hnot => ?_
    · exact .imp (.mono (h.conditional hctx hstrategy he) (Nat.le_add_right _ _)) fun d _ _ hcode =>
        hcode.mono (Nat.zero_le _)
    · -- Where the dispatcher of a shared tree is stored, a conditional is a statement.
      cases strategy with
      | join name =>
        have hprefers := isStatement_of_prefers ctx guard thenExpr elseExpr
        exact absurd (Except.ok.inj (hb.2.symm.trans (hprefers _))) hnot
      | ret | effect | assign =>
        exact .imp (.mono (h.delivered hctx hstrategy he) (Nat.le_add_right _ _)) fun d _ _ hcode =>
          hcode.mono (by omega)
  | decisionTree dispatcher targets => exact h.decisionTree hctx hstrategy he
  | success index values => exact h.success hctx hstrategy he
  | letIn id value body =>
    have hvalue : value.Closed := he.atEnd.closedPart List.mem_cons_self
    have hweight := Ir.Expr.weight_letIn load x id value body
    have hown := he.own
    have hbody := he.beside (c := body) (j := [id.name].count x + value.weight load x)
      (by simp [Ir.Expr.children]) rfl (by omega)
    refine .bind (.mono (h.declare hctx hvalue (Nat.le_refl _)) (by omega)) fun d _ hfirst =>
      .bind (.mono (h.stmts hctx hstrategy hbody) (by omega)) fun d' _ hrest => .pure fun _ => ?_
    exact (hfirst.append hrest).mono (by omega)
  | letRec bs body =>
    have hvalues : ∀ b ∈ bs, b.value.Closed := fun b hb =>
      he.atEnd.closedPart (List.mem_map_of_mem hb)
    have hweight := Ir.Expr.weight_letRec load x bs body
    have hown := he.own
    have hbody := he.beside (c := body) (j := (bs.map (Ir.Binding.weight load x)).sum)
      (by simp [Ir.Expr.children]) rfl (by omega)
    refine .bind (.mono (h.recursive hctx hvalues (Nat.le_refl _)) (by omega)) fun d _ hfirst =>
      .bind (.mono (h.stmts hctx hstrategy hbody) (by omega)) fun d' _ hrest => .pure fun _ => ?_
    exact (hfirst.append hrest).mono (by omega)
  | sequence es => exact h.sequence hctx hstrategy he
  | set target field value =>
    have he := he.operation rfl rfl
    refine .bind (h.place hctx (he.child List.mem_cons_self rfl)) fun d _ hplace =>
      .bind (.mono (h.assignment hctx hplace (he.child (by simp [Ir.Expr.children]) rfl))
        (Nat.le_add_right _ _)) fun d' _ hstmts => .pure fun _ => ?_
    exact hunit hstmts (by omega)
  | setIndex target index value =>
    have he := he.operation rfl rfl
    refine .bind (h.element hctx (he.child List.mem_cons_self rfl)
      (he.child (by simp [Ir.Expr.children]) rfl)) fun d _ hplace =>
      .bind (.mono (h.assignment hctx hplace (he.child (by simp [Ir.Expr.children]) rfl))
        (Nat.le_add_right _ _)) fun d' _ hstmts => .pure fun _ => ?_
    exact hunit hstmts (by omega)
  | whileLoop guard body =>
    have he := he.operation rfl rfl
    refine .bind (h.expr hctx (he.child List.mem_cons_self rfl)) fun d _ htest =>
      .bind (.mono (h.stmts hctx trivial (he.child (by simp [Ir.Expr.children]) rfl))
        (Nat.le_add_right _ _)) fun d' _ hbody => .pure fun _ => ?_
    exact hcons (Nat.zero_le _) (Once.append_iff.2 ⟨htest, hbody.once (by omega)⟩)
  | forLoop id start limit body =>
    have he := he.operation rfl rfl
    exact .bind (h.forLoop hctx (he.child List.mem_cons_self rfl)
      (he.child (by simp [Ir.Expr.children]) rfl) (he.child (by simp [Ir.Expr.children]) rfl))
        fun d _ hstmts => .pure fun _ => hunit hstmts (Nat.le_refl _)
  | tryCatch body hd fin =>
    refine .bind (h.stmts hctx hstrategy (he.child List.mem_cons_self rfl)) fun d₀ _ hblock =>
      .bind (.mono (h.handler hctx hstrategy fun hdl hmem => he.child ?_ rfl)
        (Nat.le_add_right _ _)) fun d _ hhandler =>
      .bind (.mono (h.finalizer hctx fun e hmem => he.closedPart ?_) (by omega))
        fun d' _ hfinalizer => .pure fun _ => .single (Nat.zero_le _) ?_
    · obtain rfl := Option.mem_def.1 hmem
      simp [Ir.Expr.children]
    · obtain rfl := Option.mem_def.1 hmem
      simp [Ir.Expr.closedParts]
    · exact Once.append_iff.2 ⟨Once.append_iff.2 ⟨hblock.once (by omega), hhandler⟩, hfinalizer⟩
  | throw error =>
    cases error with
    | some error =>
      exact .bind (h.expr hctx (he.closedPart List.mem_cons_self)) fun _ _ hvalue =>
        .pure fun _ => .single (Nat.zero_le _) hvalue
    | none =>
      exact .bind (.of_below .caught) fun _ _ _ => .bind (.ofOption _ _) fun _ _ _ =>
        .pure fun _ => .single (Nat.zero_le _) .nil
  | debugger =>
    exact .pure fun _ => hcons (Nat.zero_le _) .nil
  | emit template args isStatement =>
    cases isStatement with
    | true =>
      exact .bind (h.exprs hctx fun _ hmem => he.closedPart hmem) fun _ _ hargs =>
        .pure fun _ => hcons (Nat.zero_le _) hargs
    | false => exact h.delivered hctx hstrategy (he.operation rfl rfl)
  | literal | option | aggregate | ident | imported | lambda | delegate | object | apply | unary
  | binary | logical | get | getIndex | test | curry =>
    exact h.delivered hctx hstrategy (he.operation rfl rfl)

end Parts.KeepsBlocks

/-! ## The rules -/

/-- The blocks of what the rules lower to declare a name once at most, if there is room for it. -/
theorem rules_keepBlocks (load : String → List String) (x : String) (n : Nat) :
    (rules n).KeepsBlocks load x := by
  induction n with
  | zero => exact ⟨fun _ _ => .fail _, fun _ _ _ => .fail _⟩
  | succ n ih => exact ⟨ih.exprRule, ih.stmtsRule⟩

/-! ## Declarations -/

variable {ctx : Context}

/-- In a function, each block declares the name once at most. -/
theorem lowerFunction_adds {name : Option String} {params : List Ir.Ident} {body : Ir.Expr}
    (hctx : Bounded load x ctx.file ctx.targets) (hbody : body.Closed) :
    Adds x ((params.map (·.name)).count x + body.weight load x) (lowerFunction ctx name params body)
      fun _ f => Once x (blocks f.2) :=
  (rules_keepBlocks load x _).function hctx hbody (Nat.le_refl _)

/-- In methods, each block declares the name once at most. -/
theorem lowerMethods_adds {ms : List Ir.Member} (hctx : Bounded load x ctx.file ctx.targets)
    (hms : ∀ m ∈ ms, m.body.Closed) :
    Adds x ((ms.flatMap (Ir.Member.binders load)).count x) (lowerMethods ctx ms) fun _ code =>
      Once x (methodBlocks code) := by
  induction ms with
  | nil => exact .pure fun _ => .nil
  | cons m ms ih =>
    obtain ⟨hm, hms⟩ := List.forall_mem_cons.1 hms
    rw [List.flatMap_cons, List.count_append, Ir.Member.binders, List.count_append]
    exact .bind (.mono (lowerFunction_adds hctx hm) (Nat.le_add_right _ _)) fun d _ hf =>
      .bind (.mono (ih hms) (by omega)) fun _ _ hrest => .pure fun _ =>
        Once.append_iff.2 ⟨hf, hrest⟩

/-- In a constructor, each block declares the name once at most. -/
theorem lowerConstructor_adds {entity : Entity} {constructor : Option Ir.Member}
    (hctx : Bounded load x ctx.file ctx.targets) (hbody : ∀ m ∈ constructor, m.body.Closed) :
    Adds x ((constructor.toList.flatMap (Ir.Member.binders load)).count x)
      (lowerConstructor ctx entity constructor) fun _ code => Once x (methodBlocks code) := by
  have hfields : ∀ fields, Once x (methodBlocks [fieldConstructor fields]) := by
    intro fields
    have hbody : DeclaresAtMost x 0 (fields.map fieldAssignment) := by
      induction fields with
      | nil => exact .nil
      | cons field fields ih => exact (DeclaresAtMost.single (n := 0) (Nat.le_refl _) .nil).cons ih
    exact Once.append_iff.2 ⟨hbody.once (Nat.zero_le _), .nil⟩
  unfold lowerConstructor
  split
  · exact .pure fun _ => hfields _
  · exact .pure fun _ => hfields _
  · cases constructor with
    | none => exact .pure fun _ => .nil
    | some m =>
      rw [Option.toList_some, List.flatMap_singleton, Ir.Member.binders, List.count_append]
      exact .bind (lowerFunction_adds hctx (hbody m rfl)) fun _ _ hf =>
        .pure fun _ => Once.append_iff.2 ⟨hf, .nil⟩

/-- An exported statement declares the same. -/
theorem blocks_exportIf (isPublic : Bool) (s : Stmt) :
    (Stmt.exportIf isPublic s).blocks = s.blocks ∧
      (Stmt.exportIf isPublic s).introduced = s.introduced := by
  cases isPublic <;> exact ⟨rfl, rfl⟩

/-- In a class, each block declares the name once at most. -/
theorem lowerClass_adds {decl : Ir.ClassDecl} (hctx : Bounded load x ctx.file ctx.targets)
    (hbodies : ∀ e ∈ (Ir.Leaf.classDecl decl).bodies, e.Closed) :
    Adds x (((Ir.Leaf.classDecl decl).binders load).count x) (lowerClass ctx decl) fun _ stmt =>
      Once x stmt.blocks ∧ stmt.introduced = [decl.name] := by
  have hconstructor : ∀ m ∈ decl.constructor, m.body.Closed := fun m hm =>
    hbodies _ (List.mem_append_left _ (List.mem_map_of_mem (Option.mem_toList.2 hm)))
  have hmethods : ∀ m ∈ decl.members, m.body.Closed := fun m hm =>
    hbodies _ (List.mem_append_right _ (List.mem_map_of_mem hm))
  have happend : ∀ as bs, methodBlocks (as ++ bs) = methodBlocks as ++ methodBlocks bs := by
    intro as bs
    induction as with
    | nil => rfl
    | cons a as ih =>
      obtain ⟨_, _, _, func⟩ := a
      rw [List.cons_append, methodBlocks, methodBlocks, ih, List.append_assoc]
  rw [Ir.Leaf.binders, List.flatMap_append, List.count_append]
  refine .bind (.ofOption _ _) fun _ entity _ =>
    .bind (.mono (lowerConstructor_adds hctx hconstructor) (by omega)) fun _ _ hfirst =>
    .bind (.mono (lowerMethods_adds hctx hmethods) (by omega)) fun _ _ hrest => .pure fun _ => ?_
  have hmembers := Once.append_iff.2 ⟨hfirst, hrest⟩
  rw [← happend] at hmembers
  rw [(blocks_exportIf _ _).1, (blocks_exportIf _ _).2]
  exact ⟨hmembers, rfl⟩

/-- In a member of a file, each block declares the name once at most. -/
theorem lowerMember_adds {m : Ir.Member} (hctx : Bounded load x ctx.file ctx.targets)
    (hbody : m.body.Closed) :
    Adds x ((m.binders load).count x) (lowerMember ctx m) fun _ stmt =>
      Once x stmt.blocks ∧ stmt.introduced = [m.name] := by
  rw [Ir.Member.binders, List.count_append]
  refine .ite (fun _ => .bind (.mono ((rules_keepBlocks load x _).expr hctx
    (.of_closed hbody (Nat.le_refl _))) (Nat.le_add_left _ _)) fun _ _ hvalue => .pure fun _ => ?_)
    fun _ => .bind (lowerFunction_adds hctx hbody) fun _ _ hf => .pure fun _ => ?_
  · rw [(blocks_exportIf _ _).1, (blocks_exportIf _ _).2, Stmt.withLoc]
    split <;> exact ⟨Once.append_iff.2 ⟨hvalue, .nil⟩, rfl⟩
  · rw [(blocks_exportIf _ _).1, (blocks_exportIf _ _).2]
    exact ⟨hf, rfl⟩

/-- A function, a value or a class is the one thing that its statement declares. An action declares
a variable once at most, and none of the names that the file had from the start. -/
theorem lowerLeaf_declaresAtMost {file : SourceFile} {leaf : Ir.Leaf} {s t : LowerState}
    {stmts : List Stmt} {roots : List String} (h : lowerLeaf file leaf s = (.ok stmts, t))
    (hfile : Bounded load x file []) (hroots : x ∈ roots → x ∈ s.names.root)
    (hbodies : ∀ e ∈ leaf.bodies, e.Closed) (hcount : (leaf.binders load).count x ≤ 1)
    (hbinders : x ∈ leaf.binders load → x ∈ leaf.used ∧ x ∉ roots) :
    DeclaresAtMost x (leaf.declared.count x + if x ∈ roots then 0 else leaf.isAction.toNat)
      stmts := by
  have hused : 0 < (leaf.binders load).count x → x ∈ leaf.used := fun hpos =>
    (hbinders (List.count_pos_iff.1 hpos)).1
  cases leaf with
  | action a =>
    have hbody : a.body.Closed := hbodies a.body List.mem_cons_self
    have hadds : Adds x ((a.body.binders load).count x)
        (lowerStmts (.ofFile file) .effect a.body) fun d stmts =>
          DeclaresAtMost x ((a.body.binders load).count x + d) stmts :=
      (rules_keepBlocks load x _).stmts hfile trivial (.of_closed hbody (Nat.le_refl _))
    obtain ⟨d, hd, hroot, hstmts⟩ := hadds.inDeclaration h hcount hused
    refine hstmts.mono ?_
    split
    · rename_i hx
      have hzero := List.count_eq_zero_of_not_mem fun hmem => (hbinders hmem).2 hx
      exact Nat.add_le_add (Nat.le_of_eq hzero) (Nat.le_of_eq (hroot (hroots hx)))
    · exact hd.trans (Nat.le_add_left _ _)
  | member m =>
    have hadds : Adds x ((m.binders load).count x)
        (do return [← lowerMember (.ofFile file) m]) fun _ stmts =>
          DeclaresAtMost x ([m.name].count x) stmts :=
      .bind (lowerMember_adds hfile (hbodies m.body List.mem_cons_self)) fun _ _ hstmt =>
        .pure fun _ => .single (Nat.le_of_eq (congrArg _ hstmt.2)) hstmt.1
    obtain ⟨_, -, -, hstmts⟩ := hadds.inDeclaration h hcount hused
    exact hstmts.mono (Nat.le_add_right _ _)
  | classDecl c =>
    have hadds : Adds x (((Ir.Leaf.classDecl c).binders load).count x)
        (do return [← lowerClass (.ofFile file) c]) fun _ stmts =>
          DeclaresAtMost x ([c.name].count x) stmts :=
      .bind (lowerClass_adds hfile hbodies) fun _ _ hstmt =>
        .pure fun _ => .single (Nat.le_of_eq (congrArg _ hstmt.2)) hstmt.1
    obtain ⟨_, -, -, hstmts⟩ := hadds.inDeclaration h hcount hused
    exact hstmts.mono (Nat.le_add_right _ _)

end TypedLowering.JavaScript
