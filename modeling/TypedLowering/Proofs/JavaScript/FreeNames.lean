import TypedLowering.Proofs.JavaScript.Blocks
import TypedLowering.Proofs.Lowering.Absence

/-!
# Free names of lowered JavaScript

A name is free in code where it occurs with no declaration of it in a block or a function around
(`Lacks`). If parts are lowered to code that lacks a name to which the source does not refer
(`Parts.Omits`), then so does a rule that has such parts (`rules_omit`). There is one lemma for each
rule.
-/

namespace TypedLowering.JavaScript

open Ir.Expr (not_dangles_child not_dangles_finalizer not_dangles_forLoop not_dangles_functionBody
  not_dangles_handler not_dangles_part)
open Lower (Without)

mutual

/-- Whether a name is not free in an expression. -/
def Expr.Lacks (x : String) : Expr → Prop
  | ⟨_, form⟩ => form.Lacks x

/-- The name is not free in the form of an expression. -/
def ExprForm.Lacks (x : String) : ExprForm → Prop
  | .ident name => name ≠ x
  | .this | .literal _ => True
  | .array items | .sequence items | .emit _ items => LacksItems x items
  | .object members => LacksMembers x members
  | .unary _ operand | .spread operand | .member operand _ => operand.Lacks x
  | .binary _ left right | .index left right => left.Lacks x ∧ right.Lacks x
  | .conditional test thenExpr elseExpr => test.Lacks x ∧ thenExpr.Lacks x ∧ elseExpr.Lacks x
  | .call callee args | .construct callee args => callee.Lacks x ∧ LacksItems x args
  | .function func => func.Lacks x

/-- The name is free in no expression of a list. -/
def LacksItems (x : String) : List Expr → Prop
  | [] => True
  | e :: es => e.Lacks x ∧ LacksItems x es

/-- The name is free in no member of an object. -/
def LacksMembers (x : String) : List ObjectMember → Prop
  | [] => True
  | ⟨_, value⟩ :: rest => value.Lacks x ∧ LacksMembers x rest

/-- The name is not free in the value or the function of a member. -/
def MemberValue.Lacks (x : String) : MemberValue → Prop
  | .value value => value.Lacks x
  | .method func | .getter func | .setter func => func.Lacks x

/-- The name of a function and its parameters are bound in it. -/
def Func.Lacks (x : String) : Func → Prop
  | ⟨name, _, params, body⟩ => x ∈ name ∨ x ∈ params.map (·.name) ∨ body.Lacks x

/-- A block declares the name or lacks it; a value lacks it. -/
def FuncBody.Lacks (x : String) : FuncBody → Prop
  | .block stmts => x ∈ introduced stmts ∨ LacksStmts x stmts
  | .value value => value.Lacks x

/-- Whether a name is not free in a statement. -/
def Stmt.Lacks (x : String) : Stmt → Prop
  | ⟨_, form⟩ => form.Lacks x

/-- The name is not free in the form of a statement; a block may declare it. -/
def StmtForm.Lacks (x : String) : StmtForm → Prop
  | .expr e | .throw e => e.Lacks x
  | .block stmts => x ∈ introduced stmts ∨ LacksStmts x stmts
  | .declare ⟨_, declarators⟩ => LacksDeclarators x declarators
  | .ifElse test thenStmts elseStmts =>
    test.Lacks x ∧ (x ∈ introduced thenStmts ∨ LacksStmts x thenStmts) ∧
      (x ∈ introduced elseStmts ∨ LacksStmts x elseStmts)
  | .whileLoop test body => test.Lacks x ∧ (x ∈ introduced body ∨ LacksStmts x body)
  | .forLoop start test update body =>
    x ∈ start.toList.flatMap (·.declarators.map (·.name)) ∨
      LacksStart x start ∧ LacksOption x test ∧ LacksOption x update ∧
        (x ∈ introduced body ∨ LacksStmts x body)
  | .ret value => LacksOption x value
  | .breakTo _ | .continueTo _ | .debugger => True
  | .labeled _ body | .exported body => body.Lacks x
  | .tryCatch block handler finalizer =>
    (x ∈ introduced block ∨ LacksStmts x block) ∧ LacksHandler x handler ∧
      LacksFinalizer x finalizer
  | .switch subject cases =>
    -- The cases of a switch are one block.
    subject.Lacks x ∧ (x ∈ cases.flatMap (introduced ·.body) ∨ LacksCases x cases)
  | .function func => func.Lacks x
  | .classDecl ⟨_, base, members⟩ => LacksOption x base ∧ LacksMethods x members

/-- The name is free in no statement, whatever these declare. -/
def LacksStmts (x : String) : List Stmt → Prop
  | [] => True
  | s :: ss => s.Lacks x ∧ LacksStmts x ss

/-- The name is not free in an expression that may be missing. -/
def LacksOption (x : String) : Option Expr → Prop
  | none => True
  | some e => e.Lacks x

/-- The name is free in no value that is declared. -/
def LacksDeclarators (x : String) : List Declarator → Prop
  | [] => True
  | ⟨_, value⟩ :: rest => LacksOption x value ∧ LacksDeclarators x rest

/-- The name is not free in the head of a loop. -/
def LacksStart (x : String) : Option VarDecl → Prop
  | none => True
  | some ⟨_, declarators⟩ => LacksDeclarators x declarators

/-- A handler binds the name, or its body lacks it. -/
def LacksHandler (x : String) : Option CatchClause → Prop
  | none => True
  | some ⟨param, body⟩ => x ∈ param ∨ x ∈ introduced body ∨ LacksStmts x body

/-- A finalizer declares the name or lacks it. -/
def LacksFinalizer (x : String) : Option (List Stmt) → Prop
  | none => True
  | some stmts => x ∈ introduced stmts ∨ LacksStmts x stmts

/-- The name is free in no test and no body of a case. -/
def LacksCases (x : String) : List SwitchCase → Prop
  | [] => True
  | ⟨test, body⟩ :: rest => LacksOption x test ∧ LacksStmts x body ∧ LacksCases x rest

/-- The name is free in no method. -/
def LacksMethods (x : String) : List ClassMember → Prop
  | [] => True
  | ⟨_, _, _, func⟩ :: rest => func.Lacks x ∧ LacksMethods x rest

end

/-- Whether a name is not free in the statements of a block. -/
def LacksBlock (x : String) (stmts : List Stmt) : Prop :=
  x ∈ introduced stmts ∨ LacksStmts x stmts

variable {x : String} {as bs stmts : List Stmt}

/-- Two parts of a block declare what each of them does. -/
theorem introduced_append (as bs : List Stmt) :
    introduced (as ++ bs) = introduced as ++ introduced bs :=
  List.flatMap_append

/-- What a list of identifiers binds is introduced where the first one and the others are. -/
theorem mem_introduced_cons {id : Ir.Ident} {ids : List Ir.Ident}
    (has : x ∈ keptNames [id] → x ∈ introduced as) (hbs : x ∈ keptNames ids → x ∈ introduced bs)
    (hx : x ∈ keptNames (id :: ids)) : x ∈ introduced (as ++ bs) := by
  rw [introduced_append]
  rcases List.mem_append.1 (keptNames_cons id ids ▸ hx) with hx | hx
  · exact List.mem_append_left _ (has hx)
  · exact List.mem_append_right _ (hbs hx)

/-- The name is not free in two parts if it is in neither. -/
theorem lacksStmts_append : LacksStmts x (as ++ bs) ↔ LacksStmts x as ∧ LacksStmts x bs := by
  induction as with
  | nil => exact ⟨fun h => ⟨trivial, h⟩, And.right⟩
  | cons a as ih => rw [List.cons_append, LacksStmts, ih, LacksStmts, and_assoc]

namespace LacksBlock

/-- What one part of a block introduces is bound in all of it. -/
theorem left (h : x ∈ introduced as) (bs : List Stmt) : LacksBlock x (as ++ bs) :=
  .inl (introduced_append as bs ▸ List.mem_append_left _ h)

/-- A block lacks the name if a later statement declares it. -/
theorem right (as : List Stmt) (h : x ∈ introduced bs) : LacksBlock x (as ++ bs) :=
  .inl (introduced_append as bs ▸ List.mem_append_right _ h)

/-- The empty block lacks every name. -/
theorem nil : LacksBlock x [] :=
  .inr trivial

/-- A block of two parts lacks the name if both do. -/
theorem append (has : LacksBlock x as) (hbs : LacksBlock x bs) : LacksBlock x (as ++ bs) := by
  rcases has with has | has
  · exact left has bs
  rcases hbs with hbs | hbs
  · exact right as hbs
  · exact .inr (lacksStmts_append.2 ⟨has, hbs⟩)

/-- A statement that lacks the name is a block that does. -/
theorem single {s : Stmt} (h : s.Lacks x) : LacksBlock x [s] :=
  .inr ⟨h, trivial⟩

/-- A statement that lacks the name may stand before a block that does. -/
theorem cons {s : Stmt} (h : s.Lacks x) (hs : LacksBlock x stmts) : LacksBlock x (s :: stmts) :=
  (single h).append hs

/-- A declaration, and what comes after it. -/
theorem declare (mode : DeclMode) (name : String) (value : Option Expr)
    (hvalue : LacksOption x value) (h : name ≠ x → LacksBlock x stmts) :
    LacksBlock x (.declare mode name value :: stmts) := by
  by_cases hname : name = x
  · exact .inl (hname ▸ List.mem_cons_self)
  · exact cons ⟨hvalue, trivial⟩ (h hname)

end LacksBlock

/-- A location does not add names. -/
theorem lacks_withLoc {e : Expr} (h : e.Lacks x) (loc : Option Ir.Location) :
    (e.withLoc loc).Lacks x := by
  obtain ⟨_, form⟩ := e
  rw [Expr.withLoc]
  split <;> exact h

/-- A value is put in its place by code that lacks the name. -/
theorem lacks_deliver {ctx : Context} {strategy : Strategy Expr} {looped : Bool} {e : Ir.Expr}
    {value : Expr} (hspares : Spares x (Expr.Lacks x) ctx strategy looped e)
    (hvalue : value.Lacks x) : LacksBlock x (deliver strategy value) := by
  cases strategy with
  | ret | effect => exact .single hvalue
  | assign place => exact .single ⟨hspares.place place rfl, hvalue⟩
  | join name => exact .single ⟨(hspares.join name rfl).1, hvalue⟩

/-- The end of a node without a value has no names. -/
theorem lacks_deliverUnit (strategy : Strategy Expr) : LacksBlock x (deliverUnit strategy) := by
  cases strategy with
  | ret => exact .single trivial
  | effect | assign | join => exact .nil

/-- A comma expression lacks the name if its items do. -/
theorem lacks_sequenceOf {items : List Expr} (h : LacksItems x items) :
    (sequenceOf items).Lacks x := by
  rcases items with _ | ⟨item, _ | _⟩
  · exact trivial
  · exact h.1
  · exact h

/-- What is read from an object lacks the name if the object does. -/
theorem lacks_access {obj : Expr} (h : obj.Lacks x) (kind : Ir.Access) :
    (Parts.access obj kind).Lacks x := by
  cases kind with
  | field | unionTag | optionValue => exact h
  | tupleItem | unionField => exact ⟨h, trivial⟩

/-- Whether a name to which nodes do not refer is not free in what they are lowered to. -/
structure Parts.Omits (x : String) (r : Parts) : Prop where
  expr : ∀ {ctx} e, Unnamed x ctx → Without x (r.expr ctx e) fun _ code =>
    ¬ e.Dangles x ctx.targets → code.Lacks x
  stmts : ∀ {ctx} strategy e, Unnamed x ctx → Without x (r.stmts ctx strategy e) fun looped code =>
    ¬ e.Dangles x ctx.targets → Spares x (Expr.Lacks x) ctx strategy looped e → LacksBlock x code

/-- The name of a helper is another one. -/
theorem helper_without (ctx : Context) (selector : String) :
    Without x (helper ctx selector) fun _ y => y ≠ x :=
  .importMember _ _

/-- The name of a class is another one. -/
theorem className_without {ctx : Context} (hctx : Unnamed x ctx) (entity : String) :
    Without x (className ctx entity) fun _ y => y ≠ x :=
  .imp (.ofOption _ _) fun _ y hy => by
    obtain ⟨e, he, rfl⟩ := Option.map_eq_some_iff.1 hy
    exact hctx.entities entity e he

namespace Parts.Omits

variable {r : Parts} (h : r.Omits x) {ctx : Context} (hctx : Unnamed x ctx)
include h hctx

/-- Expressions in a row lack the name if their parts do. -/
theorem exprs (es : List Ir.Expr) : Without x (r.exprs ctx es) fun _ items =>
    (∀ e ∈ es, ¬ e.Dangles x ctx.targets) → LacksItems x items := by
  induction es with
  | nil => exact .pure fun _ _ => trivial
  | cons e es ih =>
    refine .bind (h.expr e hctx) fun _ => .bind ih fun _ => .pure fun _ hrest hfirst hes => ?_
    obtain ⟨he, hes⟩ := List.forall_mem_cons.1 hes
    exact ⟨hfirst he, hrest hes⟩

/-- The code that delivers a value lacks the name if the place and the node do. -/
theorem delivered (strategy : Strategy Expr) (e : Ir.Expr) :
    Without x (r.delivered ctx strategy e) fun looped code => ¬ e.Dangles x ctx.targets →
      Spares x (Expr.Lacks x) ctx strategy looped e → LacksBlock x code :=
  .bind (h.expr e hctx.withoutTailCall) fun _ => .pure fun _ hvalue he hspares =>
    lacks_deliver hspares (hvalue he)

/-- What is declared is introduced. -/
theorem declare (id : Ir.Ident) (e : Ir.Expr) : Without x (r.declare ctx id e) fun _ code =>
    (x ∈ keptNames [id] → x ∈ introduced code) ∧
      (¬ e.Dangles x ctx.targets → LacksBlock x code) := by
  have hplain := hctx.withoutTailCall
  refine .ite (fun hunit => .imp (h.stmts .effect e hplain) fun _ _ hstmts => ⟨fun hx => ?_,
    fun he => hstmts he .effect⟩) fun _ => .bind (.isStatement _ _ _) fun _ => .ite (fun _ => ?_)
      fun _ => ?_
  · rw [(of_mem_keptNames_singleton hx).2] at hunit
    cases hunit
  · refine .bind (h.stmts (.assign (.ident id.name)) e hplain) fun _ => .pure fun _ hstmts _ =>
      ⟨fun hx => (of_mem_keptNames_singleton hx).1 ▸ List.mem_cons_self, fun he => ?_⟩
    exact .declare _ _ _ trivial fun hne => hstmts he (.assign hne)
  · refine .bind (h.expr e hplain) fun _ => .pure fun _ hvalue _ =>
      ⟨fun hx => (of_mem_keptNames_singleton hx).1 ▸ List.mem_cons_self, fun he => ?_⟩
    exact .declare _ _ _ (hvalue he) fun _ => .nil

/-- An arrow function that is called at once lacks the name if its parts do. -/
theorem invoked (e : Ir.Expr) : Without x (r.invoked ctx e) fun _ code =>
    ¬ e.Dangles x ctx.targets → code.Lacks x :=
  .bind (h.stmts _ e hctx.withoutTailCall) fun _ => .pure fun _ hbody he =>
    ⟨.inr (.inr (hbody he (.ofType _ fun _ _ => nofun))), trivial⟩

omit h hctx in

/-- The body of an arrow function lacks the name if its statements do. -/
theorem lacks_arrowBody (hstmts : LacksBlock x stmts) : (arrowBody stmts).Lacks x := by
  unfold arrowBody
  split
  · exact (hstmts.resolve_left List.not_mem_nil).1
  · exact hstmts

/-- A closure lacks the name if it binds it or its body does not refer to it. -/
theorem closure (params : List Ir.Ident) (body : Ir.Expr) :
    Without x (r.closure ctx params body) fun _ code =>
      (x ∉ keptParams params → ¬ body.Dangles x ctx.targets) → code.Lacks x := by
  refine .bind (h.stmts _ body hctx.withoutTailCall) fun _ => .pure fun _ hstmts hbody => ?_
  by_cases hx : x ∈ keptParams params
  · refine .inr (.inl ?_)
    rw [List.map_map]
    exact keptParams_subset params hx
  · exact .inr (.inr (lacks_arrowBody (hstmts (hbody hx) (.ofType _ fun _ _ => nofun))))

omit h hctx in
/-- An iteration begins with copies of the slots, which introduce the parameters. -/
theorem lacks_loopBody {loop : TailCall} (isUnit : Bool) {body : List Stmt}
    (hlength : loop.params.length = loop.slots.length) (hslots : x ∉ loop.slots)
    (hbody : x ∉ loop.params.map (·.name) → LacksBlock x body) :
    LacksBlock x (loopBody loop (.ofType isUnit) body) := by
  have hcopies : ∀ rest, (x ∉ loop.params.map (·.name) → LacksBlock x rest) →
      LacksBlock x ((loop.bindings.map fun b =>
        .declare .const b.1.name (some (.ident b.2))) ++ rest) := by
    have hparams : loop.bindings.map (·.1) = loop.params := List.map_fst_zip hlength.le
    have hmem : ∀ b ∈ loop.bindings, b.2 ∈ loop.slots := fun b hb => (List.of_mem_zip hb).2
    rw [← hparams]
    generalize loop.bindings = bindings at hmem
    induction bindings with
    | nil => exact fun _ hrest => hrest List.not_mem_nil
    | cons b bindings ih =>
      obtain ⟨hb, hmem⟩ := List.forall_mem_cons.1 hmem
      refine fun rest hrest => .declare _ _ _ (fun heq => hslots (heq ▸ hb)) fun hne => ?_
      exact ih hmem rest fun hx => hrest fun hx' =>
        (List.mem_cons.1 hx').elim (fun heq => hne heq.symm) hx
  have hexit : LacksBlock x (if (Strategy.ofType isUnit : Strategy Expr).isEffect
      then [.of (.breakTo none)] else []) := by
    split
    · exact .single trivial
    · exact .nil
  refine .single ⟨trivial, ?_⟩
  rw [List.append_assoc]
  exact hcopies _ fun hx => (hbody hx).append hexit

/-- The parameters of a function are bound in its body, and so are the slots if they are the
parameters. -/
theorem function (name : Option String) (params : List Ir.Ident) (body : Ir.Expr) :
    Without x (r.function ctx name params body) fun _ f =>
      (x ∉ keptParams params → ¬ body.Dangles x ctx.targets) →
        x ∈ f.1.map (·.name) ∨ LacksBlock x f.2 := by
  have hplain : ∀ {code : List Stmt},
      (x ∉ keptParams params → ¬ body.Dangles x ctx.targets) →
      (¬ body.Dangles x ctx.targets → LacksBlock x code) →
      x ∈ ((declaredParams params).map fun p => (⟨p.name, false⟩ : Param)).map (·.name) ∨
        LacksBlock x code := by
    intro code hbody hcode
    by_cases hx : x ∈ keptParams params
    · rw [List.map_map]
      exact .inl (keptParams_subset params hx)
    · exact .inr (hcode (hbody hx))
  unfold Parts.function
  dsimp only
  split
  · refine .bind (.allocateTailCall _ _) fun loop =>
      .bind (.inFunction (h.stmts (.ofType body.type.isUnit) body (hctx.withTailCall loop)))
        fun inner => .ite (fun hlooped => .pure fun _ hinner hloop hbody => ?_) fun hlooped =>
          .pure fun _ hinner _ hbody => ?_
    · obtain ⟨hparams, hlength⟩ := hloop
      by_cases hslots : x ∈ loop.slots
      · refine .inl ?_
        rw [List.map_map]
        exact (List.map_snd_zip hlength.ge).symm ▸ hslots
      · refine .inr (lacks_loopBody _ hlength hslots fun hx => ?_)
        have hx : x ∉ keptParams params := by rwa [keptParams, ← hparams]
        refine hinner (hbody hx) (.ofType _ fun _ l hl => ?_)
        exact Option.some.inj hl ▸ hslots
    · exact hplain hbody fun he => hinner he (.ofType _ fun htrue => absurd htrue hlooped)
  · exact .bind (h.stmts _ body hctx.withoutTailCall) fun _ => .pure fun _ hstmts hbody =>
      hplain hbody fun he => hstmts he (.ofType _ fun _ _ => nofun)

/-- A function is introduced where it is declared. -/
theorem localFunction (id : Ir.Ident) (params : List Ir.Ident) (body : Ir.Expr) :
    Without x (r.localFunction ctx id params body) fun _ stmt =>
      (x ∈ keptNames [id] → x ∈ introduced [stmt]) ∧
        ((x ∉ keptParams params → ¬ body.Dangles x ctx.targets) → stmt.Lacks x) :=
  .bind (h.function hctx _ _ _) fun _ => .pure fun _ hf =>
    ⟨fun hx => (of_mem_keptNames_singleton hx).1 ▸ List.mem_cons_self, fun hbody => .inr (hf hbody)⟩

/-! ## Expressions -/

/-- A property list lacks the name if its parts do. -/
theorem properties (keys : List String) (values : List Ir.Expr) :
    Without x (r.properties ctx keys values) fun _ members =>
      (∀ e ∈ values, ¬ e.Dangles x ctx.targets) → LacksMembers x members := by
  induction keys generalizing values with
  | nil => exact .pure fun _ _ => trivial
  | cons key keys ih =>
    cases values with
    | nil => exact .pure fun _ _ => trivial
    | cons value values =>
      refine .bind (h.expr value hctx) fun _ => .bind (ih values) fun _ => .pure ?_
      intro _ hrest hfirst hvalues
      obtain ⟨hvalue, hvalues⟩ := List.forall_mem_cons.1 hvalues
      exact ⟨hfirst hvalue, hrest hvalues⟩

/-- An array, a tuple, a record or a case of a union lacks the name if its parts do. -/
theorem aggregate (kind : Ir.Aggregate) (values : List Ir.Expr) :
    Without x (r.aggregate ctx kind values) fun _ code =>
      (∀ e ∈ values, ¬ e.Dangles x ctx.targets) → code.Lacks x := by
  cases kind with
  | array | tuple =>
    exact .bind (h.exprs hctx values) fun _ => .pure fun _ hitems hvalues => hitems hvalues
  | record entity =>
    exact .bind (className_without hctx entity) fun _ => .bind (h.exprs hctx values) fun _ =>
      .pure fun _ hitems hname hvalues => ⟨hname, hitems hvalues⟩
  | anonymous =>
    exact .bind (h.properties hctx _ values) fun _ => .pure fun _ hmembers hvalues =>
      hmembers hvalues
  | union _ entity =>
    exact .bind (h.exprs hctx values) fun _ => .bind (className_without hctx entity) fun _ =>
      .pure fun _ hname hitems hvalues => ⟨hname, trivial, hitems hvalues, trivial⟩

/-- A member of an object lacks the name if its parts do. -/
theorem objectMember (m : Ir.ObjectMember) : Without x (r.objectMember ctx m) fun _ code =>
    (x ∉ m.keptParams → ¬ m.body.Dangles x ctx.targets) → code.value.Lacks x := by
  unfold Parts.objectMember Ir.ObjectMember.keptParams
  cases m.kind with
  | value =>
    exact .bind (h.expr m.body hctx) fun _ => .pure fun _ hvalue hbody =>
      hvalue (hbody List.not_mem_nil)
  | method | getter | setter =>
    exact .bind (h.function hctx _ m.args m.body) fun _ => .pure fun _ hf hbody => .inr (hf hbody)

/-- The members of an object lack the name if their parts do. -/
theorem objectMembers (ms : List Ir.ObjectMember) :
    Without x (r.objectMembers ctx ms) fun _ members =>
      (∀ m ∈ ms, x ∉ m.keptParams → ¬ m.body.Dangles x ctx.targets) → LacksMembers x members := by
  induction ms with
  | nil => exact .pure fun _ _ => trivial
  | cons m ms ih =>
    refine .bind (h.objectMember hctx m) fun ⟨_, _⟩ => .bind ih fun _ => .pure ?_
    intro _ hrest hfirst hms
    obtain ⟨hm, hms⟩ := List.forall_mem_cons.1 hms
    exact ⟨hfirst hm, hrest hms⟩

/-- A call lacks the name if its parts do. -/
theorem call (callee : Ir.Expr) (receiver : Option Ir.Expr) (args : List Ir.Expr) (isNew : Bool) :
    Without x (r.call ctx callee receiver args isNew) fun _ code =>
      (∀ e ∈ callee :: (receiver.toList ++ args), ¬ e.Dangles x ctx.targets) → code.Lacks x := by
  refine .bind (h.expr callee hctx) fun _ => .bind (h.exprs hctx _) fun _ => .pure ?_
  intro _ hitems hf hparts
  obtain ⟨hcallee, hargs⟩ := List.forall_mem_cons.1 hparts
  have hkept := (discardUnitArg_sublist args).append_left receiver.toList
  have hvalues : ∀ e ∈ receiver.toList ++ discardUnitArg args, ¬ e.Dangles x ctx.targets :=
    fun e he => hargs e (hkept.subset he)
  cases isNew <;> exact ⟨hf hcallee, hitems hvalues⟩

/-- An application to curried arguments lacks the name if its parts do. -/
theorem applied (f : Expr) (args : List Ir.Expr) : Without x (r.applied ctx f args) fun _ code =>
    f.Lacks x → (∀ e ∈ args, ¬ e.Dangles x ctx.targets) → code.Lacks x := by
  induction args generalizing f with
  | nil => exact .pure fun _ hf _ => hf
  | cons arg args ih =>
    refine .bind (h.expr arg hctx) fun _ => .imp (ih _) ?_
    intro _ _ hcode hvalue hf hargs
    obtain ⟨harg, hargs⟩ := List.forall_mem_cons.1 hargs
    exact hcode ⟨hf, hvalue harg, trivial⟩ hargs

/-- A binary operation lacks the name if its parts do. -/
theorem binary (op : Ir.BinaryOp) (left right : Ir.Expr) (ty : Ir.Ty) :
    Without x (r.binary ctx op left right ty) fun _ code =>
      ¬ left.Dangles x ctx.targets → ¬ right.Dangles x ctx.targets → code.Lacks x := by
  refine .bind (h.expr left hctx) fun a => .bind (h.expr right hctx) fun b => ?_
  cases op with
  | equal | notEqual =>
    exact .ite (fun _ => .pure fun _ hb ha hleft hright => ⟨ha hleft, hb hright⟩) fun _ =>
      .bind (helper_without _ _) fun _ => .pure fun _ hname hb ha hleft hright =>
        ⟨hname, ha hleft, hb hright, trivial⟩
  | divide =>
    refine .pure fun _ hb ha hleft hright => ?_
    split
    · exact ⟨⟨ha hleft, hb hright⟩, trivial⟩
    · exact ⟨ha hleft, hb hright⟩
  | _ => exact .pure fun _ hb ha hleft hright => ⟨ha hleft, hb hright⟩

/-- The place that an assignment writes to lacks the name if its parts do. -/
theorem place (target : Ir.Expr) (field : Option String) :
    Without x (r.place ctx target field) fun _ code =>
      ¬ target.Dangles x ctx.targets → code.Lacks x := by
  refine .bind (h.expr target hctx) fun _ => .pure fun _ hobj htarget => ?_
  cases field <;> exact hobj htarget

/-- The element that an assignment writes to lacks the name if its parts do. -/
theorem element (target index : Ir.Expr) : Without x (r.element ctx target index) fun _ code =>
    ¬ target.Dangles x ctx.targets → ¬ index.Dangles x ctx.targets → code.Lacks x :=
  .bind (h.expr target hctx) fun _ => .bind (h.expr index hctx) fun _ =>
    .pure fun _ hi hobj htarget hindex => ⟨hobj htarget, hi hindex⟩

omit h in

/-- A test of a value lacks the name if its parts do. -/
theorem test_without (value : Expr) (kind : Ir.TestKind) (loc : Option Ir.Location) :
    Without x (test ctx value kind loc) fun _ code => value.Lacks x → code.Lacks x := by
  cases kind with
  | option | unionCase => exact .pure fun _ hvalue => ⟨hvalue, trivial⟩
  | type ty =>
    cases ty with
    | any => exact .pure fun _ _ => trivial
    | boolean | char | string | number | lambda | delegate =>
      exact .pure fun _ hvalue => ⟨hvalue, trivial⟩
    | array | list | tuple =>
      exact .pure fun _ hvalue =>
        ⟨hctx.ne_of_mem_builtins (by simp [builtins]), hvalue, trivial⟩
    | regex =>
      exact .pure fun _ hvalue => ⟨hvalue, hctx.ne_of_mem_builtins (by simp [builtins])⟩
    | declared entity =>
      exact .bind (className_without hctx entity) fun _ => .pure fun _ hname hvalue =>
        ⟨hvalue, hname⟩
    | unit | option | param => exact .fail _

/-- A success node that is an expression has no values, so it is in the scope of nothing. -/
theorem exprCore (e : Ir.Expr) : Without x (r.exprCore ctx e) fun _ code =>
    (∀ index values ty, e = .success index values ty → values = []) → ¬ e.Dangles x ctx.targets →
      code.Lacks x := by
  cases e with
  | literal value =>
    refine .pure fun _ _ _ => ?_
    cases value <;> exact trivial
  | option value =>
    cases value with
    | none => exact .pure fun _ _ _ => trivial
    | some value =>
      exact .imp (h.expr value hctx) fun _ _ hvalue _ he =>
        hvalue (not_dangles_child he rfl List.mem_cons_self)
  | aggregate kind values =>
    exact .imp (h.aggregate hctx kind values) fun _ _ hcode _ he =>
      hcode fun _ => not_dangles_child he rfl
  | ident id =>
    refine .pure fun _ _ he => ?_
    split
    · exact trivial
    · exact fun hname => he (.ident (Bool.not_eq_true _ ▸ ‹_›) hname)
  | cast inner =>
    exact .imp (h.expr inner hctx) fun _ _ hcode _ he =>
      hcode (not_dangles_child he rfl List.mem_cons_self)
  | imported =>
    exact .bind (.of_any (.resolveImport _ _)) fun _ => .bind (.importMember _ _) fun _ =>
      .pure fun _ hname _ _ _ => hname
  | lambda arg body | delegate args body =>
    exact .imp (h.closure hctx _ body) fun _ _ hcode _ he =>
      hcode (not_dangles_part he List.mem_cons_self)
  | object members ty base =>
    refine .bind (h.objectMembers hctx members) fun _ => ?_
    have hmembers : ¬ (Ir.Expr.object members ty base).Dangles x ctx.targets →
        ∀ m ∈ members, x ∉ m.keptParams → ¬ m.body.Dangles x ctx.targets :=
      fun he m hm => not_dangles_part he (List.mem_append_left _ (List.mem_map_of_mem hm))
    cases base with
    | none => exact .pure fun _ hobj _ he => hobj (hmembers he)
    | some base =>
      refine .bind (h.expr base hctx) fun _ => .pure fun _ hbase hobj _ he => ?_
      have hpart : ¬ base.Dangles x ctx.targets :=
        not_dangles_part he (List.mem_append_right _ List.mem_cons_self) List.not_mem_nil
      exact ⟨hctx.ne_of_mem_builtins (by simp [builtins]), hbase hpart, hobj (hmembers he),
        trivial⟩
  | call callee receiver args isNew =>
    exact .imp (h.call hctx callee receiver args isNew) fun _ _ hcode _ he =>
      hcode fun _ => not_dangles_child he rfl
  | apply f args =>
    refine .bind (h.expr f hctx) fun _ => .imp (h.applied hctx _ args) ?_
    intro _ _ hcode hf _ he
    exact hcode (hf (not_dangles_child he rfl List.mem_cons_self))
      fun _ hmem => not_dangles_child he rfl (List.mem_cons_of_mem _ hmem)
  | unary op operand =>
    exact .bind (h.expr operand hctx) fun _ => .pure fun _ hvalue _ he =>
      hvalue (not_dangles_child he rfl List.mem_cons_self)
  | get obj kind =>
    exact .bind (h.expr obj hctx) fun _ => .pure fun _ hobj _ he =>
      lacks_access (hobj (not_dangles_child he rfl List.mem_cons_self)) kind
  | binary op left right =>
    exact .imp (h.binary hctx op left right _) fun _ _ hcode _ he =>
      hcode (not_dangles_child he rfl List.mem_cons_self)
        (not_dangles_child he rfl (by simp [Ir.Expr.children]))
  | logical op left right =>
    refine .bind (h.expr left hctx) fun _ => .bind (h.expr right hctx) fun _ => .pure ?_
    intro _ hb ha _ he
    exact ⟨ha (not_dangles_child he rfl List.mem_cons_self),
      hb (not_dangles_child he rfl (by simp [Ir.Expr.children]))⟩
  | emit template args =>
    exact .bind (h.exprs hctx args) fun _ => .pure fun _ hargs _ he =>
      hargs fun _ => not_dangles_child he rfl
  | sequence es =>
    exact .bind (h.exprs hctx es) fun _ => .pure fun _ hitems _ he =>
      lacks_sequenceOf (hitems fun _ => not_dangles_child he rfl)
  | getIndex obj index =>
    exact .imp (h.element hctx obj index) fun _ _ hcode _ he =>
      hcode (not_dangles_child he rfl List.mem_cons_self)
        (not_dangles_child he rfl (by simp [Ir.Expr.children]))
  | set target field value =>
    refine .bind (h.place hctx target field) fun _ => .bind (h.expr value hctx) fun _ => .pure ?_
    intro _ hvalue hplace _ he
    exact ⟨hplace (not_dangles_child he rfl List.mem_cons_self),
      hvalue (not_dangles_child he rfl (by simp [Ir.Expr.children]))⟩
  | setIndex target index value =>
    refine .bind (h.element hctx target index) fun _ => .bind (h.expr value hctx) fun _ => .pure ?_
    intro _ hvalue hplace _ he
    exact ⟨hplace (not_dangles_child he rfl List.mem_cons_self)
        (not_dangles_child he rfl (by simp [Ir.Expr.children])),
      hvalue (not_dangles_child he rfl (by simp [Ir.Expr.children]))⟩
  | test value kind =>
    refine .bind (h.expr value hctx) fun _ => .imp (test_without hctx _ kind _) ?_
    intro _ _ hcode hvalue _ he
    exact hcode (hvalue (not_dangles_child he rfl List.mem_cons_self))
  | ifThenElse guard thenExpr elseExpr =>
    refine .bind (h.expr guard hctx) fun _ => .bind (h.expr thenExpr hctx) fun _ =>
      .bind (h.expr elseExpr hctx) fun _ => .pure ?_
    intro _ helse hthen hguard _ he
    exact ⟨hguard (not_dangles_child he rfl List.mem_cons_self),
      hthen (not_dangles_child he rfl (by simp [Ir.Expr.children])),
      helse (not_dangles_child he rfl (by simp [Ir.Expr.children]))⟩
  | decisionTree dispatcher targets =>
    exact .imp (h.expr dispatcher (hctx.withTargets targets)) fun _ _ hcode _ he =>
      hcode (he ∘ .dispatcher)
  | success index =>
    refine .bind (.ofOption _ _) fun t => .imp (h.expr t.body hctx) ?_
    intro _ _ hcode ht hvalues he
    obtain rfl := hvalues _ _ _ rfl
    exact hcode (he ∘ .selected ht List.not_mem_nil)
  | curry inner =>
    refine .bind (helper_without _ _) fun _ => .bind (h.expr inner hctx) fun _ => .pure ?_
    intro _ hvalue hname _ he
    exact ⟨hname, hvalue (not_dangles_child he rfl List.mem_cons_self), trivial⟩
  | throw | debugger | letIn | letRec | whileLoop | forLoop | tryCatch =>
    exact .imp (h.invoked hctx _) fun _ _ hcode _ => hcode

omit h in

/-- The expansion of a call does not refer to the name if the call does not. -/
theorem expansion?_without (e : Ir.Expr) : Without x (expansion? ctx e) fun _ o =>
    ¬ e.Dangles x ctx.targets → ∀ expanded ∈ o, ¬ expanded.Dangles x ctx.targets := by
  unfold expansion?
  split
  · exact .imp (.expandInline hctx _ _) fun _ _ ho he =>
      ho fun _ hmem => not_dangles_child he rfl (List.mem_cons_of_mem _ hmem)
  · exact .pure fun _ _ => nofun

omit h hctx in

/-- A success node that needs no arrow function has no values. -/
theorem isInvoked_without (e : Ir.Expr) : Without x (isInvoked ctx e) fun _ invoked =>
    invoked = false → ∀ index values ty, e = .success index values ty → values = [] := by
  cases e with
  | success =>
    refine .imp (.isStatement _ _ _) fun _ _ hstatement hinvoked index values ty he => ?_
    exact values_eq_nil_of_isStatement (he ▸ hinvoked ▸ hstatement)
  | _ => exact .imp (.of_any (Deepens.below_isInvoked _ _)) fun _ _ _ _ => nofun

/-- Any node in the place of an expression lacks the name if the source does not refer to it. -/
theorem exprRule (e : Ir.Expr) : Without x (r.exprRule ctx e) fun _ code =>
    ¬ e.Dangles x ctx.targets → code.Lacks x := by
  refine .bind (expansion?_without hctx e) fun expanded => ?_
  cases expanded with
  | some expanded =>
    exact .imp (h.expr expanded hctx) fun _ _ hcode hexpanded he =>
      hcode (hexpanded he expanded rfl)
  | none =>
    refine .bind (isInvoked_without e) fun _ => .ite (fun _ => ?_) fun hinvoked => ?_
    · exact .imp (h.invoked hctx e) fun _ _ hcode _ _ => hcode
    · exact .bind (h.exprCore hctx e) fun _ => .pure fun _ hvalue hvalues _ he =>
        lacks_withLoc (hvalue (hvalues (Bool.not_eq_true _ ▸ hinvoked)) he) _

/-! ## Statements -/

/-- The writes to the slots of a loop lack the name if the slots have others. -/
theorem slotWrites (slots : List (Ir.Ident × String)) (args : List Ir.Expr) :
    Without x (r.slotWrites ctx slots args) fun _ code =>
      (∀ e ∈ args, ¬ e.Dangles x ctx.targets) → (∀ b ∈ slots, b.2 ≠ x) → LacksBlock x code := by
  induction slots generalizing args with
  | nil => exact .pure fun _ _ _ => .nil
  | cons b slots ih =>
    cases args with
    | nil => exact .pure fun _ _ _ => .nil
    | cons arg args =>
      rw [slotWrites_cons]
      refine .bind (h.expr arg hctx.withoutTailCall) fun _ => .bind (ih args) fun _ => .pure ?_
      intro _ hrest hvalue hargs hslots
      obtain ⟨harg, hargs⟩ := List.forall_mem_cons.1 hargs
      obtain ⟨hb, hslots⟩ := List.forall_mem_cons.1 hslots
      split
      · exact hrest hargs hslots
      · exact .cons ⟨hb, hvalue harg⟩ (hrest hargs hslots)

/-- A jump makes use of the loop, so its slots are to lack the name. -/
theorem tailCall (loop : TailCall) (args : List Ir.Expr) :
    Without x (r.tailCall ctx loop args) fun looped code =>
      (∀ e ∈ args, ¬ e.Dangles x ctx.targets) → (looped = true → x ∉ loop.slots) →
        LacksBlock x code := by
  refine .bind .markLooped fun _ => .bind (h.slotWrites hctx loop.bindings _) fun _ => .pure ?_
  intro _ hwrites hlooped hargs hslots
  refine .append (hwrites (fun e he => hargs e (mem_of_mem_discardUnitArg he)) ?_) (.single trivial)
  rintro b hb rfl
  exact hslots hlooped (List.of_mem_zip hb).2

/-- What a recursive let binds is introduced. -/
theorem recursive (bs : List Ir.Binding) : Without x (r.recursive ctx bs) fun _ code =>
    (x ∈ keptNames (bs.map (·.ident)) → x ∈ introduced code) ∧
      ((∀ b ∈ bs, ¬ b.value.Dangles x ctx.targets) → LacksBlock x code) := by
  induction bs with
  | nil => exact .pure fun _ => ⟨fun hx => absurd hx List.not_mem_nil, fun _ => .nil⟩
  | cons b bs ih =>
    rcases recursive_cons r ctx b bs with ⟨params, body, name, hvalue, heq⟩ | heq
    · rw [heq]
      refine .bind (h.localFunction hctx b.ident params body) fun first => .bind ih fun rest =>
        .pure ?_
      rintro _ ⟨hids, hrest⟩ ⟨hid, hfirst⟩
      refine ⟨mem_introduced_cons hid hids, fun hbs => ?_⟩
      obtain ⟨hb, hbs⟩ := List.forall_mem_cons.1 hbs
      exact .cons (hfirst (not_dangles_functionBody hb hvalue)) (hrest hbs)
    · rw [heq]
      refine .bind (h.declare hctx b.ident b.value) fun first => .bind ih fun rest => .pure ?_
      rintro _ ⟨hids, hrest⟩ ⟨hid, hfirst⟩
      refine ⟨mem_introduced_cons hid hids, fun hbs => ?_⟩
      obtain ⟨hb, hbs⟩ := List.forall_mem_cons.1 hbs
      exact .append (hfirst hb) (hrest hbs)

/-- A sequence lacks the name if its nodes do not refer to it. -/
theorem sequence (strategy : Strategy Expr) (es : List Ir.Expr) :
    Without x (r.sequence ctx strategy es) fun looped code =>
      (∀ e ∈ es, ¬ e.Dangles x ctx.targets) →
        (∀ e ∈ es.getLast?, Spares x (Expr.Lacks x) ctx strategy looped e) →
          LacksBlock x code := by
  induction es with
  | nil => exact .pure fun _ _ _ => lacks_deliverUnit strategy
  | cons e es ih =>
    cases es with
    | nil =>
      exact .imp (h.stmts strategy e hctx) fun _ _ hcode hes hspares =>
        hcode (hes e List.mem_cons_self) (hspares e rfl)
    | cons e' es =>
      refine .bind (h.stmts .effect e hctx.withoutTailCall) fun _ => .bind ih fun _ => .pure ?_
      intro _ hrest hfirst hes hspares
      obtain ⟨he, hes⟩ := List.forall_mem_cons.1 hes
      rw [List.getLast?_cons_cons] at hspares
      exact .append (hfirst he .effect) (hrest hes hspares)

/-- An assignment lacks the name if its place and its value do. -/
theorem assignment (place : Expr) (e : Ir.Expr) (loc : Option Ir.Location) :
    Without x (r.assignment ctx.withoutTailCall place e loc) fun _ code =>
      place.Lacks x → ¬ e.Dangles x ctx.targets → LacksBlock x code := by
  refine .bind (.isStatement _ _ _) fun _ => .ite (fun _ => ?_) fun _ => ?_
  · exact .imp (h.stmts (.assign place) e hctx.withoutTailCall) fun _ _ hcode _ hplace he =>
      hcode he (.assign hplace)
  · refine .bind (h.expr e hctx.withoutTailCall) fun value => .pure fun _ hvalue _ hplace he => ?_
    have hassign : (Expr.assign place value).Lacks x := ⟨hplace, hvalue he⟩
    exact .single (lacks_withLoc hassign loc)

/-- The counter is bound in the loop. -/
theorem forLoop (id : Ir.Ident) (start limit body : Ir.Expr) (isUp : Bool)
    (loc : Option Ir.Location) :
    Without x (r.forLoop ctx.withoutTailCall id start limit body isUp loc) fun _ code =>
      ¬ start.Dangles x ctx.targets → ¬ limit.Dangles x ctx.targets →
        (x ∉ [id.name] → ¬ body.Dangles x ctx.targets) → LacksBlock x code := by
  have hplain := hctx.withoutTailCall
  refine .bind (h.expr start hplain) fun start => .bind (h.expr limit hplain) fun limit => ?_
  have hloop : ∀ {bound : Expr} {stmts : List Stmt} {comparison step : Operator},
      start.Lacks x → bound.Lacks x → (x ∉ [id.name] → LacksBlock x stmts) →
        Stmt.Lacks x ⟨loc, .forLoop (some ⟨.let, [⟨id.name, some start⟩]⟩)
          (some (.binary comparison (.ident id.name) bound))
          (some (.binary step (.ident id.name) (.number 1))) stmts⟩ := by
    intro bound stmts comparison step hstart hbound hstmts
    by_cases hx : x ∈ [id.name]
    · exact .inl hx
    · have hname : id.name ≠ x := fun heq => hx (heq ▸ List.mem_cons_self)
      exact .inr ⟨⟨hstart, trivial⟩, ⟨hname, hbound⟩, ⟨hname, trivial⟩, hstmts hx⟩
  dsimp only
  refine .ite (fun _ => ?_) fun _ => .bind (.of_any (.allocateLocal _)) fun name => ?_
  · rw [pure_bind]
    refine .bind (h.stmts .effect body hplain) fun _ => ?_
    cases isUp <;>
    · refine .pure fun _ hstmts hlimit hstart hs hl hb => ?_
      exact .single (hloop (hstart hs) (hlimit hl) fun hx => hstmts (hb hx) .effect)
  · rw [pure_bind]
    refine .bind (h.stmts .effect body hplain) fun _ => ?_
    cases isUp <;>
    · refine .pure fun _ hstmts _ hlimit hstart hs hl hb => ?_
      exact .declare _ _ _ (hlimit hl) fun hname =>
        .single (hloop (hstart hs) hname fun hx => hstmts (hb hx) .effect)

/-- A handler lacks the name if it binds it or its body does not refer to it. -/
theorem handler (strategy : Strategy Expr) (hd : Option Ir.Handler) :
    Without x (r.handler ctx.withoutTailCall strategy hd) fun looped code =>
      (∀ y ∈ hd, x ∉ [y.param.name] → ¬ y.body.Dangles x ctx.targets) →
        (∀ y ∈ hd, Spares x (Expr.Lacks x) ctx.withoutTailCall strategy looped y.body) →
          LacksHandler x code := by
  cases hd with
  | none => exact .pure fun _ _ _ => trivial
  | some hd =>
    refine .bind (.inHandler (h.stmts strategy hd.body hctx.withoutTailCall)) fun _ => .pure ?_
    intro _ hstmts hhd hspares
    by_cases hx : x ∈ [hd.param.name]
    · exact .inl (List.mem_singleton.1 hx ▸ rfl)
    · exact .inr (hstmts (fun heq => hx (heq ▸ List.mem_cons_self)) (hhd hd rfl hx)
        (hspares hd rfl))

/-- A finalizer lacks the name if its parts do. -/
theorem finalizer (o : Option Ir.Expr) :
    Without x (r.finalizer ctx.withoutTailCall o) fun _ code =>
      (∀ e ∈ o, ¬ e.Dangles x ctx.targets) → LacksFinalizer x code := by
  cases o with
  | none => exact .pure fun _ _ => trivial
  | some e =>
    exact .bind (h.stmts .effect e hctx.withoutTailCall) fun _ => .pure fun _ hstmts ho =>
      hstmts (ho e rfl) .effect

omit h in
/-- All that targets bind is declared before a switch. -/
theorem mem_introduced_targetVariables {targets : List Ir.Target} {t : Ir.Target} {id : Ir.Ident}
    (ht : t ∈ targets) (hid : id ∈ t.bound) (hname : id.name = x) :
    x ∈ introduced (targetVariables ctx targets) := by
  refine List.mem_flatMap.2 ⟨.declare .let id.name none, List.mem_flatMap.2 ⟨t, ?_, ?_⟩, ?_⟩
  · refine List.mem_filter.2 ⟨ht, ?_⟩
    cases hhoists : ctx.hoists t.bound with
    | false => rfl
    | true => exact absurd hname (hctx.hoists _ hhoists id hid)
  · exact List.mem_map_of_mem hid
  · exact hname ▸ List.mem_cons_self

omit h hctx in

/-- Declarations of what targets bind lack the name if their parts do. -/
theorem lacks_targetVariables (targets : List Ir.Target) :
    LacksStmts x (targetVariables ctx targets) := by
  unfold targetVariables
  induction targets.filter (!ctx.hoists ·.bound) with
  | nil => exact trivial
  | cons t ts ih =>
    rw [List.flatMap_cons, lacksStmts_append]
    refine ⟨?_, ih⟩
    induction t.bound with
    | nil => exact trivial
    | cons id ids ihs => exact ⟨⟨trivial, trivial⟩, ihs⟩

omit h hctx in
/-- What ends a case of a switch. -/
theorem lacks_caseExit (strategy : Strategy Expr) : LacksBlock x (match strategy with
    | .ret => []
    | _ => [Stmt.of (.breakTo none)]) := by
  cases strategy with
  | ret => exact .nil
  | effect | assign | join => exact .single trivial

/-- The cases of targets lack the name if the bodies do not refer to it. -/
theorem cases (strategy : Strategy Expr) (index : Nat) (ts : List Ir.Target) :
    Without x (r.cases ctx strategy index ts) fun looped code =>
      (∀ t ∈ ts, ¬ t.body.Dangles x ctx.targets) →
        (∀ t ∈ ts, Spares x (Expr.Lacks x) ctx strategy looped t.body) →
          x ∈ code.flatMap (introduced ·.body) ∨ LacksCases x code := by
  induction ts generalizing index with
  | nil => exact .pure fun _ _ _ => .inr trivial
  | cons t ts ih =>
    refine .bind (h.stmts strategy t.body hctx) fun body => .bind (ih _) fun rest => .pure ?_
    intro _ hrest hbody hts hspares
    obtain ⟨ht, hts⟩ := List.forall_mem_cons.1 hts
    obtain ⟨hspare, hspares⟩ := List.forall_mem_cons.1 hspares
    rcases (hbody ht hspare).append (lacks_caseExit strategy) with hx | hblock
    · exact .inl (List.mem_append_left _ hx)
    rcases hrest hts hspares with hx | hcases
    · exact .inl (List.mem_append_right _ hx)
    · refine .inr ⟨?_, hblock, hcases⟩
      split <;> exact trivial

/-- Where a target is shared, the code begins with declarations of what all targets bind. -/
theorem decisionTree (strategy : Strategy Expr) (dispatcher : Ir.Expr)
    (targets : List Ir.Target) :
    Without x (r.decisionTree ctx strategy dispatcher targets) fun looped code =>
      ¬ (Ir.Expr.decisionTree dispatcher targets).Dangles x ctx.targets →
        Spares x (Expr.Lacks x) ctx strategy looped (.decisionTree dispatcher targets) →
          LacksBlock x code := by
  refine .ite (fun _ => ?_) fun hshared => .bind (.of_any (.allocateLocal _)) fun join =>
    .bind (h.stmts (.join join) dispatcher (hctx.withTargets targets).withoutTailCall) fun _ =>
      .bind (h.cases hctx strategy _ targets) fun _ => .pure ?_
  · exact .imp (h.stmts strategy dispatcher (hctx.withTargets targets)) fun _ _ hcode he hspares =>
      hcode (he ∘ .dispatcher) hspares.dispatcher
  · intro _ hcases hselect _ he hspares
    refine .declare _ _ _ trivial fun hjoin => ?_
    by_cases hbound : ∃ t ∈ targets, ∃ id ∈ t.bound, id.name = x
    · obtain ⟨t, ht, id, hid, hname⟩ := hbound
      exact .left (introduced_append _ _ ▸ List.mem_append_left _
        (mem_introduced_targetVariables hctx ht hid hname)) _
    have hfree : ∀ t ∈ targets, ∀ id ∈ t.bound, id.name ≠ x :=
      fun t ht id hid hname => hbound ⟨t, ht, id, hid, hname⟩
    refine .append (.append (.inr (lacks_targetVariables targets)) ?_) (.single ⟨hjoin, ?_⟩)
    · refine hselect (he ∘ .dispatcher) ⟨fun _ _ => nofun, nofun, fun name hname => ?_⟩
      obtain rfl := Strategy.join.inj hname
      refine ⟨hjoin, hfree, fun d inner hends t ht id hid hname => he ?_⟩
      exact .nested (hshared ∘ List.isEmpty_iff.2) hends ht hid hname
    · refine hcases (fun t ht => not_dangles_part he (List.mem_map_of_mem ht) fun hx => ?_)
        fun t ht => hspares.part (List.mem_cons_of_mem _ (List.mem_map_of_mem ht))
      obtain ⟨id, hid, -, hname⟩ := exists_of_mem_keptNames hx
      exact hfree t ht id hid hname

/-- What a target binds is introduced where a success node gives a value for it. -/
theorem bindings (ids : List Ir.Ident) (values : List Ir.Expr) :
    Without x (r.bindings ctx ids values) fun _ code =>
      (x ∈ keptNames (ids.take values.length) → x ∈ introduced code) ∧
        ((∀ e ∈ values, ¬ e.Dangles x ctx.targets) → LacksBlock x code) := by
  induction ids generalizing values with
  | nil =>
    rw [List.take_nil]
    exact .pure fun _ => ⟨fun hx => absurd hx List.not_mem_nil, fun _ => .nil⟩
  | cons id ids ih =>
    cases values with
    | nil => exact .pure fun _ => ⟨fun hx => absurd hx List.not_mem_nil, fun _ => .nil⟩
    | cons value values =>
      rw [List.length_cons, List.take_succ_cons]
      refine .bind (h.declare hctx id value) fun _ => .bind (ih values) fun _ => .pure ?_
      rintro _ ⟨hids, hrest⟩ ⟨hid, hfirst⟩
      refine ⟨mem_introduced_cons hid hids, fun hvalues => ?_⟩
      obtain ⟨hvalue, hvalues⟩ := List.forall_mem_cons.1 hvalues
      exact .append (hfirst hvalue) (hrest hvalues)

/-- Assignments to what a target binds lack the name if the target binds others. -/
theorem assignments (ids : List Ir.Ident) (values : List Ir.Expr) :
    Without x (r.assignments ctx ids values) fun _ code => (∀ id ∈ ids, id.name ≠ x) →
      (∀ e ∈ values, ¬ e.Dangles x ctx.targets) → LacksBlock x code := by
  induction ids generalizing values with
  | nil => exact .pure fun _ _ _ => .nil
  | cons id ids ih =>
    cases values with
    | nil => exact .pure fun _ _ _ => .nil
    | cons value values =>
      refine .bind (h.stmts (.assign (.ident id.name)) value hctx.withoutTailCall) fun _ =>
        .bind (ih values) fun _ => .pure ?_
      intro _ hrest hfirst hids hvalues
      obtain ⟨hid, hids⟩ := List.forall_mem_cons.1 hids
      obtain ⟨hvalue, hvalues⟩ := List.forall_mem_cons.1 hvalues
      exact .append (hfirst hvalue (.assign hid)) (hrest hids hvalues)

/-- A success node lacks the name if the selected target does not refer to it. -/
theorem success (strategy : Strategy Expr) (index : Nat) (values : List Ir.Expr) (ty : Ir.Ty) :
    Without x (r.success ctx strategy index values) fun looped code =>
      ¬ (Ir.Expr.success index values ty).Dangles x ctx.targets →
        Spares x (Expr.Lacks x) ctx strategy looped (.success index values ty) →
          LacksBlock x code := by
  refine .bind (.ofOption _ _) fun t => ?_
  have hvalues : ¬ (Ir.Expr.success index values ty).Dangles x ctx.targets →
      ∀ e ∈ values, ¬ e.Dangles x ctx.targets := fun he _ => not_dangles_child he rfl
  cases strategy with
  | join name =>
    refine .bind (h.assignments hctx t.bound values) fun stmts => .pure ?_
    intro _ hstmts ht he hspares
    obtain ⟨hname, hids, -⟩ := hspares.join name rfl
    exact .append (hstmts (hids t (List.mem_of_getElem? ht)) (hvalues he))
      (.single ⟨hname, trivial⟩)
  | ret | effect | assign =>
    refine .bind (h.bindings hctx t.bound values) fun stmts =>
      .bind (h.stmts _ t.body hctx) fun _ => .pure ?_
    rintro _ hbody ⟨hbound, hstmts⟩ ht he hspares
    by_cases hx : x ∈ keptNames (t.bound.take values.length)
    · exact .left (hbound hx) _
    · exact .append (hstmts (hvalues he)) (hbody (he ∘ .selected ht hx) (hspares.target rfl t))

/-- A conditional lacks the name if its parts do. -/
theorem conditional (strategy : Strategy Expr) (guard thenExpr elseExpr : Ir.Expr)
    (loc : Option Ir.Location) :
    Without x (r.conditional ctx strategy guard thenExpr elseExpr loc) fun looped code =>
      (∀ e ∈ [guard, thenExpr, elseExpr], ¬ e.Dangles x ctx.targets) →
        (∀ e ∈ [thenExpr, elseExpr], Spares x (Expr.Lacks x) ctx strategy looped e) →
          LacksBlock x code := by
  refine .bind (h.expr guard hctx.withoutTailCall) fun _ =>
    .bind (h.stmts strategy thenExpr hctx) fun _ => .bind (h.stmts strategy elseExpr hctx) fun _ =>
      .pure ?_
  intro _ helse hthen hguard hparts hspares
  simp only [List.forall_mem_cons] at hparts hspares
  obtain ⟨hg, ht, he, -⟩ := hparts
  exact .single ⟨hguard hg, hthen ht hspares.1, helse he hspares.2.1⟩

/-- Any node in the place of statements lacks the name if the source does not refer to it and the
place spares it. -/
theorem stmtsRule (strategy : Strategy Expr) (e : Ir.Expr) :
    Without x (r.stmtsRule ctx strategy e) fun looped code => ¬ e.Dangles x ctx.targets →
      Spares x (Expr.Lacks x) ctx strategy looped e → LacksBlock x code := by
  have hplain := hctx.withoutTailCall
  cases e with
  | cast inner =>
    exact .imp (h.stmts strategy inner hctx) fun _ _ hcode he hspares =>
      hcode (not_dangles_child he rfl List.mem_cons_self) (hspares.part List.mem_cons_self)
  | call callee receiver args isNew =>
    unfold Parts.stmtsRule
    dsimp only
    split
    · rename_i loop hloop
      refine .imp (h.tailCall hctx loop args) fun _ _ hcode he hspares => ?_
      refine hcode (fun a ha => not_dangles_child he rfl ?_) fun hlooped =>
        hspares.slots hlooped loop (Option.filter_eq_some_iff.1 hloop).1
      exact List.mem_cons_of_mem _ (List.mem_append_right _ ha)
    · exact h.delivered hctx _ _
  | ifThenElse guard thenExpr elseExpr =>
    refine .bind (.isStatement _ _ _) fun _ => .ite (fun _ => ?_) fun _ => ?_
    · exact .imp (h.conditional hctx strategy guard thenExpr elseExpr _)
        fun _ _ hcode _ he hspares => hcode (fun _ => not_dangles_child he rfl)
          fun _ => hspares.part
    · exact .imp (h.delivered hctx strategy _) fun _ _ hcode _ => hcode
  | decisionTree dispatcher targets => exact h.decisionTree hctx strategy dispatcher targets
  | success index values => exact h.success hctx strategy index values _
  | letIn id value body =>
    refine .bind (h.declare hctx id value) fun _ => .bind (h.stmts strategy body hctx) fun _ =>
      .pure ?_
    rintro _ hbody ⟨hbound, hfirst⟩ he hspares
    by_cases hx : x ∈ keptNames [id]
    · exact .left (hbound hx) _
    · have hbodyPart : (keptNames [id], body) ∈ (Ir.Expr.letIn id value body).keptParts :=
        List.mem_cons_of_mem _ List.mem_cons_self
      exact .append (hfirst (not_dangles_part he List.mem_cons_self List.not_mem_nil))
        (hbody (not_dangles_part he hbodyPart hx) (hspares.part List.mem_cons_self))
  | letRec bs body =>
    refine .bind (h.recursive hctx bs) fun _ => .bind (h.stmts strategy body hctx) fun _ => .pure ?_
    rintro _ hbody ⟨hbound, hfirst⟩ he hspares
    by_cases hx : x ∈ keptNames (bs.map (·.ident))
    · exact .left (hbound hx) _
    · have hparts : ∀ c ∈ bs.map (·.value) ++ [body], ¬ c.Dangles x ctx.targets :=
        fun c hc => not_dangles_part he (List.mem_map_of_mem hc) hx
      exact .append (hfirst fun b hb => hparts _ (List.mem_append_left _ (List.mem_map_of_mem hb)))
        (hbody (hparts _ (List.mem_append_right _ List.mem_cons_self))
          (hspares.part List.mem_cons_self))
  | sequence es =>
    exact .imp (h.sequence hctx strategy es) fun _ _ hcode he hspares =>
      hcode (fun _ => not_dangles_child he rfl)
        fun _ hlast => hspares.part (Option.mem_toList.2 hlast)
  | set target field value =>
    refine .bind (h.place hplain target field) fun _ =>
      .bind (h.assignment hctx _ value _) fun _ => .pure ?_
    intro _ hstmts hplace he _
    exact .append (hstmts (hplace (not_dangles_child he rfl List.mem_cons_self))
      (not_dangles_child he rfl (by simp [Ir.Expr.children]))) (lacks_deliverUnit _)
  | setIndex target index value =>
    refine .bind (h.element hplain target index) fun _ =>
      .bind (h.assignment hctx _ value _) fun _ => .pure ?_
    intro _ hstmts hplace he _
    have hplace := hplace (not_dangles_child he rfl List.mem_cons_self)
      (not_dangles_child he rfl (by simp [Ir.Expr.children]))
    exact .append (hstmts hplace (not_dangles_child he rfl (by simp [Ir.Expr.children])))
      (lacks_deliverUnit _)
  | whileLoop guard body =>
    refine .bind (h.expr guard hplain) fun _ => .bind (h.stmts .effect body hplain) fun _ =>
      .pure ?_
    intro _ hbody htest he _
    exact .cons ⟨htest (not_dangles_child he rfl List.mem_cons_self),
      hbody (not_dangles_child he rfl (by simp [Ir.Expr.children])) .effect⟩ (lacks_deliverUnit _)
  | forLoop id start limit body =>
    refine .bind (h.forLoop hctx id start limit body _ _) fun _ => .pure ?_
    intro _ hstmts he _
    obtain ⟨hs, hl, hb⟩ := not_dangles_forLoop he
    exact .append (hstmts hs hl hb) (lacks_deliverUnit _)
  | tryCatch body hd fin =>
    refine .bind (h.stmts strategy body hplain) fun _ => .bind (h.handler hctx strategy hd) fun _ =>
      .bind (h.finalizer hctx fin) fun _ => .pure ?_
    intro _ hfinalizer hhandler hblock he hspares
    refine .single ⟨hblock (not_dangles_part he List.mem_cons_self List.not_mem_nil)
      (hspares.part List.mem_cons_self).withoutTailCall,
      hhandler (fun _ => not_dangles_handler he) (fun y hy => ?_),
      hfinalizer fun _ => not_dangles_finalizer he⟩
    have hlast := Option.mem_toList.2 (Option.mem_map_of_mem (·.body) hy)
    exact (hspares.part (List.mem_cons_of_mem _ hlast)).withoutTailCall
  | throw error =>
    cases error with
    | some error =>
      exact .bind (h.expr error hplain) fun _ => .pure fun _ hvalue he _ =>
        .single (hvalue (not_dangles_child he rfl List.mem_cons_self))
    | none =>
      exact .bind .caught fun _ => .bind (.ofOption _ _) fun name => .pure
        fun _ hname hcaught _ _ => .single (hcaught name hname)
  | debugger => exact .pure fun _ _ _ => .cons trivial (lacks_deliverUnit _)
  | emit template args isStatement =>
    cases isStatement with
    | true =>
      exact .bind (h.exprs hplain args) fun _ => .pure fun _ hargs he _ =>
        .cons (hargs fun _ => not_dangles_child he rfl) (lacks_deliverUnit _)
    | false => exact h.delivered hctx _ _
  | literal | option | aggregate | ident | imported | lambda | delegate | object | apply | unary
  | binary | logical | get | getIndex | test | curry => exact h.delivered hctx _ _

end Parts.Omits

/-! ## The rules -/

/-- In what the rules lower to, a name is free only if the source refers to it. -/
theorem rules_omit (x : String) (n : Nat) : (rules n).Omits x := by
  induction n with
  | zero => exact ⟨fun _ _ => .fail _, fun _ _ _ => .fail _⟩
  | succ n ih =>
    exact ⟨fun e hctx => ih.exprRule hctx e, fun strategy e hctx => ih.stmtsRule hctx strategy e⟩

end TypedLowering.JavaScript
