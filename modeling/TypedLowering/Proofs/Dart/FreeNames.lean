import TypedLowering.Proofs.Dart.Blocks
import TypedLowering.Proofs.Lowering.Absence

/-!
# Free names of lowered Dart

A name is free in code where it occurs with no declaration of it in a block or a function around
(`Lacks`); types are left aside. If parts are lowered to code that lacks a name to which the source
does not refer (`Parts.Omits`), then so does a rule that has such parts (`rules_omit`). There is one
lemma for each rule.

Statements that run before an expression join the block around, so what they introduce is bound in
the expression, too (`Hoisted.Lacks`).
-/

namespace TypedLowering.Dart

open Ir.Expr (not_dangles_child not_dangles_finalizer not_dangles_forLoop not_dangles_functionBody
  not_dangles_handler not_dangles_part)
open Lower (Without)

mutual

/-- Whether a name is not free in an expression. An identifier of an imported library has the
prefix of the library as its name. -/
def Expr.Lacks (x : String) : Expr → Prop
  | .literal _ | .this => True
  | .ident id => id.importPrefix.getD id.name ≠ x
  | .list items _ | .emit _ items => LacksItems x items
  | .unary _ operand | .property operand _ | .typeTest operand _ | .cast operand _
  | .nullCheck operand => operand.Lacks x
  | .binary _ left right | .logical _ left right | .index left right =>
    left.Lacks x ∧ right.Lacks x
  | .conditional test thenExpr elseExpr => test.Lacks x ∧ thenExpr.Lacks x ∧ elseExpr.Lacks x
  | .call callee args named => callee.Lacks x ∧ LacksItems x args ∧ LacksNamed x named
  | .function args body _ => x ∈ args.map (·.name) ∨ x ∈ introduced body ∨ LacksStmts x body

/-- The name is free in no expression of a list. -/
def LacksItems (x : String) : List Expr → Prop
  | [] => True
  | e :: es => e.Lacks x ∧ LacksItems x es

/-- The name is free in no named argument. -/
def LacksNamed (x : String) : List NamedArg → Prop
  | [] => True
  | ⟨_, value⟩ :: rest => value.Lacks x ∧ LacksNamed x rest

/-- Whether a name is not free in a statement. -/
def Stmt.Lacks (x : String) : Stmt → Prop
  | .expr e | .throw e => e.Lacks x
  | .ret value | .declare _ _ value => LacksOption x value
  | .assign target value => target.Lacks x ∧ value.Lacks x
  | .ifElse guard thenBody elseBody =>
    guard.Lacks x ∧ (x ∈ introduced thenBody ∨ LacksStmts x thenBody) ∧
      (x ∈ introduced elseBody ∨ LacksStmts x elseBody)
  | .whileLoop guard body => guard.Lacks x ∧ (x ∈ introduced body ∨ LacksStmts x body)
  | .forLoop id start limit _ body =>
    id.name = x ∨ start.Lacks x ∧ limit.Lacks x ∧ (x ∈ introduced body ∨ LacksStmts x body)
  | .switch value cases default =>
    value.Lacks x ∧ LacksCases x cases ∧ LacksFinalizer x default
  | .tryCatch body handler finalizer =>
    (x ∈ introduced body ∨ LacksStmts x body) ∧ LacksHandler x handler ∧
      LacksFinalizer x finalizer
  | .rethrow | .breakTo _ | .continueTo _ => True
  | .labeled _ body => body.Lacks x
  | .function func => func.Lacks x

/-- The name is free in no statement, whatever these declare. -/
def LacksStmts (x : String) : List Stmt → Prop
  | [] => True
  | s :: ss => s.Lacks x ∧ LacksStmts x ss

/-- The name is not free in an expression that may be missing. -/
def LacksOption (x : String) : Option Expr → Prop
  | none => True
  | some e => e.Lacks x

/-- A handler binds the name, or its body lacks it. -/
def LacksHandler (x : String) : Option CatchClause → Prop
  | none => True
  | some ⟨param, body⟩ => param.name = x ∨ x ∈ introduced body ∨ LacksStmts x body

/-- A finalizer or a default case. -/
def LacksFinalizer (x : String) : Option (List Stmt) → Prop
  | none => True
  | some stmts => x ∈ introduced stmts ∨ LacksStmts x stmts

/-- The name is free in no guard and no body of a case. -/
def LacksCases (x : String) : List SwitchCase → Prop
  | [] => True
  | ⟨guards, body⟩ :: rest =>
    LacksItems x guards ∧ (x ∈ introduced body ∨ LacksStmts x body) ∧ LacksCases x rest

/-- A function binds the name, or its body lacks it. -/
def Func.Lacks (x : String) : Func → Prop
  | ⟨_, args, body, _, _⟩ => x ∈ args.map (·.name) ∨ x ∈ introduced body ∨ LacksStmts x body

end

/-- Whether a name is not free in the statements of a block. -/
def LacksBlock (x : String) (stmts : List Stmt) : Prop :=
  x ∈ introduced stmts ∨ LacksStmts x stmts

variable {x : String} {as bs stmts : List Stmt}

/-- Two parts of a block declare what each of them does. -/
theorem introduced_append (as bs : List Stmt) :
    introduced (as ++ bs) = introduced as ++ introduced bs :=
  List.flatMap_append

/-- What a list of identifiers binds is introduced where the first one and the others are. -/
theorem mem_introduced_cons {id : Ir.Ident} {ids : List Ir.Ident}
    (has : x ∈ keptNames [id] → x ∈ introduced as) (hbs : x ∈ keptNames ids → x ∈ introduced bs)
    (hx : x ∈ keptNames (id :: ids)) : x ∈ introduced (as ++ bs) := by
  rw [introduced_append]
  rcases List.mem_append.1 (keptNames_cons id ids ▸ hx) with hx | hx
  · exact List.mem_append_left _ (has hx)
  · exact List.mem_append_right _ (hbs hx)

/-- The name is not free in two parts if it is in neither. -/
theorem lacksStmts_append : LacksStmts x (as ++ bs) ↔ LacksStmts x as ∧ LacksStmts x bs := by
  induction as with
  | nil => exact ⟨fun h => ⟨trivial, h⟩, And.right⟩
  | cons a as ih => rw [List.cons_append, LacksStmts, ih, LacksStmts, and_assoc]

/-- Expressions lack the name if each of them does. -/
theorem lacksItems_iff {es : List Expr} : LacksItems x es ↔ ∀ e ∈ es, e.Lacks x := by
  induction es with
  | nil => exact ⟨fun _ => nofun, fun _ => trivial⟩
  | cons e es ih => rw [LacksItems, ih, List.forall_mem_cons]

/-- Named arguments lack the name if the value of each does. -/
theorem lacksNamed_iff {args : List NamedArg} :
    LacksNamed x args ↔ ∀ arg ∈ args, arg.value.Lacks x := by
  induction args with
  | nil => exact ⟨fun _ => nofun, fun _ => trivial⟩
  | cons arg args ih =>
    obtain ⟨_, _⟩ := arg
    rw [LacksNamed, ih, List.forall_mem_cons]

namespace LacksBlock

/-- What one part of a block introduces is bound in all of it. -/
theorem left (h : x ∈ introduced as) (bs : List Stmt) : LacksBlock x (as ++ bs) :=
  .inl (introduced_append as bs ▸ List.mem_append_left _ h)

/-- A block lacks the name if a later statement declares it. -/
theorem right (as : List Stmt) (h : x ∈ introduced bs) : LacksBlock x (as ++ bs) :=
  .inl (introduced_append as bs ▸ List.mem_append_right _ h)

/-- The empty block lacks every name. -/
theorem nil : LacksBlock x [] :=
  .inr trivial

/-- A block of two parts lacks the name if both do. -/
theorem append (has : LacksBlock x as) (hbs : LacksBlock x bs) : LacksBlock x (as ++ bs) := by
  rcases has with has | has
  · exact left has bs
  rcases hbs with hbs | hbs
  · exact right as hbs
  · exact .inr (lacksStmts_append.2 ⟨has, hbs⟩)

/-- A statement that lacks the name is a block that does. -/
theorem single {s : Stmt} (h : s.Lacks x) : LacksBlock x [s] :=
  .inr ⟨h, trivial⟩

/-- A statement that lacks the name may stand before a block that does. -/
theorem cons {s : Stmt} (h : s.Lacks x) (hs : LacksBlock x stmts) : LacksBlock x (s :: stmts) :=
  (single h).append hs

/-- A declaration, and what comes after it. -/
theorem declare (id : Ident) (kind : VarKind) (value : Option Expr)
    (hvalue : LacksOption x value) (h : id.name ≠ x → LacksBlock x stmts) :
    LacksBlock x (.declare id kind value :: stmts) := by
  by_cases hname : id.name = x
  · exact .inl (hname ▸ List.mem_cons_self)
  · exact cons hvalue (h hname)

end LacksBlock

/-- Whether a name is not free in the statements before a value and in the value, which are in one
block. -/
def Hoisted.Lacks {α : Type} (x : String) (ofValue : α → Prop) (v : Hoisted α) : Prop :=
  x ∈ introduced v.before ∨ LacksStmts x v.before ∧ ofValue v.value

namespace Hoisted.Lacks

variable {α β : Type} {P : α → Prop} {Q : β → Prop} {v : Hoisted α}

/-- A value with no statements before it lacks the name if the value does. -/
theorem pure {a : α} (h : P a) : Lacks x P ⟨[], a⟩ :=
  .inr ⟨trivial, h⟩

/-- A value after a block lacks the name if both do. -/
theorem of_block {a : α} (h : LacksBlock x stmts) (ha : P a) : Lacks x P ⟨stmts, a⟩ :=
  h.imp_right (⟨·, ha⟩)

/-- Where the statements of a second value follow, both lack the name if each does. -/
theorem bind (h : v.Lacks x P) {w : Hoisted β} (hw : P v.value → w.Lacks x Q) :
    Lacks x Q ⟨v.before ++ w.before, w.value⟩ := by
  rcases h with hx | ⟨hbefore, hvalue⟩
  · exact .inl (introduced_append _ _ ▸ List.mem_append_left _ hx)
  rcases hw hvalue with hx | ⟨hafter, hresult⟩
  · exact .inl (introduced_append _ _ ▸ List.mem_append_right _ hx)
  · exact .inr ⟨lacksStmts_append.2 ⟨hbefore, hafter⟩, hresult⟩

/-- Another value after the same statements lacks the name if the value does. -/
theorem map (h : v.Lacks x P) {b : β} (hb : P v.value → Q b) : Lacks x Q ⟨v.before, b⟩ :=
  h.imp_right fun ⟨hbefore, hvalue⟩ => ⟨hbefore, hb hvalue⟩

/-- What comes after the value in the block. -/
theorem block (h : v.Lacks x P) (hrest : P v.value → LacksBlock x stmts) :
    LacksBlock x (v.before ++ stmts) := by
  rcases h with hx | ⟨hbefore, hvalue⟩
  · exact .left hx stmts
  · exact .append (.inr hbefore) (hrest hvalue)

/-- A value after a declaration lacks the name: the declaration is of another one, or the name is
bound. -/
theorem declare (id : Ident) (kind : VarKind) (value : Option Expr)
    (hvalue : LacksOption x value) (h : id.name ≠ x → v.Lacks x P) :
    Lacks x P ⟨.declare id kind value :: v.before, v.value⟩ := by
  by_cases hname : id.name = x
  · exact .inl (hname ▸ List.mem_cons_self)
  · rcases h hname with hx | ⟨hbefore, hresult⟩
    · exact .inl (List.mem_cons_of_mem _ hx)
    · exact .inr ⟨⟨hvalue, hbefore⟩, hresult⟩

/-- With no statements before it, the value itself lacks the name. -/
theorem value_of_isEmpty (h : v.Lacks x P) (hempty : v.before.isEmpty = true) : P v.value := by
  rcases h with hx | ⟨-, hvalue⟩
  · rw [List.isEmpty_iff.1 hempty] at hx
    exact absurd hx List.not_mem_nil
  · exact hvalue

end Hoisted.Lacks

/-- A value is put in its place by code that lacks the name. -/
theorem lacks_deliver {ctx : Context} {strategy : Strategy Expr} {looped : Bool} {e : Ir.Expr}
    {value : Expr} (hspares : Spares x (Expr.Lacks x) ctx strategy looped e)
    (hvalue : value.Lacks x) : LacksBlock x (deliver strategy value) := by
  cases strategy with
  | ret => exact .single hvalue
  | assign place => exact .single ⟨hspares.place place rfl, hvalue⟩
  | join name => exact .single ⟨(hspares.join name rfl).1, hvalue⟩
  | effect =>
    rw [deliver]
    split
    · exact .nil
    · exact .single hvalue

/-- The end of a node without a value has no names. -/
theorem lacks_deliverUnit (strategy : Strategy Expr) : LacksBlock x (deliverUnit strategy) := by
  cases strategy with
  | ret => exact .single trivial
  | effect | assign | join => exact .nil

/-- The end of a branch lacks the name if its parts do. -/
theorem lacks_branchEnd {target : Option Ident} {value : Expr}
    (htarget : ∀ id ∈ target, (Expr.ident id).Lacks x) (hvalue : value.Lacks x) :
    LacksBlock x (branchEnd target value) := by
  cases target with
  | some id => exact .single ⟨htarget id rfl, hvalue⟩
  | none =>
    rw [branchEnd]
    split
    · exact .nil
    · exact .single hvalue

/-! ## Types and names -/

/-- Lowering a type only extends the state. -/
theorem lowerType_without (file : SourceFile) (ty : Ir.Ty) :
    Without x (lowerType file ty) fun _ _ => True :=
  .of_any (below_lowerType file ty)

/-- The class of a tuple comes from an imported library. -/
theorem lowerType_tuple_without (file : SourceFile) (items : List Ir.Ty) :
    Without x (lowerType file (.tuple items)) fun _ ty =>
      ∃ library name generics, ty = .named (some library) name generics ∧ library ≠ x := by
  unfold lowerType
  exact .ite (fun _ => .fail _) fun _ => .bind (.of_any (below_lowerTypes file items))
    fun _ => .bind (.importWhole _) fun _ => .pure fun _ hlibrary _ => ⟨_, _, _, rfl, hlibrary⟩

/-- An identifier keeps its name. -/
theorem lowerIdent_without (file : SourceFile) (id : Ir.Ident) :
    Without x (lowerIdent file id) fun _ place => ∃ ty, place = .own id.name ty :=
  .bind (lowerType_without file id.ty) fun ty => .pure fun _ _ => ⟨ty, rfl⟩

/-- Identifiers keep their names. -/
theorem lowerIdents_without (file : SourceFile) (ids : List Ir.Ident) :
    Without x (lowerIdents file ids) fun _ places => places.map (·.name) = ids.map (·.name) := by
  induction ids with
  | nil => exact .pure fun _ => rfl
  | cons id ids ih =>
    refine .bind (lowerIdent_without file id) fun _ => .bind ih fun _ => .pure ?_
    rintro _ hrest ⟨ty, rfl⟩
    exact List.cons_eq_cons.2 ⟨rfl, hrest⟩

/-- A new local is no name of another library. -/
theorem freshLocal_without (file : SourceFile) (candidate : String) (ty : Ir.Ty) :
    Without x (freshLocal file candidate ty) fun _ id =>
      id.name ≠ x → (Expr.ident id).Lacks x :=
  .bind (.of_any (.allocateLocal candidate)) fun _ => .bind (lowerType_without file ty) fun _ =>
    .pure fun _ _ _ hname => hname

/-- Operands that are saved lack the name: those in locals have new names. -/
theorem saveOperands_without (file : SourceFile) (operands : List (Expr × Ir.Ty)) :
    Without x (saveOperands file operands) fun _ saved => (∀ d ∈ operands, d.1.Lacks x) →
      saved.Lacks x fun saved => ∀ d ∈ saved, d.1.Lacks x := by
  induction operands with
  | nil => exact .pure fun _ _ => .pure nofun
  | cons d operands ih =>
    refine .ite (fun _ => .bind ih fun _ => .pure fun _ hrest hdone => ?_) fun _ =>
      .bind (freshLocal_without _ _ _) fun id => .bind ih fun saved => .pure
        fun _ hrest hid hdone => ?_
    · obtain ⟨hd, hdone⟩ := List.forall_mem_cons.1 hdone
      exact (hrest hdone).map fun hsaved => List.forall_mem_cons.2 ⟨hd, hsaved⟩
    · obtain ⟨hd, hdone⟩ := List.forall_mem_cons.1 hdone
      refine .declare (v := ⟨saved.before, (Expr.ident id, d.2) :: saved.value⟩) id .final
        (some d.1) hd fun hname => ?_
      exact (hrest hdone).map fun hsaved => List.forall_mem_cons.2 ⟨hid hname, hsaved⟩

/-- The slots as parameters. An iteration begins with copies of the slots, which introduce the
parameters of the source. -/
theorem loopParams_without (file : SourceFile) (slots : List (Ir.Ident × String)) :
    Without x (Parts.loopParams file slots) fun _ l => l.1.map (·.name) = slots.map (·.2) ∧
      ∀ body, (∀ b ∈ slots, b.2 ≠ x) → (x ∉ (slots.map (·.1)).map (·.name) → LacksBlock x body) →
        LacksBlock x (l.2 ++ body) := by
  induction slots with
  | nil => exact .pure fun _ => ⟨rfl, fun _ _ hbody => hbody List.not_mem_nil⟩
  | cons b slots ih =>
    refine .bind (lowerType_without file b.1.ty) fun _ => .bind ih fun ⟨_, _⟩ => .pure ?_
    rintro _ ⟨hnames, hrest⟩ _
    refine ⟨List.cons_eq_cons.2 ⟨rfl, hnames⟩, fun body hslots hbody => ?_⟩
    obtain ⟨hb, hslots⟩ := List.forall_mem_cons.1 hslots
    refine .declare _ _ _ hb fun hne => hrest body hslots fun hx => hbody fun hx' => ?_
    exact (List.mem_cons.1 hx').elim (fun heq => hne heq.symm) hx

/-- The writes to the slots of a loop lack the name if the slots have others. -/
theorem slotWrites_without (file : SourceFile) (slots : List (Ir.Ident × String))
    (values : List Expr) : Without x (Parts.slotWrites file slots values) fun _ code =>
      (∀ b ∈ slots, b.2 ≠ x) → (∀ e ∈ values, e.Lacks x) → LacksBlock x code := by
  induction slots generalizing values with
  | nil => exact .pure fun _ _ _ => .nil
  | cons b slots ih =>
    cases values with
    | nil => exact .pure fun _ _ _ => .nil
    | cons value values =>
      refine .ite (fun _ => .imp (ih values) fun _ _ hrest hslots hvalues => ?_) fun _ =>
        .bind (lowerType_without file b.1.ty) fun _ => .bind (ih values) fun _ => .pure
          fun _ hrest _ hslots hvalues => ?_
      · exact hrest (List.forall_mem_cons.1 hslots).2 (List.forall_mem_cons.1 hvalues).2
      · obtain ⟨hb, hslots⟩ := List.forall_mem_cons.1 hslots
        obtain ⟨hvalue, hvalues⟩ := List.forall_mem_cons.1 hvalues
        exact .cons ⟨hb, hvalue⟩ (hrest hslots hvalues)

/-! ## Values -/

/-- A constant lacks the name, as it is not a built-in one. -/
theorem lacks_literalValue {ctx : Context} (hctx : Unnamed x ctx) (value : Ir.Literal) :
    (literalValue value).Lacks x := by
  have hflags : ∀ flags : List Char, LacksNamed x (flags.filterMap flagArg?) := by
    refine fun flags => lacksNamed_iff.2 fun arg harg => ?_
    obtain ⟨flag, -, hflag⟩ := List.mem_filterMap.1 harg
    revert hflag
    unfold flagArg?
    split <;> rintro ⟨⟩ <;> exact trivial
  cases value with
  | this | null | unit | bool | char | string => exact trivial
  | number value kind =>
    rw [literalValue]
    split <;> exact trivial
  | regex source flags =>
    have hname : "RegExp" ≠ x := hctx.ne_of_mem_builtins (by simp [builtins])
    exact ⟨hname, ⟨trivial, trivial⟩, hflags _⟩

/-- A binary operation lacks the name if its parts do. -/
theorem binaryValue_without (file : SourceFile) (op : Ir.BinaryOp) (left right : Expr)
    (ty : Ir.Ty) : Without x (binaryValue file op left right ty) fun _ code =>
      left.Lacks x → right.Lacks x → code.Lacks x := by
  cases op with
  | exponent =>
    exact .bind (.importWhole _) fun _ => .bind (lowerType_without _ _) fun _ =>
      .pure fun _ _ hmath hleft hright => ⟨hmath, ⟨hleft, hright, trivial⟩, trivial⟩
  | modulus => exact .pure fun _ hleft hright => ⟨hleft, ⟨hright, trivial⟩, trivial⟩
  | _ => exact .pure fun _ hleft hright => ⟨hleft, hright⟩

/-- The constructor of an entity has another name. -/
theorem constructorOf_without {ctx : Context} (hctx : Unnamed x ctx) (entity : String) :
    Without x (constructorOf ctx.file entity) fun _ code => code.Lacks x :=
  .bind (.ofOption _ _) fun _ => .pure fun _ hentity => hctx.entities entity _ hentity

/-- The constructor of a tuple has another name. -/
theorem tupleConstructor_without (file : SourceFile) (items : List Ir.Ty)
    (loc : Option Ir.Location) :
    Without x (tupleConstructor file (.tuple items) loc) fun _ code => code.Lacks x := by
  refine .bind (lowerType_tuple_without file items) fun ty => ?_
  split
  · refine .pure fun _ hty => ?_
    obtain ⟨library, name, generics, heq, hlibrary⟩ := hty
    obtain ⟨rfl, rfl, rfl⟩ := Ty.named.inj heq
    exact hlibrary
  · exact .fail _

/-- A member of another file has another name. -/
theorem importedValue_without (file : SourceFile) (ref : Ir.ImportRef) (ty : Ir.Ty)
    (loc : Option Ir.Location) :
    Without x (importedValue file ref ty loc) fun _ code => code.Lacks x :=
  .ite (fun _ => .fail _) fun _ => .bind (.of_any (.resolveImport _ _)) fun _ =>
    .bind (.importWhole _) fun _ => .bind (lowerType_without _ _) fun _ =>
      .pure fun _ _ hlibrary _ => hlibrary

/-- What is read from an object lacks the name if its parts do. -/
theorem access_without (file : SourceFile) (obj : Expr) (kind : Ir.Access) (ty : Ir.Ty) :
    Without x (access file obj kind ty) fun _ code => obj.Lacks x → code.Lacks x := by
  cases kind with
  | unionField =>
    exact .bind (lowerType_without _ _) fun _ => .pure fun _ _ hobj => ⟨hobj, trivial⟩
  | _ => exact .pure fun _ hobj => hobj

/-- A test of a value lacks the name if its parts do. -/
theorem test_without (file : SourceFile) (value : Expr) (kind : Ir.TestKind) :
    Without x (test file value kind) fun _ code => value.Lacks x → code.Lacks x := by
  cases kind with
  | type => exact .bind (lowerType_without _ _) fun _ => .pure fun _ _ hvalue => hvalue
  | option | unionCase => exact .pure fun _ hvalue => ⟨hvalue, trivial⟩

/-- Whether a name to which nodes do not refer is not free in what they are lowered to. -/
structure Parts.Omits (x : String) (r : Parts) : Prop where
  expr : ∀ {ctx} hoists e, Unnamed x ctx → Without x (r.expr ctx hoists e) fun _ v =>
    ¬ e.Dangles x ctx.targets → v.Lacks x (Expr.Lacks x)
  stmts : ∀ {ctx} strategy e, Unnamed x ctx → Without x (r.stmts ctx strategy e) fun looped code =>
    ¬ e.Dangles x ctx.targets → Spares x (Expr.Lacks x) ctx strategy looped e → LacksBlock x code

namespace Parts.Omits

variable {r : Parts} (h : r.Omits x) {ctx : Context} (hctx : Unnamed x ctx)
include h hctx

/-! ## Parts -/

/-- The code that delivers a value lacks the name if the place and the node do. -/
theorem delivered (strategy : Strategy Expr) (e : Ir.Expr) :
    Without x (r.delivered ctx strategy e) fun looped code => ¬ e.Dangles x ctx.targets →
      Spares x (Expr.Lacks x) ctx strategy looped e → LacksBlock x code :=
  .bind (h.expr true e hctx.withoutTailCall) fun _ => .pure fun _ hvalue he hspares =>
    (hvalue he).block (lacks_deliver hspares)

/-- The value of a node in a new local lacks the name, as the local has another one. -/
theorem capture (hoists : Bool) (e : Ir.Expr) : Without x (r.capture ctx hoists e) fun _ v =>
    ¬ e.Dangles x ctx.targets → v.Lacks x (Expr.Lacks x) := by
  have hplain := hctx.withoutTailCall
  refine .ite (fun _ => .fail _) fun _ => .ite (fun _ => ?_) fun _ => ?_
  · exact .bind (h.stmts .effect e hplain) fun _ => .pure fun _ hstmts he =>
      .of_block (hstmts he .effect) trivial
  · refine .bind (freshLocal_without _ _ _) fun id => .bind (h.stmts (.assign (.ident id)) e hplain)
      fun stmts => .pure fun _ hstmts hid he => ?_
    exact .declare (v := ⟨stmts, Expr.ident id⟩) id .var none trivial fun hname =>
      .of_block (hstmts he (.assign (hid hname))) (hid hname)

/-- The operands after those that are done lack the name if their parts do. -/
theorem operandsAfter (hoists : Bool) (done : List (Expr × Ir.Ty)) (es : List Ir.Expr) :
    Without x (r.operandsAfter ctx hoists done es) fun _ v => (∀ d ∈ done, d.1.Lacks x) →
      (∀ e ∈ es, ¬ e.Dangles x ctx.targets) →
        v.Lacks x fun values => ∀ e ∈ values, e.Lacks x := by
  induction es generalizing done with
  | nil => exact .pure fun _ hdone _ => .pure (List.forall_mem_map.2 hdone)
  | cons e es ih =>
    have hnext : ∀ {saved : List (Expr × Ir.Ty)} {value : Expr} {ty : Ir.Ty},
        (∀ d ∈ saved, d.1.Lacks x) → value.Lacks x →
        ∀ d ∈ saved ++ [(value, ty)], d.1.Lacks x := fun hsaved hvalue d hd => by
      rcases List.mem_append.1 hd with hd | hd
      · exact hsaved d hd
      · exact List.mem_singleton.1 hd ▸ hvalue
    refine .bind (h.expr hoists e hctx) fun operand => .ite (fun _ => ?_) fun _ => ?_
    · rw [pure_bind]
      refine .bind (ih _) fun _ => .pure fun _ hrest hoperand hdone hes => ?_
      obtain ⟨he, hes⟩ := List.forall_mem_cons.1 hes
      exact (hoperand he).bind fun hvalue => hrest (hnext hdone hvalue) hes
    · refine .bind (saveOperands_without _ _) fun _ => .bind (ih _) fun rest => .pure
        fun _ hrest hsaved hoperand hdone hes => ?_
      obtain ⟨he, hes⟩ := List.forall_mem_cons.1 hes
      rw [List.append_assoc]
      exact (hsaved hdone).bind (w := ⟨operand.before ++ rest.before, rest.value⟩) fun hsaved =>
        (hoperand he).bind fun hvalue => hrest (hnext hsaved hvalue) hes

/-- Operands from left to right lack the name if their parts do. -/
theorem operands (hoists : Bool) (es : List Ir.Expr) :
    Without x (r.operands ctx hoists es) fun _ v => (∀ e ∈ es, ¬ e.Dangles x ctx.targets) →
      v.Lacks x fun values => ∀ e ∈ values, e.Lacks x :=
  .imp (h.operandsAfter hctx hoists [] es) fun _ _ hvalues => hvalues nofun

/-- Two operands lack the name if their parts do. -/
theorem operandPair (hoists : Bool) (left right : Ir.Expr) :
    Without x (r.operandPair ctx hoists left right) fun _ v =>
      ¬ left.Dangles x ctx.targets → ¬ right.Dangles x ctx.targets →
        v.Lacks x fun both => both.1.Lacks x ∧ both.2.Lacks x := by
  refine .bind (h.operands hctx hoists [left, right]) fun both => ?_
  have hboth : ¬ left.Dangles x ctx.targets → ¬ right.Dangles x ctx.targets →
      ∀ e ∈ [left, right], ¬ e.Dangles x ctx.targets := fun hleft hright =>
    List.forall_mem_cons.2 ⟨hleft, List.forall_mem_cons.2 ⟨hright, nofun⟩⟩
  split
  · rename_i heq
    refine .pure fun _ hvalues hleft hright => (hvalues (hboth hleft hright)).map fun hitems => ?_
    obtain ⟨ha, hb, -⟩ := lacksItems_iff.2 (heq ▸ hitems)
    exact ⟨ha, hb⟩
  · exact .pure fun _ hvalues hleft hright =>
      (hvalues (hboth hleft hright)).map fun _ => ⟨trivial, trivial⟩

/-- What is declared is introduced. -/
theorem declare (id : Ir.Ident) (e : Ir.Expr) : Without x (r.declare ctx id e) fun _ code =>
    (x ∈ keptNames [id] → x ∈ introduced code) ∧
      (¬ e.Dangles x ctx.targets → LacksBlock x code) := by
  have hplain := hctx.withoutTailCall
  refine .ite (fun hunit => .imp (h.stmts .effect e hplain) fun _ _ hstmts => ⟨fun hx => ?_,
    fun he => hstmts he .effect⟩) fun _ => .bind (lowerIdent_without _ _) fun place =>
      .bind (.isStatement _ _ _) fun _ => .ite (fun _ => ?_) fun _ => ?_
  · rw [(of_mem_keptNames_singleton hx).2] at hunit
    cases hunit
  · refine .bind (h.stmts (.assign (.ident place)) e hplain) fun _ => .pure ?_
    rintro _ hstmts _ ⟨ty, rfl⟩
    refine ⟨fun hx => (of_mem_keptNames_singleton hx).1 ▸ List.mem_cons_self, fun he => ?_⟩
    exact .declare _ _ _ trivial fun hne => hstmts he (.assign hne)
  · refine .bind (h.expr true e hplain) fun _ => .pure ?_
    rintro _ hvalue _ ⟨ty, rfl⟩
    refine ⟨fun hx => ?_, fun he => (hvalue he).block fun hvalue => .single hvalue⟩
    rw [introduced_append]
    exact List.mem_append_right _ ((of_mem_keptNames_singleton hx).1 ▸ List.mem_cons_self)

/-- A closure lacks the name if it binds it or its body does not refer to it. -/
theorem closure (params : List Ir.Ident) (body : Ir.Expr) :
    Without x (r.closure ctx params body) fun _ code =>
      (x ∉ keptParams params → ¬ body.Dangles x ctx.targets) → code.Lacks x := by
  refine .bind (lowerIdents_without _ _) fun _ => .bind (h.stmts _ body hctx.withoutTailCall)
    fun _ => .bind (lowerType_without _ _) fun _ => .pure fun _ _ hstmts hargs hbody => ?_
  by_cases hx : x ∈ keptParams params
  · exact .inl (hargs ▸ keptParams_subset params hx)
  · exact .inr (hstmts (hbody hx) (.ofType _ fun _ _ => nofun))

omit h hctx in

/-- The body of a loop lacks the name if its code does with any exit that does. -/
theorem lacks_loopBody (loop : TailCall) (isUnit : Bool) {copies body : List Stmt}
    (hcode : ∀ exit, LacksBlock x exit → LacksBlock x (copies ++ (body ++ exit))) :
    LacksBlock x (loopBody loop (.ofType isUnit) copies body) := by
  refine .single ⟨trivial, ?_⟩
  rw [List.append_assoc]
  refine hcode _ ?_
  split
  · exact .single trivial
  · exact .nil

/-- The parameters of a function are bound in its body, and so are the slots if they are the
parameters. -/
theorem function (name : Option String) (params : List Ir.Ident) (body : Ir.Expr) :
    Without x (r.function ctx name params body) fun _ f =>
      (x ∉ keptParams params → ¬ body.Dangles x ctx.targets) →
        x ∈ f.1.map (·.name) ∨ LacksBlock x f.2.1 := by
  have hdeclared : ∀ {args : List Ident} {code : List Stmt},
      args.map (·.name) = (declaredParams params).map (·.name) →
      (x ∉ keptParams params → ¬ body.Dangles x ctx.targets) →
      (¬ body.Dangles x ctx.targets → LacksBlock x code) →
      x ∈ args.map (·.name) ∨ LacksBlock x code := by
    intro args code hargs hbody hcode
    by_cases hx : x ∈ keptParams params
    · exact .inl (hargs ▸ keptParams_subset params hx)
    · exact .inr (hcode (hbody hx))
  unfold Parts.function
  dsimp only
  refine .bind (lowerType_without _ _) fun _ => ?_
  split
  · refine .bind (.allocateTailCall _ _) fun loop =>
      .bind (.inFunction (h.stmts (.ofType body.type.isUnit) body (hctx.withTailCall loop)))
        fun inner => .ite (fun hlooped => .bind (loopParams_without _ _) fun _ => .pure ?_)
          fun hlooped => .bind (lowerIdents_without _ _) fun _ => .pure ?_
    · rintro _ ⟨hnames, hcopies⟩ hinner ⟨hparams, hlength⟩ _ hbody
      by_cases hslots : x ∈ loop.slots
      · exact .inl (hnames ▸ (List.map_snd_zip hlength.ge).symm ▸ hslots)
      · have hsource : loop.bindings.map (·.1) = loop.params := List.map_fst_zip hlength.le
        rw [hsource, hparams] at hcopies
        refine .inr (lacks_loopBody _ _ fun exit hexit => hcopies _ ?_ fun hx => .append ?_ hexit)
        · rintro b hb rfl
          exact hslots (List.of_mem_zip hb).2
        · refine hinner (hbody hx) (.ofType _ fun _ l hl => ?_)
          exact Option.some.inj hl ▸ hslots
    · intro _ hargs hinner _ _ hbody
      exact hdeclared hargs hbody fun he =>
        hinner he (.ofType _ fun htrue => absurd htrue hlooped)
  · exact .bind (h.stmts _ body hctx.withoutTailCall) fun _ =>
      .bind (lowerIdents_without _ _) fun _ => .pure fun _ hargs hstmts _ hbody =>
        hdeclared hargs hbody fun he => hstmts he (.ofType _ fun _ _ => nofun)

/-- A function is introduced where it is declared. -/
theorem localFunction (id : Ir.Ident) (params : List Ir.Ident) (body : Ir.Expr) :
    Without x (r.localFunction ctx id params body) fun _ stmt =>
      (x ∈ keptNames [id] → x ∈ introduced [stmt]) ∧
        ((x ∉ keptParams params → ¬ body.Dangles x ctx.targets) → stmt.Lacks x) :=
  .bind (h.function hctx _ _ _) fun _ => .pure fun _ hf =>
    ⟨fun hx => (of_mem_keptNames_singleton hx).1 ▸ List.mem_cons_self, hf⟩

/-! ## Expressions -/

/-- An array, a tuple, a record or a case of a union lacks the name if its parts do. -/
theorem aggregate (hoists : Bool) (kind : Ir.Aggregate) (values : List Ir.Expr)
    (loc : Option Ir.Location) :
    Without x (r.aggregate ctx hoists kind values loc) fun _ v =>
      (∀ e ∈ values, ¬ e.Dangles x ctx.targets) → v.Lacks x (Expr.Lacks x) := by
  cases kind with
  | array =>
    exact .bind (h.operands hctx hoists values) fun _ => .bind (lowerType_without _ _) fun _ =>
      .pure fun _ _ hitems hvalues => (hitems hvalues).map lacksItems_iff.2
  | tuple =>
    exact .bind (tupleConstructor_without _ _ _) fun _ => .bind (h.operands hctx hoists values)
      fun _ => .pure fun _ hitems hcallee hvalues => (hitems hvalues).map fun hitems =>
        ⟨hcallee, lacksItems_iff.2 hitems, trivial⟩
  | record =>
    exact .bind (constructorOf_without hctx _) fun _ => .bind (h.operands hctx hoists values)
      fun _ => .pure fun _ hitems hcallee hvalues => (hitems hvalues).map fun hitems =>
        ⟨hcallee, lacksItems_iff.2 hitems, trivial⟩
  | union =>
    exact .bind (constructorOf_without hctx _) fun _ => .bind (h.operands hctx hoists values)
      fun _ => .pure fun _ hitems hcallee hvalues => (hitems hvalues).map fun hitems =>
        ⟨hcallee, ⟨trivial, lacksItems_iff.2 hitems, trivial⟩, trivial⟩
  | anonymous => exact .fail _

/-- A call lacks the name if its parts do. -/
theorem call (hoists : Bool) (callee : Ir.Expr) (receiver : Option Ir.Expr)
    (args : List Ir.Expr) : Without x (r.call ctx hoists callee receiver args) fun _ v =>
      (∀ e ∈ callee :: (receiver.toList ++ args), ¬ e.Dangles x ctx.targets) →
        v.Lacks x (Expr.Lacks x) := by
  refine .bind (h.operands hctx hoists _) fun all => ?_
  have hparts : (∀ e ∈ callee :: (receiver.toList ++ args), ¬ e.Dangles x ctx.targets) →
      ∀ e ∈ callee :: (receiver.toList ++ discardUnitArg args), ¬ e.Dangles x ctx.targets := by
    have hkept := ((discardUnitArg_sublist args).append_left receiver.toList).cons_cons callee
    exact fun hes e he => hes e (hkept.subset he)
  split
  · rename_i heq
    refine .pure fun _ hall hes => (hall (hparts hes)).map fun hvalues => ?_
    obtain ⟨hf, hitems⟩ := List.forall_mem_cons.1 (heq ▸ hvalues)
    exact ⟨hf, lacksItems_iff.2 hitems, trivial⟩
  · exact .pure fun _ hall hes => (hall (hparts hes)).map fun _ => trivial

omit h hctx in

/-- A chain of calls lacks the name if the callee and the arguments do. -/
theorem lacks_foldl_callWith {f : Expr} {args : List Expr} (hf : f.Lacks x)
    (hargs : ∀ e ∈ args, e.Lacks x) :
    (args.foldl (fun f arg => .callWith f [arg]) f).Lacks x := by
  induction args generalizing f with
  | nil => exact hf
  | cons arg args ih =>
    obtain ⟨harg, hargs⟩ := List.forall_mem_cons.1 hargs
    exact ih ⟨hf, ⟨harg, trivial⟩, trivial⟩ hargs

/-- An application to curried arguments lacks the name if its parts do. -/
theorem applied (hoists : Bool) (f : Ir.Expr) (args : List Ir.Expr) :
    Without x (r.applied ctx hoists f args) fun _ v =>
      (∀ e ∈ f :: args, ¬ e.Dangles x ctx.targets) → v.Lacks x (Expr.Lacks x) := by
  refine .bind (h.operands hctx hoists (f :: args)) fun all => ?_
  split
  · rename_i heq
    refine .pure fun _ hall hes => (hall hes).map fun hvalues => ?_
    obtain ⟨hf, hitems⟩ := List.forall_mem_cons.1 (heq ▸ hvalues)
    exact lacks_foldl_callWith hf hitems
  · exact .pure fun _ hall hes => (hall hes).map fun _ => trivial

/-- What the right operand introduces stays in a block of its own. -/
theorem logical (hoists : Bool) (op : LogicalOp) (left right : Ir.Expr) :
    Without x (r.logical ctx hoists op left right) fun _ v => ¬ left.Dangles x ctx.targets →
      ¬ right.Dangles x ctx.targets → v.Lacks x (Expr.Lacks x) := by
  refine .bind (h.expr hoists left hctx) fun a => .bind (h.expr hoists right hctx) fun b =>
    .ite (fun hempty => .pure fun _ hb ha hleft hright => ?_) fun _ =>
      .bind (freshLocal_without _ _ _) fun id => .pure fun _ hid hb ha hleft hright => ?_
  · exact (ha hleft).map fun ha => ⟨ha, (hb hright).value_of_isEmpty hempty⟩
  · refine (ha hleft).bind (w := ⟨_, _⟩) fun ha => ?_
    refine .declare (v := ⟨[_], Expr.ident id⟩) id .var (some a.value) ha fun hname => ?_
    have hvalue : (Expr.ident id).Lacks x := hid hname
    refine .of_block (.single ⟨?_, ?_, LacksBlock.nil⟩) hvalue
    · cases op <;> exact hvalue
    · exact (hb hright).block fun hb => .single ⟨hvalue, hb⟩

/-- A conditional lacks the name if its parts do. -/
theorem conditional (hoists : Bool) (guard thenExpr elseExpr : Ir.Expr) (ty : Ir.Ty) :
    Without x (r.conditional ctx hoists guard thenExpr elseExpr ty) fun _ v =>
      (∀ e ∈ [guard, thenExpr, elseExpr], ¬ e.Dangles x ctx.targets) →
        v.Lacks x (Expr.Lacks x) := by
  refine .bind (h.expr hoists guard hctx) fun test => .bind (h.expr hoists thenExpr hctx) fun a =>
    .bind (h.expr hoists elseExpr hctx) fun b => ?_
  have hbranches : ∀ {id : Option Ident}, (∀ y ∈ id, (Expr.ident y).Lacks x) →
      test.value.Lacks x → a.Lacks x (Expr.Lacks x) → b.Lacks x (Expr.Lacks x) →
      LacksBlock x [.ifElse test.value (a.before ++ branchEnd id a.value)
        (b.before ++ branchEnd id b.value)] := fun hid htest ha hb =>
    .single ⟨htest, ha.block (lacks_branchEnd hid), hb.block (lacks_branchEnd hid)⟩
  simp only [List.forall_mem_cons]
  refine .ite (fun hempty => .pure fun _ hb ha htest ⟨hg, ht, he, _⟩ => ?_) fun _ =>
    .ite (fun _ => ?_) fun _ => .bind (freshLocal_without _ _ _) fun id => ?_
  · obtain ⟨hthen, helse⟩ := Bool.and_eq_true_iff.1 hempty
    exact (htest hg).map fun htest =>
      ⟨htest, (ha ht).value_of_isEmpty hthen, (hb he).value_of_isEmpty helse⟩
  · rw [pure_bind]
    refine .pure fun _ hb ha htest ⟨hg, ht, he, _⟩ => ?_
    rw [List.append_assoc]
    exact (htest hg).bind (w := ⟨_, _⟩) fun htest =>
      .of_block (hbranches nofun htest (ha ht) (hb he)) trivial
  · rw [pure_bind]
    refine .pure fun _ hid hb ha htest ⟨hg, ht, he, _⟩ => ?_
    rw [List.append_assoc]
    refine (htest hg).bind (w := ⟨_, _⟩) fun htest => ?_
    refine .declare (v := ⟨[_], Expr.ident id⟩) id .var none trivial fun hname => ?_
    have hvalue : ∀ y ∈ some id, (Expr.ident y).Lacks x := fun y hy =>
      Option.some.inj hy ▸ hid hname
    exact .of_block (hbranches hvalue htest (ha ht) (hb he)) (hid hname)

/-- A success node that is an expression has no values, so it is in the scope of nothing. -/
theorem exprCore (hoists : Bool) (e : Ir.Expr) : Without x (r.exprCore ctx hoists e) fun _ v =>
    (∀ index values ty, e = .success index values ty → values = []) → ¬ e.Dangles x ctx.targets →
      v.Lacks x (Expr.Lacks x) := by
  cases e with
  | literal value => exact .pure fun _ _ _ => .pure (lacks_literalValue hctx value)
  | option value =>
    cases value with
    | none => exact .pure fun _ _ _ => .pure trivial
    | some value =>
      exact .imp (h.expr hoists value hctx) fun _ _ hvalue _ he =>
        hvalue (not_dangles_child he rfl List.mem_cons_self)
  | aggregate kind values =>
    exact .imp (h.aggregate hctx hoists kind values _) fun _ _ hcode _ he =>
      hcode fun _ => not_dangles_child he rfl
  | ident id =>
    refine .ite (fun _ => .pure fun _ _ _ => .pure trivial) fun hthis =>
      .bind (lowerIdent_without _ _) fun place => .pure ?_
    rintro _ ⟨ty, rfl⟩ _ he
    exact .pure fun hname => he (.ident (Bool.not_eq_true _ ▸ hthis) hname)
  | cast inner =>
    refine .bind (h.expr hoists inner hctx) fun _ => .ite (fun _ => .pure fun _ hvalue _ he => ?_)
      fun _ => .bind (lowerType_without _ _) fun _ => .pure fun _ _ hvalue _ he => ?_
    · exact hvalue (not_dangles_child he rfl List.mem_cons_self)
    · exact (hvalue (not_dangles_child he rfl List.mem_cons_self)).map id
  | imported =>
    exact .bind (importedValue_without _ _ _ _) fun _ => .pure fun _ hvalue _ _ => .pure hvalue
  | lambda arg body | delegate args body =>
    exact .bind (h.closure hctx _ body) fun _ => .pure fun _ hvalue _ he =>
      .pure (hvalue (not_dangles_part he List.mem_cons_self))
  | object => exact .fail _
  | call callee receiver args =>
    exact .ite (fun _ => .fail _) fun _ => .imp (h.call hctx hoists callee receiver args)
      fun _ _ hcode _ he => hcode fun _ => not_dangles_child he rfl
  | apply f args =>
    exact .imp (h.applied hctx hoists f args) fun _ _ hcode _ he =>
      hcode fun _ => not_dangles_child he rfl
  | unary op operand =>
    refine .bind (h.expr hoists operand hctx) fun _ => ?_
    split <;>
    · refine .pure fun _ hvalue _ he => ?_
      exact (hvalue (not_dangles_child he rfl List.mem_cons_self)).map id
  | binary op left right =>
    exact .bind (h.operandPair hctx hoists left right) fun ⟨_, _, _⟩ =>
      .bind (binaryValue_without _ _ _ _ _) fun _ => .pure fun _ hvalue hboth _ he =>
        (hboth (not_dangles_child he rfl List.mem_cons_self)
          (not_dangles_child he rfl (by simp [Ir.Expr.children]))).map
            fun hboth => hvalue hboth.1 hboth.2
  | logical op left right =>
    exact .imp (h.logical hctx hoists _ left right) fun _ _ hcode _ he =>
      hcode (not_dangles_child he rfl List.mem_cons_self)
        (not_dangles_child he rfl (by simp [Ir.Expr.children]))
  | emit template args =>
    exact .bind (h.operands hctx hoists args) fun _ => .pure fun _ hargs _ he =>
      (hargs fun _ => not_dangles_child he rfl).map lacksItems_iff.2
  | get obj kind =>
    exact .bind (h.expr hoists obj hctx) fun _ => .bind (access_without _ _ _ _) fun _ =>
      .pure fun _ hvalue hobj _ he =>
        (hobj (not_dangles_child he rfl List.mem_cons_self)).map hvalue
  | getIndex obj index =>
    exact .bind (h.operandPair hctx hoists obj index) fun ⟨_, _, _⟩ => .pure fun _ hboth _ he =>
      (hboth (not_dangles_child he rfl List.mem_cons_self)
        (not_dangles_child he rfl (by simp [Ir.Expr.children]))).map id
  | test value kind =>
    exact .bind (h.expr hoists value hctx) fun _ => .bind (test_without _ _ _) fun _ =>
      .pure fun _ htest hvalue _ he =>
        (hvalue (not_dangles_child he rfl List.mem_cons_self)).map htest
  | ifThenElse guard thenExpr elseExpr =>
    exact .imp (h.conditional hctx hoists guard thenExpr elseExpr _) fun _ _ hcode _ he =>
      hcode fun _ => not_dangles_child he rfl
  | decisionTree dispatcher targets =>
    exact .imp (h.expr hoists dispatcher (hctx.withTargets targets)) fun _ _ hcode _ he =>
      hcode (he ∘ .dispatcher)
  | success index =>
    refine .bind (.ofOption _ _) fun t => .imp (h.expr hoists t.body hctx) ?_
    intro _ _ hcode ht hvalues he
    obtain rfl := hvalues _ _ _ rfl
    exact hcode (he ∘ .selected ht List.not_mem_nil)
  | curry inner =>
    exact .bind (h.expr hoists inner hctx) fun _ => .bind (.importWhole _) fun _ =>
      .pure fun _ hname hvalue _ he =>
        (hvalue (not_dangles_child he rfl List.mem_cons_self)).map fun hvalue =>
          ⟨hname, ⟨hvalue, trivial⟩, trivial⟩
  | throw | debugger | set | setIndex | letIn | letRec | sequence | whileLoop | forLoop
  | tryCatch => exact .imp (h.capture hctx hoists _) fun _ _ hcode _ => hcode

omit h in

/-- The expansion of a call does not refer to the name if the call does not. -/
theorem expansion?_without (e : Ir.Expr) : Without x (expansion? ctx e) fun _ o =>
    ¬ e.Dangles x ctx.targets → ∀ expanded ∈ o, ¬ expanded.Dangles x ctx.targets := by
  unfold expansion?
  split
  · exact .imp (.expandInline hctx _ _) fun _ _ ho he =>
      ho fun _ hmem => not_dangles_child he rfl (List.mem_cons_of_mem _ hmem)
  · exact .pure fun _ _ => nofun

omit h hctx in

/-- A success node that is not captured has no values. -/
theorem isCaptured_without (e : Ir.Expr) : Without x (isCaptured ctx e) fun _ isCaptured =>
    isCaptured = false → ∀ index values ty, e = .success index values ty → values = [] := by
  cases e with
  | success =>
    refine .imp (.isStatement _ _ _) fun _ _ hstatement hcaptured index values ty he => ?_
    exact values_eq_nil_of_isStatement (he ▸ hcaptured ▸ hstatement)
  | _ => exact .imp (.of_any (Deepens.below_isCaptured _ _)) fun _ _ _ _ => nofun

/-- Any node in the place of an expression lacks the name if the source does not refer to it. -/
theorem exprRule (hoists : Bool) (e : Ir.Expr) : Without x (r.exprRule ctx hoists e) fun _ v =>
    ¬ e.Dangles x ctx.targets → v.Lacks x (Expr.Lacks x) := by
  refine .bind (expansion?_without hctx e) fun expanded => ?_
  cases expanded with
  | some expanded =>
    exact .imp (h.expr hoists expanded hctx) fun _ _ hcode hexpanded he =>
      hcode (hexpanded he expanded rfl)
  | none =>
    refine .bind (isCaptured_without e) fun _ => .ite (fun _ => ?_) fun hcaptured => ?_
    · exact .imp (h.capture hctx hoists e) fun _ _ hcode _ _ => hcode
    · exact .imp (h.exprCore hctx hoists e) fun _ _ hvalue hvalues _ =>
        hvalue (hvalues (Bool.not_eq_true _ ▸ hcaptured))

/-! ## Statements -/

/-- Nodes as expressions lack the name if their parts do. -/
theorem values (es : List Ir.Expr) : Without x (r.values ctx es) fun _ v =>
    (∀ e ∈ es, ¬ e.Dangles x ctx.targets) → v.Lacks x fun values => ∀ e ∈ values, e.Lacks x := by
  induction es with
  | nil => exact .pure fun _ _ => .pure nofun
  | cons e es ih =>
    refine .bind (h.expr true e hctx) fun first => .bind ih fun rest => .pure ?_
    intro _ hrest hfirst hes
    obtain ⟨he, hes⟩ := List.forall_mem_cons.1 hes
    exact (hfirst he).bind (w := ⟨rest.before, first.value :: rest.value⟩) fun hvalue =>
      (hrest hes).map fun hvalues => List.forall_mem_cons.2 ⟨hvalue, hvalues⟩

/-- A jump makes use of the loop, so its slots are to lack the name. -/
theorem tailCall (loop : TailCall) (args : List Ir.Expr) :
    Without x (r.tailCall ctx loop args) fun looped code =>
      (∀ e ∈ args, ¬ e.Dangles x ctx.targets) → (looped = true → x ∉ loop.slots) →
        LacksBlock x code := by
  refine .bind .markLooped fun _ => .bind (h.values hctx.withoutTailCall _) fun _ =>
    .bind (slotWrites_without _ _ _) fun _ => .pure ?_
  intro _ hwrites hvalues hlooped hargs hslots
  rw [List.append_assoc]
  refine (hvalues fun e he => hargs e (mem_of_mem_discardUnitArg he)).block fun hvalues => ?_
  refine .append (hwrites ?_ hvalues) (.single trivial)
  rintro b hb rfl
  exact hslots hlooped (List.of_mem_zip hb).2

/-- What a recursive let binds is introduced. -/
theorem recursive (bs : List Ir.Binding) : Without x (r.recursive ctx bs) fun _ code =>
    (x ∈ keptNames (bs.map (·.ident)) → x ∈ introduced code) ∧
      ((∀ b ∈ bs, ¬ b.value.Dangles x ctx.targets) → LacksBlock x code) := by
  induction bs with
  | nil => exact .pure fun _ => ⟨fun hx => absurd hx List.not_mem_nil, fun _ => .nil⟩
  | cons b bs ih =>
    rcases recursive_cons r ctx b bs with ⟨params, body, name, hvalue, heq⟩ | heq
    · rw [heq]
      refine .bind (h.localFunction hctx b.ident params body) fun first => .bind ih fun rest =>
        .pure ?_
      rintro _ ⟨hids, hrest⟩ ⟨hid, hfirst⟩
      refine ⟨mem_introduced_cons hid hids, fun hbs => ?_⟩
      obtain ⟨hb, hbs⟩ := List.forall_mem_cons.1 hbs
      exact .cons (hfirst (not_dangles_functionBody hb hvalue)) (hrest hbs)
    · rw [heq]
      refine .bind (h.declare hctx b.ident b.value) fun first => .bind ih fun rest => .pure ?_
      rintro _ ⟨hids, hrest⟩ ⟨hid, hfirst⟩
      refine ⟨mem_introduced_cons hid hids, fun hbs => ?_⟩
      obtain ⟨hb, hbs⟩ := List.forall_mem_cons.1 hbs
      exact .append (hfirst hb) (hrest hbs)

/-- A sequence lacks the name if its nodes do not refer to it. -/
theorem sequence (strategy : Strategy Expr) (es : List Ir.Expr) :
    Without x (r.sequence ctx strategy es) fun looped code =>
      (∀ e ∈ es, ¬ e.Dangles x ctx.targets) →
        (∀ e ∈ es.getLast?, Spares x (Expr.Lacks x) ctx strategy looped e) →
          LacksBlock x code := by
  induction es with
  | nil => exact .pure fun _ _ _ => lacks_deliverUnit strategy
  | cons e es ih =>
    cases es with
    | nil =>
      exact .imp (h.stmts strategy e hctx) fun _ _ hcode hes hspares =>
        hcode (hes e List.mem_cons_self) (hspares e rfl)
    | cons e' es =>
      refine .bind (h.stmts .effect e hctx.withoutTailCall) fun _ => .bind ih fun _ => .pure ?_
      intro _ hrest hfirst hes hspares
      obtain ⟨he, hes⟩ := List.forall_mem_cons.1 hes
      rw [List.getLast?_cons_cons] at hspares
      exact .append (hfirst he .effect) (hrest hes hspares)

/-- An assignment lacks the name if its place and its value do. -/
theorem assignment (place : Expr) (e : Ir.Expr) :
    Without x (r.assignment ctx.withoutTailCall place e) fun _ code =>
      place.Lacks x → ¬ e.Dangles x ctx.targets → LacksBlock x code := by
  refine .bind (.isStatement _ _ _) fun _ => .ite (fun _ => ?_) fun _ => ?_
  · exact .imp (h.stmts (.assign place) e hctx.withoutTailCall) fun _ _ hcode _ hplace he =>
      hcode he (.assign hplace)
  · exact .bind (h.expr true e hctx.withoutTailCall) fun _ => .pure fun _ hvalue _ hplace he =>
      (hvalue he).block fun hvalue => .single ⟨hplace, hvalue⟩

omit h hctx in

/-- A loop lacks the name if its parts do. -/
theorem lacks_whileStmt {guard : Hoisted Expr} {body : List Stmt}
    (hguard : guard.Lacks x (Expr.Lacks x)) (hbody : LacksBlock x body) :
    (whileStmt guard body).Lacks x := by
  rw [whileStmt]
  split
  · exact ⟨hguard.value_of_isEmpty ‹_›, hbody⟩
  · refine ⟨trivial, hguard.block fun hguard => .cons ⟨hguard, ?_, LacksBlock.nil⟩ hbody⟩
    exact .inr ⟨trivial, trivial⟩

/-- The counter is bound in the loop. -/
theorem forLoop (id : Ir.Ident) (start limit body : Ir.Expr) (isUp : Bool) :
    Without x (r.forLoop ctx.withoutTailCall id start limit body isUp) fun _ code =>
      ¬ start.Dangles x ctx.targets → ¬ limit.Dangles x ctx.targets →
        (x ∉ [id.name] → ¬ body.Dangles x ctx.targets) → LacksBlock x code := by
  have hplain := hctx.withoutTailCall
  refine .bind (h.expr true start hplain) fun _ => .bind (h.expr true limit hplain) fun _ =>
    .bind (h.stmts .effect body hplain) fun _ => .bind (lowerIdent_without _ _) fun _ => .pure ?_
  rintro _ ⟨ty, rfl⟩ hstmts hlimit hstart hs hl hb
  rw [List.append_assoc]
  refine (hstart hs).block fun hstart => (hlimit hl).block fun hlimit => .single ?_
  by_cases hx : x ∈ [id.name]
  · exact .inl (List.mem_singleton.1 hx).symm
  · exact .inr ⟨hstart, hlimit, hstmts (hb hx) .effect⟩

/-- A handler lacks the name if it binds it or its body does not refer to it. -/
theorem handler (strategy : Strategy Expr) (hd : Option Ir.Handler) :
    Without x (r.handler ctx.withoutTailCall strategy hd) fun looped code =>
      (∀ y ∈ hd, x ∉ [y.param.name] → ¬ y.body.Dangles x ctx.targets) →
        (∀ y ∈ hd, Spares x (Expr.Lacks x) ctx.withoutTailCall strategy looped y.body) →
          LacksHandler x code := by
  cases hd with
  | none => exact .pure fun _ _ _ => trivial
  | some hd =>
    refine .bind (lowerIdent_without _ _) fun _ =>
      .bind (h.stmts strategy hd.body hctx.withoutTailCall) fun _ => .pure ?_
    rintro _ hstmts ⟨ty, rfl⟩ hhd hspares
    by_cases hx : x ∈ [hd.param.name]
    · exact .inl (List.mem_singleton.1 hx).symm
    · exact .inr (hstmts (hhd hd rfl hx) (hspares hd rfl))

/-- A finalizer lacks the name if its parts do. -/
theorem finalizer (o : Option Ir.Expr) :
    Without x (r.finalizer ctx.withoutTailCall o) fun _ code =>
      (∀ e ∈ o, ¬ e.Dangles x ctx.targets) → LacksFinalizer x code := by
  cases o with
  | none => exact .pure fun _ _ => trivial
  | some e =>
    exact .bind (h.stmts .effect e hctx.withoutTailCall) fun _ => .pure fun _ hstmts ho =>
      hstmts (ho e rfl) .effect

omit h in
/-- All that targets bind is declared before a switch. -/
theorem targetVariables_without (targets : List Ir.Target) :
    Without x (targetVariables ctx targets) fun _ code => LacksStmts x code ∧
      ∀ t ∈ targets, ∀ id ∈ t.bound, id.name = x → x ∈ introduced code := by
  refine .bind (lowerIdents_without _ _) fun ids => .pure fun _ hids => ⟨?_, ?_⟩
  · clear hids
    induction ids with
    | nil => exact trivial
    | cons id ids ih => exact ⟨trivial, ih⟩
  · intro t ht id hid hname
    have hdeclared : introduced (ids.map fun id => .declare id .late none) = ids.map (·.name) := by
      rw [introduced, List.flatMap_map]
      exact List.flatMap_pure_eq_map _ _
    rw [hdeclared, hids]
    refine hname ▸ List.mem_map_of_mem (List.mem_flatMap.2 ⟨t, List.mem_filter.2 ⟨ht, ?_⟩, hid⟩)
    cases hhoists : ctx.hoists t.bound with
    | false => rfl
    | true => exact absurd hname (hctx.hoists _ hhoists id hid)

/-- The bodies of targets lack the name if the source does not refer to it. -/
theorem targetBodies (strategy : Strategy Expr) (ts : List Ir.Target) :
    Without x (r.targetBodies ctx strategy ts) fun looped bodies =>
      (∀ t ∈ ts, ¬ t.body.Dangles x ctx.targets) →
        (∀ t ∈ ts, Spares x (Expr.Lacks x) ctx strategy looped t.body) →
          ∀ b ∈ bodies, LacksBlock x b := by
  induction ts with
  | nil => exact .pure fun _ _ _ => nofun
  | cons t ts ih =>
    refine .bind (h.stmts strategy t.body hctx) fun _ => .bind ih fun _ => .pure ?_
    intro _ hrest hbody hts hspares
    obtain ⟨ht, hts⟩ := List.forall_mem_cons.1 hts
    obtain ⟨hspare, hspares⟩ := List.forall_mem_cons.1 hspares
    exact List.forall_mem_cons.2 ⟨hbody ht hspare, hrest hts hspares⟩

omit h hctx in

/-- The switch over the selected target lacks the name if its parts do. -/
theorem lacks_dispatch {join : String} {bodies : List (List Stmt)} (hjoin : join ≠ x)
    (hbodies : ∀ b ∈ bodies, LacksBlock x b) : (dispatch join bodies).Lacks x := by
  have hcases : ∀ {numbered : List (List Stmt × Nat)}, (∀ c ∈ numbered, LacksBlock x c.1) →
      LacksCases x (numbered.map fun c => ⟨[.integer c.2], c.1⟩) := by
    intro numbered hnumbered
    induction numbered with
    | nil => exact trivial
    | cons c numbered ih =>
      obtain ⟨hc, hnumbered⟩ := List.forall_mem_cons.1 hnumbered
      exact ⟨⟨trivial, trivial⟩, hc, ih hnumbered⟩
  refine ⟨hjoin, hcases fun c hc => hbodies _ ?_, ?_⟩
  · exact List.dropLast_subset _ (List.fst_mem_of_mem_zipIdx hc)
  · cases hlast : bodies.getLast? with
    | none => exact trivial
    | some last => exact hbodies last (List.mem_of_getLast? hlast)

/-- Where a target is shared, the code begins with declarations of what all targets bind. -/
theorem decisionTree (strategy : Strategy Expr) (dispatcher : Ir.Expr)
    (targets : List Ir.Target) :
    Without x (r.decisionTree ctx strategy dispatcher targets) fun looped code =>
      ¬ (Ir.Expr.decisionTree dispatcher targets).Dangles x ctx.targets →
        Spares x (Expr.Lacks x) ctx strategy looped (.decisionTree dispatcher targets) →
          LacksBlock x code := by
  refine .ite (fun _ => ?_) fun hshared => .bind (.of_any (.allocateLocal _)) fun join =>
    .bind (targetVariables_without hctx targets) fun _ =>
      .bind (h.stmts (.join join) dispatcher (hctx.withTargets targets).withoutTailCall) fun _ =>
        .bind (h.targetBodies hctx strategy targets) fun _ => .pure ?_
  · exact .imp (h.stmts strategy dispatcher (hctx.withTargets targets)) fun _ _ hcode he hspares =>
      hcode (he ∘ .dispatcher) hspares.dispatcher
  · rintro _ hbodies hselect ⟨hdeclared, hintroduced⟩ _ he hspares
    refine .declare _ _ _ trivial fun hjoin => ?_
    by_cases hbound : ∃ t ∈ targets, ∃ id ∈ t.bound, id.name = x
    · obtain ⟨t, ht, id, hid, hname⟩ := hbound
      exact .left (introduced_append _ _ ▸ List.mem_append_left _
        (hintroduced t ht id hid hname)) _
    have hfree : ∀ t ∈ targets, ∀ id ∈ t.bound, id.name ≠ x :=
      fun t ht id hid hname => hbound ⟨t, ht, id, hid, hname⟩
    refine .append (.append (.inr hdeclared) ?_) (.single (lacks_dispatch hjoin ?_))
    · refine hselect (he ∘ .dispatcher) ⟨fun _ _ => nofun, nofun, fun name hname => ?_⟩
      obtain rfl := Strategy.join.inj hname
      refine ⟨hjoin, hfree, fun d inner hends t ht id hid hname => he ?_⟩
      exact .nested (hshared ∘ List.isEmpty_iff.2) hends ht hid hname
    · refine hbodies (fun t ht => not_dangles_part he (List.mem_map_of_mem ht) fun hx => ?_)
        fun t ht => hspares.part (List.mem_cons_of_mem _ (List.mem_map_of_mem ht))
      obtain ⟨id, hid, -, hname⟩ := exists_of_mem_keptNames hx
      exact hfree t ht id hid hname

/-- What a target binds is introduced where a success node gives a value for it. -/
theorem bindings (ids : List Ir.Ident) (values : List Ir.Expr) :
    Without x (r.bindings ctx ids values) fun _ code =>
      (x ∈ keptNames (ids.take values.length) → x ∈ introduced code) ∧
        ((∀ e ∈ values, ¬ e.Dangles x ctx.targets) → LacksBlock x code) := by
  induction ids generalizing values with
  | nil =>
    rw [List.take_nil]
    exact .pure fun _ => ⟨fun hx => absurd hx List.not_mem_nil, fun _ => .nil⟩
  | cons id ids ih =>
    cases values with
    | nil => exact .pure fun _ => ⟨fun hx => absurd hx List.not_mem_nil, fun _ => .nil⟩
    | cons value values =>
      rw [List.length_cons, List.take_succ_cons]
      refine .bind (h.declare hctx id value) fun _ => .bind (ih values) fun _ => .pure ?_
      rintro _ ⟨hids, hrest⟩ ⟨hid, hfirst⟩
      refine ⟨mem_introduced_cons hid hids, fun hvalues => ?_⟩
      obtain ⟨hvalue, hvalues⟩ := List.forall_mem_cons.1 hvalues
      exact .append (hfirst hvalue) (hrest hvalues)

/-- Assignments to what a target binds lack the name if the target binds others. -/
theorem assignments (ids : List Ir.Ident) (values : List Ir.Expr) :
    Without x (r.assignments ctx ids values) fun _ code => (∀ id ∈ ids, id.name ≠ x) →
      (∀ e ∈ values, ¬ e.Dangles x ctx.targets) → LacksBlock x code := by
  induction ids generalizing values with
  | nil => exact .pure fun _ _ _ => .nil
  | cons id ids ih =>
    cases values with
    | nil => exact .pure fun _ _ _ => .nil
    | cons value values =>
      refine .bind (lowerIdent_without _ _) fun place =>
        .bind (h.stmts (.assign (.ident place)) value hctx.withoutTailCall) fun _ =>
          .bind (ih values) fun _ => .pure ?_
      rintro _ hrest hfirst ⟨ty, rfl⟩ hids hvalues
      obtain ⟨hid, hids⟩ := List.forall_mem_cons.1 hids
      obtain ⟨hvalue, hvalues⟩ := List.forall_mem_cons.1 hvalues
      exact .append (hfirst hvalue (.assign hid)) (hrest hids hvalues)

/-- A success node lacks the name if the selected target does not refer to it. -/
theorem success (strategy : Strategy Expr) (index : Nat) (values : List Ir.Expr) (ty : Ir.Ty) :
    Without x (r.success ctx strategy index values) fun looped code =>
      ¬ (Ir.Expr.success index values ty).Dangles x ctx.targets →
        Spares x (Expr.Lacks x) ctx strategy looped (.success index values ty) →
          LacksBlock x code := by
  refine .bind (.ofOption _ _) fun t => ?_
  have hvalues : ¬ (Ir.Expr.success index values ty).Dangles x ctx.targets →
      ∀ e ∈ values, ¬ e.Dangles x ctx.targets := fun he _ => not_dangles_child he rfl
  cases strategy with
  | join name =>
    refine .bind (h.assignments hctx t.bound values) fun stmts => .pure ?_
    intro _ hstmts ht he hspares
    obtain ⟨hname, hids, -⟩ := hspares.join name rfl
    exact .append (hstmts (hids t (List.mem_of_getElem? ht)) (hvalues he))
      (.single ⟨hname, trivial⟩)
  | ret | effect | assign =>
    refine .bind (h.bindings hctx t.bound values) fun stmts =>
      .bind (h.stmts _ t.body hctx) fun _ => .pure ?_
    rintro _ hbody ⟨hbound, hstmts⟩ ht he hspares
    by_cases hx : x ∈ keptNames (t.bound.take values.length)
    · exact .left (hbound hx) _
    · exact .append (hstmts (hvalues he)) (hbody (he ∘ .selected ht hx) (hspares.target rfl t))

/-- A conditional statement lacks the name if its parts do. -/
theorem conditionalStmts (strategy : Strategy Expr) (guard thenExpr elseExpr : Ir.Expr) :
    Without x (r.conditionalStmts ctx strategy guard thenExpr elseExpr) fun looped code =>
      (∀ e ∈ [guard, thenExpr, elseExpr], ¬ e.Dangles x ctx.targets) →
        (∀ e ∈ [thenExpr, elseExpr], Spares x (Expr.Lacks x) ctx strategy looped e) →
          LacksBlock x code := by
  refine .bind (h.expr true guard hctx.withoutTailCall) fun _ =>
    .bind (h.stmts strategy thenExpr hctx) fun _ => .bind (h.stmts strategy elseExpr hctx) fun _ =>
      .pure ?_
  intro _ helse hthen hguard hparts hspares
  simp only [List.forall_mem_cons] at hparts hspares
  obtain ⟨hg, ht, he, -⟩ := hparts
  exact (hguard hg).block fun hguard =>
    .single ⟨hguard, hthen ht hspares.1, helse he hspares.2.1⟩

/-- Any node in the place of statements lacks the name if the source does not refer to it and the
place spares it. -/
theorem stmtsRule (strategy : Strategy Expr) (e : Ir.Expr) :
    Without x (r.stmtsRule ctx strategy e) fun looped code => ¬ e.Dangles x ctx.targets →
      Spares x (Expr.Lacks x) ctx strategy looped e → LacksBlock x code := by
  have hplain := hctx.withoutTailCall
  cases e with
  | cast inner =>
    refine .bind (.of_any (Deepens.below_dropsCast _ _ _)) fun _ => .ite (fun _ => ?_) fun _ => ?_
    · exact .imp (h.stmts strategy inner hctx) fun _ _ hcode _ he hspares =>
        hcode (not_dangles_child he rfl List.mem_cons_self) (hspares.part List.mem_cons_self)
    · exact .imp (h.delivered hctx strategy _) fun _ _ hcode _ => hcode
  | call callee receiver args isNew =>
    unfold Parts.stmtsRule
    dsimp only
    split
    · rename_i loop hloop
      refine .imp (h.tailCall hctx loop args) fun _ _ hcode he hspares => ?_
      refine hcode (fun a ha => not_dangles_child he rfl ?_) fun hlooped =>
        hspares.slots hlooped loop (Option.filter_eq_some_iff.1 hloop).1
      exact List.mem_cons_of_mem _ (List.mem_append_right _ ha)
    · exact h.delivered hctx _ _
  | ifThenElse guard thenExpr elseExpr =>
    refine .bind (.isStatement _ _ _) fun _ => .ite (fun _ => ?_) fun _ => ?_
    · exact .imp (h.conditionalStmts hctx strategy guard thenExpr elseExpr)
        fun _ _ hcode _ he hspares => hcode (fun _ => not_dangles_child he rfl)
          fun _ => hspares.part
    · exact .imp (h.delivered hctx strategy _) fun _ _ hcode _ => hcode
  | decisionTree dispatcher targets => exact h.decisionTree hctx strategy dispatcher targets
  | success index values => exact h.success hctx strategy index values _
  | letIn id value body =>
    refine .bind (h.declare hctx id value) fun _ => .bind (h.stmts strategy body hctx) fun _ =>
      .pure ?_
    rintro _ hbody ⟨hbound, hfirst⟩ he hspares
    by_cases hx : x ∈ keptNames [id]
    · exact .left (hbound hx) _
    · have hbodyPart : (keptNames [id], body) ∈ (Ir.Expr.letIn id value body).keptParts :=
        List.mem_cons_of_mem _ List.mem_cons_self
      exact .append (hfirst (not_dangles_part he List.mem_cons_self List.not_mem_nil))
        (hbody (not_dangles_part he hbodyPart hx) (hspares.part List.mem_cons_self))
  | letRec bs body =>
    refine .bind (h.recursive hctx bs) fun _ => .bind (h.stmts strategy body hctx) fun _ => .pure ?_
    rintro _ hbody ⟨hbound, hfirst⟩ he hspares
    by_cases hx : x ∈ keptNames (bs.map (·.ident))
    · exact .left (hbound hx) _
    · have hparts : ∀ c ∈ bs.map (·.value) ++ [body], ¬ c.Dangles x ctx.targets :=
        fun c hc => not_dangles_part he (List.mem_map_of_mem hc) hx
      exact .append (hfirst fun b hb => hparts _ (List.mem_append_left _ (List.mem_map_of_mem hb)))
        (hbody (hparts _ (List.mem_append_right _ List.mem_cons_self))
          (hspares.part List.mem_cons_self))
  | sequence es =>
    exact .imp (h.sequence hctx strategy es) fun _ _ hcode he hspares =>
      hcode (fun _ => not_dangles_child he rfl)
        fun _ hlast => hspares.part (Option.mem_toList.2 hlast)
  | set target field value =>
    refine .bind (h.expr true target hplain) fun _ =>
      .bind (h.assignment hctx _ value) fun _ => .pure ?_
    intro _ hstmts htarget he _
    rw [List.append_assoc]
    refine (htarget (not_dangles_child he rfl List.mem_cons_self)).block fun htarget =>
      .append (hstmts ?_ (not_dangles_child he rfl (by simp [Ir.Expr.children])))
        (lacks_deliverUnit _)
    cases field <;> exact htarget
  | setIndex target index value =>
    refine .bind (h.expr true target hplain) fun _ => .bind (h.expr true index hplain) fun _ =>
      .bind (h.assignment hctx _ value) fun _ => .pure ?_
    intro _ hstmts hindex htarget he _
    rw [List.append_assoc, List.append_assoc]
    refine (htarget (not_dangles_child he rfl List.mem_cons_self)).block fun htarget =>
      (hindex (not_dangles_child he rfl (by simp [Ir.Expr.children]))).block fun hindex =>
        .append (hstmts ⟨htarget, hindex⟩ ?_) (lacks_deliverUnit _)
    exact not_dangles_child he rfl (by simp [Ir.Expr.children])
  | whileLoop guard body =>
    refine .bind (h.expr true guard hplain) fun _ => .bind (h.stmts .effect body hplain) fun _ =>
      .pure ?_
    intro _ hbody htest he _
    exact .cons (lacks_whileStmt (htest (not_dangles_child he rfl List.mem_cons_self))
      (hbody (not_dangles_child he rfl (by simp [Ir.Expr.children])) .effect)) (lacks_deliverUnit _)
  | forLoop id start limit body =>
    refine .bind (h.forLoop hctx id start limit body _) fun _ => .pure ?_
    intro _ hstmts he _
    obtain ⟨hs, hl, hb⟩ := not_dangles_forLoop he
    exact .append (hstmts hs hl hb) (lacks_deliverUnit _)
  | tryCatch body hd fin =>
    refine .bind (h.stmts strategy body hplain) fun _ => .bind (h.handler hctx strategy hd) fun _ =>
      .bind (h.finalizer hctx fin) fun _ => .pure ?_
    intro _ hfinalizer hhandler hblock he hspares
    refine .single ⟨hblock (not_dangles_part he List.mem_cons_self List.not_mem_nil)
      (hspares.part List.mem_cons_self).withoutTailCall,
      hhandler (fun _ => not_dangles_handler he) (fun y hy => ?_),
      hfinalizer fun _ => not_dangles_finalizer he⟩
    have hlast := Option.mem_toList.2 (Option.mem_map_of_mem (·.body) hy)
    exact (hspares.part (List.mem_cons_of_mem _ hlast)).withoutTailCall
  | throw error =>
    cases error with
    | some error =>
      exact .bind (h.expr true error hplain) fun _ => .pure fun _ hvalue he _ =>
        (hvalue (not_dangles_child he rfl List.mem_cons_self)).block fun hvalue => .single hvalue
    | none => exact .pure fun _ _ _ => .single trivial
  | debugger =>
    exact .bind (.importWhole _) fun _ => .pure fun _ hlibrary _ _ =>
      .cons ⟨hlibrary, trivial, trivial⟩ (lacks_deliverUnit _)
  | emit template args isStatement =>
    cases isStatement with
    | true =>
      exact .bind (h.operands hplain true args) fun _ => .pure fun _ hargs he _ =>
        (hargs fun _ => not_dangles_child he rfl).block fun hargs =>
          .cons (lacksItems_iff.2 hargs) (lacks_deliverUnit _)
    | false => exact h.delivered hctx _ _
  | literal | option | aggregate | ident | imported | lambda | delegate | object | apply | unary
  | binary | logical | get | getIndex | test | curry => exact h.delivered hctx _ _

end Parts.Omits

/-! ## The rules -/

/-- In what the rules lower to, a name is free only if the source refers to it. -/
theorem rules_omit (x : String) (n : Nat) : (rules n).Omits x := by
  induction n with
  | zero => exact ⟨fun _ _ _ => .fail _, fun _ _ _ => .fail _⟩
  | succ n ih =>
    exact ⟨fun hoists e hctx => ih.exprRule hctx hoists e,
      fun strategy e hctx => ih.stmtsRule hctx strategy e⟩

end TypedLowering.Dart
