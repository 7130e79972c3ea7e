import Mathlib.Data.Option.Basic
import TypedLowering.Printing.Program
import TypedLowering.Proofs.JavaScript.Relocation
import TypedLowering.Proofs.Printing.Rendering

/-!
# Printing code without locations

What printing asks of code, where to put parentheses and which statements to leave out, does not
depend on locations. So code without locations is printed as the same pieces without the marks
(`Program.pieces_erase`), which is the same text and maps nothing (`Printer.run_unmarked`).
-/

namespace TypedLowering

open Ir (Location)

/-! ## Pieces without marks -/

mutual

/-- A piece without the marks in it. -/
def Piece.unmarked : Piece → List Piece
  | .mark _ => []
  | .guarded stmt => [.guarded (unmarkedAll stmt)]
  | .text text => [.text text]
  | .indent => [.indent]
  | .dedent => [.dedent]
  | .margin => [.margin]

/-- The pieces without the marks in them. -/
def unmarkedAll : List Piece → List Piece
  | [] => []
  | x :: xs => x.unmarked ++ unmarkedAll xs

end

/-- No pieces have no marks. -/
@[simp] theorem unmarkedAll_nil : unmarkedAll [] = [] := rfl

/-- Marks are left out piece by piece. -/
@[simp] theorem unmarkedAll_cons (x : Piece) (xs : List Piece) :
    unmarkedAll (x :: xs) = x.unmarked ++ unmarkedAll xs := rfl

/-- Marks are left out in each of two parts. -/
@[simp] theorem unmarkedAll_append (xs ys : List Piece) :
    unmarkedAll (xs ++ ys) = unmarkedAll xs ++ unmarkedAll ys := by
  induction xs with
  | nil => rfl
  | cons x xs ih => simp only [List.cons_append, unmarkedAll_cons, ih, List.append_assoc]

attribute [simp] Piece.unmarked

mutual

/-- The text of a piece without its marks is the text of the piece. -/
theorem Piece.ink_unmarked (indent : String) (depth : Nat) : (x : Piece) →
    Ink.text (inkAll indent depth x.unmarked).1 = Ink.text (x.ink indent depth).1 ∧
      (inkAll indent depth x.unmarked).2 = (x.ink indent depth).2
  | .mark _ => ⟨rfl, rfl⟩
  | .text _ | .indent | .dedent | .margin => by simp [inkAll, Piece.ink]
  | .guarded stmt => by
    obtain ⟨htext, hdepth⟩ := inkAll_unmarked indent depth stmt
    simp only [Piece.unmarked, inkAll, Piece.ink, List.append_nil, Ink.guard, htext, hdepth,
      and_true]
    split <;> simp [htext]

/-- Pieces without their marks make the same text and leave the same depth. -/
theorem inkAll_unmarked (indent : String) (depth : Nat) : (xs : List Piece) →
    Ink.text (inkAll indent depth (unmarkedAll xs)).1 = Ink.text (inkAll indent depth xs).1 ∧
      (inkAll indent depth (unmarkedAll xs)).2 = (inkAll indent depth xs).2
  | [] => ⟨rfl, rfl⟩
  | x :: xs => by
    obtain ⟨htext, hdepth⟩ := Piece.ink_unmarked indent depth x
    obtain ⟨hrest, hrestDepth⟩ := inkAll_unmarked indent (x.ink indent depth).2 xs
    rw [unmarkedAll_cons, inkAll_append, inkAll_cons, hdepth]
    simp only [Ink.text_append, htext, hrest, hrestDepth, and_self]

end

namespace Printer

mutual

/-- A piece without marks adds no mapping. -/
theorem run_pieceUnmarked (p : Printer) : (x : Piece) →
    (p.run x.unmarked).mappings = p.mappings
  | .mark _ | .text _ | .indent | .dedent | .margin => rfl
  | .guarded stmt => by
    have hstmt := run_unmarkedAll p stmt
    rw [Piece.unmarked, run_cons, run_nil, put]
    split
    · simp [insertAt, place, hstmt]
    · exact hstmt

/-- Pieces without marks map nothing. -/
theorem run_unmarkedAll (p : Printer) : (xs : List Piece) →
    (p.run (unmarkedAll xs)).mappings = p.mappings
  | [] => rfl
  | x :: xs => by
    rw [unmarkedAll_cons, run_append, run_unmarkedAll _ xs, run_pieceUnmarked p x]

end

/-- Without the marks the same text is printed, and nothing is mapped. -/
theorem run_unmarked (options : PrintOptions) (xs : List Piece) :
    ((Printer.start options).run (unmarkedAll xs)).out = ((Printer.start options).run xs).out ∧
      ((Printer.start options).run (unmarkedAll xs)).mappings = [] := by
  refine ⟨String.toList_inj.1 ?_, run_unmarkedAll _ xs⟩
  rw [(run_out _ _).1, (run_out _ _).1, (inkAll_unmarked _ _ xs).1]

end Printer

namespace JavaScript

/-! ## What printing asks of code -/

section
variable {ρ : Relocation}

namespace Expr

/-- Whether an expression is atomic does not depend on locations. -/
@[simp] theorem isAtomic_relocate (e : Expr) : (e.relocate ρ).isAtomic = e.isAtomic := by
  obtain ⟨_, form⟩ := e
  cases form with
  | literal value => cases value <;> rfl
  | _ => rfl

/-- The precedence of an expression does not depend on locations. -/
@[simp] theorem precedence_relocate (e : Expr) : (e.relocate ρ).precedence = e.precedence := by
  obtain ⟨_, form⟩ := e
  cases form with
  | literal value => cases value <;> rfl
  | function func =>
    obtain ⟨_, _, _, _⟩ := func
    rfl
  | _ => rfl

/-- Whether an item is wrapped does not depend on locations. -/
@[simp] theorem isWrappedItem_relocate (e : Expr) :
    (e.relocate ρ).isWrappedItem = e.isWrappedItem := by
  rw [isWrappedItem, isWrappedItem, precedence_relocate]

/-- Whether an operand is wrapped does not depend on locations. -/
@[simp] theorem isWrappedOperand_relocate (op : Operator) (side : Side) (e : Expr) :
    (e.relocate ρ).isWrappedOperand op side = e.isWrappedOperand op side := by
  rw [isWrappedOperand, isWrappedOperand, precedence_relocate]

/-- Whether the object of a member is wrapped does not depend on locations. -/
@[simp] theorem isWrappedObject_relocate (e : Expr) :
    (e.relocate ρ).isWrappedObject = e.isWrappedObject := by
  have hnumber : (e.relocate ρ).isNumber = e.isNumber := by
    obtain ⟨_, form⟩ := e
    cases form with
    | literal value => cases value <;> rfl
    | _ => rfl
  rw [isWrappedObject, isWrappedObject, isAtomic_relocate, hnumber]

/-- Whether a callee leads with a call does not depend on locations. -/
theorem leadsWithCall_relocate : (e : Expr) → (e.relocate ρ).leadsWithCall = e.leadsWithCall
  | ⟨_, .call ..⟩ => rfl
  | ⟨_, .member obj _⟩ | ⟨_, .index obj _⟩ => leadsWithCall_relocate obj
  | ⟨_, .ident _⟩ | ⟨_, .this⟩ | ⟨_, .literal _⟩ | ⟨_, .array _⟩ | ⟨_, .object _⟩ | ⟨_, .unary ..⟩
  | ⟨_, .binary ..⟩ | ⟨_, .conditional ..⟩ | ⟨_, .construct ..⟩ | ⟨_, .function _⟩
  | ⟨_, .spread _⟩ | ⟨_, .sequence _⟩ | ⟨_, .emit ..⟩ => rfl

/-- Whether a constructor is wrapped does not depend on locations. -/
@[simp] theorem isWrappedConstructor_relocate (e : Expr) :
    (e.relocate ρ).isWrappedConstructor = e.isWrappedConstructor := by
  rw [isWrappedConstructor, isWrappedConstructor, isAtomic_relocate, leadsWithCall_relocate]

mutual

/-- Whether an expression starts like a declaration does not depend on locations. -/
@[simp] theorem startsLikeDeclaration_relocate : (e : Expr) →
    (e.relocate ρ).startsLikeDeclaration = e.startsLikeDeclaration
  | ⟨_, .binary op left _⟩ => by
    simp only [relocate, ExprForm.relocate, startsLikeDeclaration, isWrappedOperand_relocate,
      startsLikeDeclaration_relocate left]
  | ⟨_, .call head _⟩ | ⟨_, .conditional head _ _⟩ => by
    simp only [relocate, ExprForm.relocate, startsLikeDeclaration, isAtomic_relocate,
      startsLikeDeclaration_relocate head]
  | ⟨_, .member head _⟩ | ⟨_, .index head _⟩ => by
    simp only [relocate, ExprForm.relocate, startsLikeDeclaration, isWrappedObject_relocate,
      startsLikeDeclaration_relocate head]
  | ⟨_, .sequence items⟩ => by
    simp only [relocate, ExprForm.relocate, startsLikeDeclaration,
      firstStartsLikeDeclaration_relocate items]
  | ⟨_, .function ⟨_, _, _, _⟩⟩ => rfl
  | ⟨_, .ident _⟩ | ⟨_, .this⟩ | ⟨_, .literal _⟩ | ⟨_, .array _⟩ | ⟨_, .object _⟩ | ⟨_, .unary ..⟩
  | ⟨_, .construct ..⟩ | ⟨_, .spread _⟩ | ⟨_, .emit ..⟩ => rfl

/-- Whether the first of some expressions starts like a declaration does not depend on locations. -/
theorem firstStartsLikeDeclaration_relocate : (es : List Expr) →
    firstStartsLikeDeclaration (relocateExprs ρ es) = firstStartsLikeDeclaration es
  | [] => rfl
  | e :: es => by
    simp only [relocateExprs, firstStartsLikeDeclaration, isWrappedItem_relocate,
      startsLikeDeclaration_relocate e]

end

/-- Whether an expression is dead does not depend on locations. -/
@[simp] theorem isDead_relocate : (e : Expr) → (e.relocate ρ).isDead = e.isDead
  | ⟨_, .unary op operand⟩ => by
    cases op with
    | void => exact isDead_relocate operand
    | _ => rfl
  | ⟨_, .object []⟩ | ⟨_, .object (⟨_, _⟩ :: _)⟩ => rfl
  | ⟨_, .ident _⟩ | ⟨_, .this⟩ | ⟨_, .literal _⟩ | ⟨_, .array _⟩ | ⟨_, .binary ..⟩ | ⟨_, .call ..⟩
  | ⟨_, .conditional ..⟩ | ⟨_, .member ..⟩ | ⟨_, .index ..⟩ | ⟨_, .function _⟩
  | ⟨_, .sequence _⟩ | ⟨_, .construct ..⟩ | ⟨_, .spread _⟩ | ⟨_, .emit ..⟩ => rfl

end Expr

/-- Whether a statement is dead does not depend on locations. -/
@[simp] theorem Stmt.isDead_relocate (s : Stmt) : (s.relocate ρ).isDead = s.isDead := by
  obtain ⟨_, form⟩ := s
  cases form with
  | expr e => exact e.isDead_relocate
  | _ => rfl

/-- Whether a statement is a conditional does not depend on locations. -/
@[simp] theorem Stmt.isConditional_relocate (s : Stmt) :
    (s.relocate ρ).isConditional = s.isConditional := by
  obtain ⟨_, form⟩ := s
  cases form <;> rfl

/-! ### Forwarding -/

/-- Whether an argument forwards a parameter does not depend on locations. -/
@[simp] theorem Param.isForwardedBy_relocate (param : Param) (arg : Expr) :
    param.isForwardedBy (arg.relocate ρ) = param.isForwardedBy arg := by
  obtain ⟨name, isRest⟩ := param
  obtain ⟨_, form⟩ := arg
  cases form with
  | spread inner =>
    obtain ⟨_, inner⟩ := inner
    cases isRest <;> cases inner <;> rfl
  | _ => cases isRest <;> rfl

/-- The only value of a relocated body is the relocated one. -/
theorem FuncBody.soleValue?_relocate (b : FuncBody) :
    (b.relocate ρ).soleValue? = b.soleValue?.map (·.relocate ρ) := by
  cases b with
  | value e => rfl
  | block stmts =>
    match stmts with
    | [] => rfl
    | ⟨_, form⟩ :: rest =>
      cases form with
      | ret value => cases value <;> cases rest <;> rfl
      | _ => cases rest <;> rfl

/-- A function forwards to the same callee, wherever it is. -/
theorem Func.forwardedCallee_relocate (f : Func) :
    (f.relocate ρ).forwardedCallee = f.forwardedCallee := by
  obtain ⟨name, isArrow, params, body⟩ := f
  have hforwards : ∀ args : List Expr,
      (params.zip (args.map (·.relocate ρ))).all (fun p => p.1.isForwardedBy p.2) =
        (params.zip args).all fun p => p.1.isForwardedBy p.2 := fun args => by
    simp [List.zip_map_right, Function.comp_def]
  rw [forwardedCallee, forwardedCallee, relocate, FuncBody.soleValue?_relocate]
  cases body.soleValue? with
  | none => rfl
  | some value =>
    obtain ⟨_, form⟩ := value
    cases form with
    | call callee args =>
      obtain ⟨_, form⟩ := callee
      cases form with
      | ident callee =>
        simp only [Option.map_some, Expr.relocate, ExprForm.relocate, relocateExprs_eq,
          List.length_map, Option.bind_eq_bind, Option.bind_some, hforwards]
      | _ => rfl
    | _ => rfl

/-! ### Templates -/

namespace Template

/-- An argument is found by its digits alike, and then it is relocated. -/
theorem argument?_relocate (args : List Expr) (digits : List Char) :
    argument? (relocateExprs ρ args) digits =
      (argument? args digits).map fun p => (p.1, p.2.relocate ρ) := by
  rw [argument?, argument?, relocateExprs_eq]
  cases index? digits with
  | none => rfl
  | some i =>
    simp only [Option.bind_eq_bind, Option.bind_some, List.getElem?_map]
    cases args[i]? <;> rfl

/-- Whether a text refers to arguments does not depend on their locations. -/
theorem refersToArguments_relocate (args : List Expr) (cs : List Char) :
    refersToArguments (relocateExprs ρ args) cs = refersToArguments args cs := by
  rw [refersToArguments, refersToArguments, relocateExprs_eq, List.length_map]

/-- A group is expanded alike with relocated arguments. -/
theorem expandGroup_relocate (args : List Expr) (inner : List Char) :
    expandGroup (relocateExprs ρ args) inner = expandGroup args inner := by
  have htrue : ∀ e : Expr, isTrue (e.relocate ρ) = isTrue e := fun e => by
    obtain ⟨_, form⟩ := e
    cases form with
    | literal value => cases value <;> rfl
    | _ => rfl
  rw [expandGroup, expandGroup, refersToArguments_relocate]
  split
  · simp only [argument?_relocate, Option.any_map, htrue]
  · rfl

/-- The groups of a template are expanded alike with relocated arguments. -/
theorem expandGroups_relocate (args : List Expr) (skip : Nat) (cs : List Char) :
    expandGroups (relocateExprs ρ args) skip cs = expandGroups args skip cs := by
  induction cs generalizing skip with
  | nil => rw [expandGroups, expandGroups]
  | cons c cs ih =>
    cases skip with
    | zero => simp only [expandGroups, ih, expandGroup_relocate]
    | succ skip => simp only [expandGroups, ih]

/-- A reference is resolved alike with relocated arguments. -/
theorem resolve_relocate (args : List Expr) (opened closed : Bool) (digits : List Char)
    (isRaw : Bool) : resolve (relocateExprs ρ args) opened closed digits isRaw =
      resolve args opened closed digits isRaw := by
  rw [resolve, resolve, argument?_relocate]
  rcases argument? args digits with _ | ⟨i, _, form⟩
  · rfl
  · simp only [Option.map_some, Expr.isWrappedItem_relocate, Expr.isAtomic_relocate]
    cases form with
    | literal value => cases isRaw <;> cases value <;> rfl
    | _ => cases isRaw <;> rfl

/-- A template has the same segments with relocated arguments. -/
theorem segments_relocate (args : List Expr) (pending : List Char) (ts : List Token) :
    segments (relocateExprs ρ args) pending ts = segments args pending ts := by
  induction ts generalizing pending with
  | nil => rfl
  | cons t ts ih =>
    cases t with
    | char c => exact ih _
    | ref digits isRaw => simp only [segments, resolve_relocate, ih]

end Template

/-- A template is expanded to the same segments with relocated arguments. -/
theorem expandTemplate_relocate (template : String) (args : List Expr) :
    expandTemplate template (relocateExprs ρ args) = expandTemplate template args := by
  rw [expandTemplate, expandTemplate, Template.segments_relocate, Template.expandGroups_relocate,
    relocateExprs_eq, List.length_map]

end

/-! ## Pieces of code without locations -/

open Layout

/-- Nothing is left of a mark. -/
@[simp] theorem unmarkedAll_mark (loc : Option Location) : unmarkedAll (mark loc) = [] := by
  cases loc <;> rfl

/-- An erased location makes no mark. -/
@[simp] theorem mark_erase (loc : Option Location) : mark (Relocation.erase.map loc) = [] := rfl

/-- The text is left of a token. -/
@[simp] theorem unmarkedAll_token (text : String) (loc : Option Location) :
    unmarkedAll (token text loc) = [.text text] := by
  simp [token]

/-- A token without a location is its text. -/
@[simp] theorem token_erase (text : String) (loc : Option Location) :
    token text (Relocation.erase.map loc) = [.text text] := rfl

/-- Parentheses have no marks. -/
@[simp] theorem unmarkedAll_wrap (isWrapped : Bool) (xs : List Piece) :
    unmarkedAll (wrap isWrapped xs) = wrap isWrapped (unmarkedAll xs) := by
  cases isWrapped <;> simp [wrap]

/-- Commas have no marks. -/
@[simp] theorem unmarkedAll_commas (items : List (List Piece)) :
    unmarkedAll (commas items) = commas (items.map unmarkedAll) := by
  induction items with
  | nil => rfl
  | cons item items ih =>
    cases items with
    | nil => rfl
    | cons next rest => simpa [commas] using ih

/-- A line end has no marks. -/
@[simp] theorem unmarkedAll_line (xs : List Piece) :
    unmarkedAll (line xs) = line (unmarkedAll xs) := by
  simp [line]

/-- Braces have no marks. -/
@[simp] theorem unmarkedAll_braces (xs : List Piece) :
    unmarkedAll (braces xs) = braces (unmarkedAll xs) := by
  simp [braces]

/-- A terminator has no marks. -/
@[simp] theorem unmarkedAll_terminator (sep : Separator) :
    unmarkedAll (terminator sep) = terminator sep := by
  cases sep <;> rfl

/-- The lines of statements have the marks of the statements only. -/
theorem unmarkedAll_stmtLines (sep : Separator) (follows : Bool) (stmts : List (List Piece)) :
    unmarkedAll (stmtLines sep follows stmts) =
      stmtLines sep follows (stmts.map unmarkedAll) := by
  induction stmts generalizing follows with
  | nil => rfl
  | cons stmt stmts ih =>
    simp only [stmtLines, stmtLine, unmarkedAll_append, unmarkedAll_line, ih, List.map_cons]
    split <;> simp

/-- Lines of foreign text have no marks. -/
theorem unmarkedAll_foreignLines (ls : List (List Char)) :
    unmarkedAll (foreignLines ls) = foreignLines ls := by
  induction ls with
  | nil => rfl
  | cons l ls ih =>
    cases ls with
    | nil => simp [foreignLines]
    | cons next rest =>
      simp only [foreignLines, unmarkedAll_cons, unmarkedAll_append, ih, Piece.unmarked,
        List.singleton_append]
      split <;> simp

/-- Foreign text has no marks. -/
@[simp] theorem unmarkedAll_foreign (text : String) :
    unmarkedAll (foreign text) = foreign text := by
  rw [foreign]
  split <;> simp [unmarkedAll_foreignLines]

/-- The segments of a template have the marks of the arguments only. -/
theorem unmarkedAll_segmentPieces (args : List (List Piece)) (segments : List Template.Segment) :
    unmarkedAll (segmentPieces args segments) =
      segmentPieces (args.map unmarkedAll) segments := by
  induction segments with
  | nil => rfl
  | cons s segments ih =>
    cases s with
    | text text => simp [segmentPieces, ih]
    | arg i isWrapped =>
      have hget : unmarkedAll (args[i]?.getD []) = (args[i]?.map unmarkedAll).getD [] := by
        cases args[i]? <;> rfl
      simp [segmentPieces, ih, hget]

/-- The live statements with their pieces, without marks. -/
def unmarkedStmts (stmts : List (Bool × List Piece)) : List (Bool × List Piece) :=
  stmts.map fun s => (s.1, unmarkedAll s.2)

/-- A block has the marks of its statements only. -/
@[simp] theorem unmarkedAll_block (sep : Separator) (stmts : List (Bool × List Piece)) :
    unmarkedAll (block sep stmts) = block sep (unmarkedStmts stmts) := by
  simp [block, unmarkedStmts, unmarkedAll_stmtLines, Function.comp_def]

/-- An else branch has the marks of its statements only. -/
@[simp] theorem unmarkedAll_elsePieces (sep : Separator) (stmts : List (Bool × List Piece)) :
    unmarkedAll (elsePieces sep stmts) = elsePieces sep (unmarkedStmts stmts) := by
  match stmts with
  | [] => rfl
  | [(true, chained)] => simp [elsePieces, unmarkedStmts]
  | [(false, stmt)] => simp [elsePieces, unmarkedStmts]
  | (_, _) :: _ :: _ => simp [elsePieces, unmarkedStmts]

mutual

/-- Without its locations an expression is printed as the same pieces without marks. -/
theorem Expr.pieces_erase (sep : Separator) : (e : Expr) →
    (e.relocate .erase).pieces sep = unmarkedAll (e.pieces sep)
  | ⟨loc, form⟩ => form.pieces_erase sep loc

/-- Without locations, the form of an expression has the same pieces without the marks. -/
theorem ExprForm.pieces_erase (sep : Separator) (loc : Option Location) : (f : ExprForm) →
    (f.relocate .erase).pieces sep (Relocation.erase.map loc) = unmarkedAll (f.pieces sep loc)
  | .ident _ | .this | .literal _ => by
    simp only [ExprForm.relocate, ExprForm.pieces, unmarkedAll_token, token_erase]
  | .array items => by
    simp [ExprForm.pieces, itemPieces_erase sep items]
  | .sequence items => by
    simp [ExprForm.pieces, itemPieces_erase sep items]
  | .object members => by
    simp [ExprForm.pieces, memberPieces_erase sep members]
  | .unary op operand => by
    have hblank : unmarkedAll (if op.isWord then [.text " "] else []) =
        if op.isWord then [.text " "] else [] := by
      split <;> rfl
    simp [ExprForm.pieces, operand.pieces_erase sep, hblank]
  | .binary op left right => by
    simp [ExprForm.pieces, left.pieces_erase sep, right.pieces_erase sep]
  | .conditional test thenExpr elseExpr => by
    simp [ExprForm.pieces, test.pieces_erase sep, thenExpr.pieces_erase sep,
      elseExpr.pieces_erase sep]
  | .call callee args => by
    simp [ExprForm.pieces, callee.pieces_erase sep, itemPieces_erase sep args]
  | .construct callee args => by
    simp [ExprForm.pieces, callee.pieces_erase sep, itemPieces_erase sep args]
  | .member obj _ => by simp [ExprForm.pieces, obj.pieces_erase sep]
  | .index obj index => by
    simp [ExprForm.pieces, obj.pieces_erase sep, index.pieces_erase sep]
  | .function func => by
    simp only [ExprForm.relocate, ExprForm.pieces, Func.forwardedCallee_relocate]
    split
    · simp
    · simp [func.valuePieces_erase sep]
  | .spread operand => by simp [ExprForm.pieces, operand.pieces_erase sep]
  | .emit template args => by
    simp [ExprForm.pieces, argPieces_erase sep args, expandTemplate_relocate,
      unmarkedAll_segmentPieces]

/-- Without locations, items have the same pieces without the marks. -/
theorem itemPieces_erase (sep : Separator) : (es : List Expr) →
    itemPieces sep (relocateExprs .erase es) = (itemPieces sep es).map unmarkedAll
  | [] => rfl
  | e :: es => by simp [itemPieces, e.pieces_erase sep, itemPieces_erase sep es]

/-- Without locations, arguments have the same pieces without the marks. -/
theorem argPieces_erase (sep : Separator) : (es : List Expr) →
    argPieces sep (relocateExprs .erase es) = (argPieces sep es).map unmarkedAll
  | [] => rfl
  | e :: es => by simp [argPieces, e.pieces_erase sep, argPieces_erase sep es]

/-- Without locations, the members of an object have the same pieces without the marks. -/
theorem memberPieces_erase (sep : Separator) : (ms : List ObjectMember) →
    memberPieces sep (relocateMembers .erase ms) = (memberPieces sep ms).map unmarkedAll
  | [] => rfl
  | ⟨key, value⟩ :: ms => by
    simp [memberPieces, value.pieces_erase sep key, memberPieces_erase sep ms]

/-- Without locations, the value of a member has the same pieces without the marks. -/
theorem MemberValue.pieces_erase (sep : Separator) (key : String) : (v : MemberValue) →
    (v.relocate .erase).pieces sep key = unmarkedAll (v.pieces sep key)
  | .value e => by simp [MemberValue.relocate, MemberValue.pieces, e.pieces_erase sep]
  | .method func | .getter func | .setter func => by
    simp [MemberValue.relocate, MemberValue.pieces, func.methodPieces_erase sep]

/-- Without locations, a function that is a value has the same pieces without the marks. -/
theorem Func.valuePieces_erase (sep : Separator) : (f : Func) →
    (f.relocate .erase).valuePieces sep = unmarkedAll (f.valuePieces sep)
  | ⟨_, isArrow, _, body⟩ => by
    cases isArrow <;>
      simp [Func.relocate, Func.valuePieces, body.arrowPieces_erase sep, body.pieces_erase sep]

/-- Without locations, a function that is declared has the same pieces without the marks. -/
theorem Func.declPieces_erase (sep : Separator) : (f : Func) →
    (f.relocate .erase).declPieces sep = unmarkedAll (f.declPieces sep)
  | ⟨_, _, _, body⟩ => by simp [Func.relocate, Func.declPieces, body.pieces_erase sep]

/-- Without locations, a method has the same pieces without the marks. -/
theorem Func.methodPieces_erase (sep : Separator) : (f : Func) →
    (f.relocate .erase).methodPieces sep = unmarkedAll (f.methodPieces sep)
  | ⟨_, _, _, body⟩ => by simp [Func.relocate, Func.methodPieces, body.pieces_erase sep]

/-- Without locations, the body of an arrow function has the same pieces without the marks. -/
theorem FuncBody.arrowPieces_erase (sep : Separator) : (b : FuncBody) →
    (b.relocate .erase).arrowPieces sep = unmarkedAll (b.arrowPieces sep)
  | .value e => by simp [FuncBody.arrowPieces, e.pieces_erase sep]
  | .block stmts => by simp [FuncBody.arrowPieces, livePieces_erase sep stmts]

/-- Without locations, the body of a function has the same pieces without the marks. -/
theorem FuncBody.pieces_erase (sep : Separator) : (b : FuncBody) →
    (b.relocate .erase).pieces sep = unmarkedAll (b.pieces sep)
  | .value ⟨loc, form⟩ => by
    simp [FuncBody.pieces, Expr.relocate, form.pieces_erase sep loc]
  | .block stmts => by simp [FuncBody.pieces, livePieces_erase sep stmts]

/-- Without locations, live statements have the same pieces without the marks. -/
theorem livePieces_erase (sep : Separator) : (ss : List Stmt) →
    livePieces sep (relocateStmts .erase ss) = unmarkedStmts (livePieces sep ss)
  | [] => rfl
  | s :: ss => by
    simp only [relocateStmts, livePieces, Stmt.isDead_relocate, Stmt.isConditional_relocate,
      s.pieces_erase sep, livePieces_erase sep ss]
    split <;> rfl

/-- Without locations, a statement has the same pieces without the marks. -/
theorem Stmt.pieces_erase (sep : Separator) : (s : Stmt) →
    (s.relocate .erase).pieces sep = unmarkedAll (s.pieces sep)
  | ⟨loc, form⟩ => by
    have hmark : (form.relocate .erase).ownMark (Relocation.erase.map loc) = [] ∧
        unmarkedAll (form.ownMark loc) = [] := by
      cases form <;> exact ⟨rfl, by simp [StmtForm.ownMark]⟩
    rw [Stmt.relocate, Stmt.pieces, Stmt.pieces, unmarkedAll_append, hmark.1, hmark.2,
      form.pieces_erase sep]

/-- Without locations, the form of a statement has the same pieces without the marks. -/
theorem StmtForm.pieces_erase (sep : Separator) : (f : StmtForm) →
    (f.relocate .erase).pieces sep = unmarkedAll (f.pieces sep)
  | .breakTo _ | .continueTo _ | .debugger => by
    simp [StmtForm.pieces]
  | .expr e => by simp [StmtForm.pieces, e.pieces_erase sep]
  | .block stmts => by simp [StmtForm.pieces, livePieces_erase sep stmts]
  | .declare decl => by simp [StmtForm.pieces, decl.pieces_erase sep]
  | .ifElse test thenStmts elseStmts => by
    simp [StmtForm.pieces, test.pieces_erase sep, livePieces_erase sep thenStmts,
      livePieces_erase sep elseStmts]
  | .whileLoop test body => by
    simp [StmtForm.pieces, test.pieces_erase sep, livePieces_erase sep body]
  | .forLoop start test update body => by
    simp [StmtForm.pieces, startPieces_erase sep start, clausePieces_erase sep test,
      clausePieces_erase sep update, livePieces_erase sep body]
  | .ret value => by simp [StmtForm.pieces, clausePieces_erase sep value]
  | .throw error => by simp [StmtForm.pieces, error.pieces_erase sep]
  | .labeled _ body => by simp [StmtForm.pieces, body.pieces_erase sep]
  | .tryCatch body handler finalizer => by
    simp [StmtForm.pieces, livePieces_erase sep body, handlerPieces_erase sep handler,
      finalizerPieces_erase sep finalizer]
  | .switch subject cases => by
    simp [StmtForm.pieces, subject.pieces_erase sep, casePieces_erase sep cases]
  | .function func => by simp [StmtForm.pieces, func.declPieces_erase sep]
  | .classDecl decl => by simp [StmtForm.pieces, decl.pieces_erase sep]
  | .exported decl => by simp [StmtForm.pieces, decl.pieces_erase sep]

/-- Without locations, a declaration has the same pieces without the marks. -/
theorem VarDecl.pieces_erase (sep : Separator) : (d : VarDecl) →
    (d.relocate .erase).pieces sep = unmarkedAll (d.pieces sep)
  | ⟨_, declarators⟩ => by
    simp [VarDecl.relocate, VarDecl.pieces, declaratorPieces_erase sep declarators]

/-- Without locations, declarators have the same pieces without the marks. -/
theorem declaratorPieces_erase (sep : Separator) : (ds : List Declarator) →
    declaratorPieces sep (relocateDeclarators .erase ds) =
      (declaratorPieces sep ds).map unmarkedAll
  | [] => rfl
  | ⟨_, value⟩ :: ds => by
    simp [declaratorPieces, initializerPieces_erase sep value, declaratorPieces_erase sep ds]

/-- Without locations, an initial value has the same pieces without the marks. -/
theorem initializerPieces_erase (sep : Separator) : (o : Option Expr) →
    initializerPieces sep (relocateExpr? .erase o) = unmarkedAll (initializerPieces sep o)
  | none => rfl
  | some e => by simp [initializerPieces, e.pieces_erase sep]

/-- Without locations, the head of a loop has the same pieces without the marks. -/
theorem startPieces_erase (sep : Separator) : (o : Option VarDecl) →
    startPieces sep (relocateDecl? .erase o) = unmarkedAll (startPieces sep o)
  | none => rfl
  | some decl => decl.pieces_erase sep

/-- Without locations, a clause has the same pieces without the marks. -/
theorem clausePieces_erase (sep : Separator) : (o : Option Expr) →
    clausePieces sep (relocateExpr? .erase o) = unmarkedAll (clausePieces sep o)
  | none => rfl
  | some e => by simp [clausePieces, e.pieces_erase sep]

/-- Without locations, a handler has the same pieces without the marks. -/
theorem handlerPieces_erase (sep : Separator) : (o : Option CatchClause) →
    handlerPieces sep (relocateHandler .erase o) = unmarkedAll (handlerPieces sep o)
  | none => rfl
  | some ⟨_, body⟩ => by simp [handlerPieces, livePieces_erase sep body]

/-- Without locations, a finalizer has the same pieces without the marks. -/
theorem finalizerPieces_erase (sep : Separator) : (o : Option (List Stmt)) →
    finalizerPieces sep (relocateStmts? .erase o) = unmarkedAll (finalizerPieces sep o)
  | none => rfl
  | some stmts => by simp [finalizerPieces, livePieces_erase sep stmts]

/-- Without locations, the cases of a switch have the same pieces without the marks. -/
theorem casePieces_erase (sep : Separator) : (cs : List SwitchCase) →
    casePieces sep (relocateCases .erase cs) = unmarkedAll (casePieces sep cs)
  | [] => rfl
  | ⟨test, body⟩ :: cs => by
    simp [casePieces, testPieces_erase sep test, livePieces_erase sep body,
      casePieces_erase sep cs]

/-- Without locations, the test of a case has the same pieces without the marks. -/
theorem testPieces_erase (sep : Separator) : (o : Option Expr) →
    testPieces sep (relocateExpr? .erase o) = unmarkedAll (testPieces sep o)
  | none => rfl
  | some e => by simp [testPieces, e.pieces_erase sep]

/-- Without locations, a class has the same pieces without the marks. -/
theorem ClassDecl.pieces_erase (sep : Separator) : (d : ClassDecl) →
    (d.relocate .erase).pieces sep = unmarkedAll (d.pieces sep)
  | ⟨_, base, members⟩ => by
    simp [ClassDecl.relocate, ClassDecl.pieces, basePieces_erase sep base,
      classMemberPieces_erase sep members]

/-- Without locations, the base of a class has the same pieces without the marks. -/
theorem basePieces_erase (sep : Separator) : (o : Option Expr) →
    basePieces sep (relocateExpr? .erase o) = unmarkedAll (basePieces sep o)
  | none => rfl
  | some e => by simp [basePieces, e.pieces_erase sep]

/-- Without locations, the members of a class have the same pieces without the marks. -/
theorem classMemberPieces_erase (sep : Separator) : (ms : List ClassMember) →
    classMemberPieces sep (relocateClassMembers .erase ms) =
      unmarkedAll (classMemberPieces sep ms)
  | [] => rfl
  | ⟨_, _, _, func⟩ :: ms => by
    simp [classMemberPieces, func.methodPieces_erase sep, classMemberPieces_erase sep ms]

end

/-! ## Programs -/

/-- Without its locations a program is printed as the same pieces without marks. -/
theorem Program.pieces_erase (p : Program) (sep : Separator) :
    (p.relocate .erase).pieces sep = unmarkedAll (p.pieces sep) := by
  have himports : unmarkedAll (importsPieces sep p.imports) = importsPieces sep p.imports := by
    rw [importsPieces]
    induction p.imports with
    | nil => rfl
    | cons i imports ih =>
      have himport : unmarkedAll (i.pieces sep) = i.pieces sep := by simp [ImportDecl.pieces]
      rw [List.flatMap_cons, unmarkedAll_append, ih, himport]
  simp [Program.pieces, Program.relocate, stmtsPieces, livePieces_erase, himports,
    unmarkedAll_stmtLines, unmarkedStmts, Function.comp_def]

/-- Without its locations a program is printed as the same text. -/
theorem Program.print_erase (p : Program) (options : PrintOptions) :
    (p.relocate .erase).print options = ((p.print options).1, []) := by
  have hrun := Printer.run_unmarked options (p.pieces options.separator)
  rw [← p.pieces_erase] at hrun
  exact Prod.ext hrun.1 hrun.2

end JavaScript

end TypedLowering
