import TypedLowering.Printing.Program
import TypedLowering.Proofs.JavaScript.Parsing
import TypedLowering.Proofs.Printing.Rendering

/-!
# Grouping

Parentheses are put where they are needed: the text of an expression has tokens that the grammar
derives no other tree from (`Expr.print_grouping`). This is about expressions without functions,
objects, regular expressions and foreign code (`Expr.Basic`).
-/

namespace TypedLowering

open Ir (Location)
open Layout (mark token wrap commas)

/-- The characters of a piece, which is a text or a mark. -/
def Piece.chars : Piece → List Char
  | .text t => t.toList
  | _ => []

/-- The characters of pieces that are texts and marks. -/
def flat (xs : List Piece) : List Char := xs.flatMap Piece.chars

/-- Whether the pieces are texts and marks. -/
def Inline (xs : List Piece) : Prop :=
  ∀ x ∈ xs, (∃ t, x = .text t) ∨ ∃ loc, x = .mark loc

/-- No pieces have no characters. -/
@[simp] theorem flat_nil : flat [] = [] := rfl

/-- The characters of a text come before those behind it. -/
@[simp] theorem flat_text (t : String) (xs : List Piece) :
    flat (.text t :: xs) = t.toList ++ flat xs := rfl

/-- The characters of two parts are those of each. -/
@[simp] theorem flat_append (xs ys : List Piece) : flat (xs ++ ys) = flat xs ++ flat ys :=
  List.flatMap_append

/-- A mark has no characters. -/
@[simp] theorem flat_mark (loc : Option Location) : flat (mark loc) = [] := by
  cases loc <;> rfl

/-- A token has the characters of its text. -/
@[simp] theorem flat_token (t : String) (loc : Option Location) :
    flat (token t loc) = t.toList := by
  simp [token]

/-- No pieces are on one line. -/
@[simp] theorem inline_nil : Inline [] := by simp [Inline]

/-- A text keeps pieces on one line. -/
@[simp] theorem inline_text (t : String) (xs : List Piece) :
    Inline (.text t :: xs) ↔ Inline xs := by
  simp [Inline]

/-- Two parts are on one line if each is. -/
@[simp] theorem inline_append (xs ys : List Piece) : Inline (xs ++ ys) ↔ Inline xs ∧ Inline ys := by
  simp [Inline, or_imp, forall_and]

/-- A mark is on one line. -/
@[simp] theorem inline_mark (loc : Option Location) : Inline (mark loc) := by
  cases loc <;> simp [Inline, mark]

/-- A token is on one line. -/
@[simp] theorem inline_token (t : String) (loc : Option Location) : Inline (token t loc) := by
  simp [token]

/-- Parentheses keep pieces on one line. -/
@[simp] theorem inline_wrap (isWrapped : Bool) (xs : List Piece) :
    Inline (wrap isWrapped xs) ↔ Inline xs := by
  cases isWrapped <;> simp [wrap]

/-- A list is on one line if its items are. -/
theorem inline_commas {items : List (List Piece)} (h : ∀ item ∈ items, Inline item) :
    Inline (commas items) := by
  fun_induction commas items with
  | case1 => exact inline_nil
  | case2 item => exact h item List.mem_cons_self
  | case3 item items _ ih =>
    have hitem := h item List.mem_cons_self
    have hitems := ih fun item hitem => h item (List.mem_cons_of_mem _ hitem)
    simp [hitem, hitems]

/-- Texts and marks print their characters at every depth. -/
theorem text_inkAll (indent : String) (depth : Nat) {xs : List Piece} (h : Inline xs) :
    Ink.text (inkAll indent depth xs).1 = flat xs := by
  induction xs with
  | nil => rfl
  | cons x xs ih =>
    have ih := ih fun y hy => h y (List.mem_cons_of_mem x hy)
    rw [inkAll_cons, Ink.text_append]
    rcases h x List.mem_cons_self with ⟨t, rfl⟩ | ⟨loc, rfl⟩
    · rw [flat_text, ← ih]
      simp [Piece.ink]
    · exact ih

namespace JavaScript

/-! ## The expressions -/

mutual

/-- The expression without locations. Forms that no `Basic` expression has stay as they are. -/
def Expr.unlocated : Expr → Expr
  | ⟨_, form⟩ => ⟨none, form.unlocated⟩

/-- The form of an expression without the locations in it. -/
def ExprForm.unlocated : ExprForm → ExprForm
  | .array items => .array (unlocatedAll items)
  | .unary op operand => .unary op operand.unlocated
  | .binary op left right => .binary op left.unlocated right.unlocated
  | .conditional test thenExpr elseExpr =>
    .conditional test.unlocated thenExpr.unlocated elseExpr.unlocated
  | .call callee args => .call callee.unlocated (unlocatedAll args)
  | .construct callee args => .construct callee.unlocated (unlocatedAll args)
  | .member object property => .member object.unlocated property
  | .index object index => .index object.unlocated index.unlocated
  | .spread operand => .spread operand.unlocated
  | .sequence items => .sequence (unlocatedAll items)
  | form => form

/-- Expressions without the locations in them. -/
def unlocatedAll : List Expr → List Expr
  | [] => []
  | e :: es => e.unlocated :: unlocatedAll es

end

/-- Whether the expression may be assigned to. -/
def Expr.isTarget (e : Expr) : Bool :=
  match e.form with
  | .ident _ | .member .. | .index .. => true
  | _ => false

mutual

/-- Expressions of identifiers, literals, arrays, operators, calls and accesses, with names that are
names of the language. A zero with a sign counts as negative, as it does for the printer. -/
inductive Expr.Basic (a : Alphabet) : Expr → Prop
  | ident (loc : Option Location) {name : String} (h : a.IsName name) (hword : name ∉ keywords) :
    Basic a ⟨loc, .ident name⟩
  | this (loc : Option Location) : Basic a ⟨loc, .this⟩
  | null (loc : Option Location) : Basic a ⟨loc, .literal .null⟩
  | bool (loc : Option Location) (value : Bool) : Basic a ⟨loc, .literal (.bool value)⟩
  | string (loc : Option Location) (value : String) : Basic a ⟨loc, .literal (.string value)⟩
  | number (loc : Option Location) {x : Binary64} (hfinite : x.isFinite = true)
    (hsign : x.signBit = false) : Basic a ⟨loc, .literal (.number x)⟩
  | array (loc : Option Location) {items : List Expr} (h : ∀ e ∈ items, BasicItem a e) :
    Basic a ⟨loc, .array items⟩
  | unary (loc : Option Location) {op : Operator} {operand : Expr} (hop : op.isUnary = true)
    (h : Basic a operand) : Basic a ⟨loc, .unary op operand⟩
  | binary (loc : Option Location) {op : Operator} {left right : Expr} (hop : op.isBinary = true)
    (htarget : op.precedence = Operator.assignment.precedence → left.isTarget = true)
    (hleft : Basic a left) (hright : Basic a right) : Basic a ⟨loc, .binary op left right⟩
  | conditional (loc : Option Location) {test thenExpr elseExpr : Expr} (htest : Basic a test)
    (hthen : Basic a thenExpr) (helse : Basic a elseExpr) :
    Basic a ⟨loc, .conditional test thenExpr elseExpr⟩
  | call (loc : Option Location) {callee : Expr} {args : List Expr} (h : Basic a callee)
    (hargs : ∀ e ∈ args, BasicItem a e) : Basic a ⟨loc, .call callee args⟩
  | construct (loc : Option Location) {callee : Expr} {args : List Expr} (h : Basic a callee)
    (hargs : ∀ e ∈ args, BasicItem a e) : Basic a ⟨loc, .construct callee args⟩
  | member (loc : Option Location) {object : Expr} {property : String} (h : Basic a object)
    (hname : a.IsName property) : Basic a ⟨loc, .member object property⟩
  | index (loc : Option Location) {object index : Expr} (hobject : Basic a object)
    (hindex : Basic a index) : Basic a ⟨loc, .index object index⟩
  | sequence (loc : Option Location) {items : List Expr} (h : ∀ e ∈ items, Basic a e)
    (hitems : 2 ≤ items.length) : Basic a ⟨loc, .sequence items⟩

/-- An argument or an element. -/
inductive Expr.BasicItem (a : Alphabet) : Expr → Prop
  | plain {e : Expr} (h : Basic a e) : BasicItem a e
  | spread (loc : Option Location) {operand : Expr} (h : Basic a operand) :
    BasicItem a ⟨loc, .spread operand⟩

end

variable {a : Alphabet}

/-- Items are on one line if their pieces are. -/
theorem inline_itemPieces {sep : Separator} {items : List Expr}
    (h : ∀ e ∈ items, Inline (e.pieces sep)) : Inline (commas (itemPieces sep items)) := by
  apply inline_commas
  induction items with
  | nil => simp [itemPieces]
  | cons e items ih =>
    have hitem := h e List.mem_cons_self
    have hitems := ih fun e he => h e (List.mem_cons_of_mem _ he)
    simpa [itemPieces, hitem] using hitems

mutual

/-- Basic expressions are printed on one line. -/
theorem Expr.Basic.inline (sep : Separator) {e : Expr} : Basic a e → Inline (e.pieces sep)
  | .ident .. | .this .. | .null .. | .bool .. | .string .. | .number .. => inline_token _ _
  | .array loc h => by
    have hitems := inline_itemPieces fun e he => (h e he).inline sep
    simpa [Expr.pieces, ExprForm.pieces] using hitems
  | .unary loc _ h => by
    simpa [Expr.pieces, ExprForm.pieces, apply_ite Inline] using h.inline sep
  | .binary loc _ _ hleft hright => by
    simpa [Expr.pieces, ExprForm.pieces] using ⟨hleft.inline sep, hright.inline sep⟩
  | .conditional loc htest hthen helse => by
    simpa [Expr.pieces, ExprForm.pieces] using
      ⟨htest.inline sep, hthen.inline sep, helse.inline sep⟩
  | .call loc h hargs | .construct loc h hargs => by
    have hargs := inline_itemPieces fun e he => (hargs e he).inline sep
    simpa [Expr.pieces, ExprForm.pieces, hargs] using h.inline sep
  | .member loc h hname => by simpa [Expr.pieces, ExprForm.pieces] using h.inline sep
  | .index loc hobject hindex => by
    simpa [Expr.pieces, ExprForm.pieces] using ⟨hobject.inline sep, hindex.inline sep⟩
  | .sequence loc h _ => by
    have hitems := inline_itemPieces fun e he => (h e he).inline sep
    simpa [Expr.pieces, ExprForm.pieces] using hitems

/-- An item of a basic list is on one line. -/
theorem Expr.BasicItem.inline (sep : Separator) {e : Expr} : BasicItem a e → Inline (e.pieces sep)
  | .plain h => h.inline sep
  | .spread loc h => by simpa [Expr.pieces, ExprForm.pieces] using h.inline sep

end

/-! ## Tokens of operators -/

/-- An operator that is a word has a word as its token. -/
theorem isWord_token {op : Operator} (hop : op.isWord = true) : isWord op.token = true := by
  revert hop
  cases op <;> decide

/-- Any other operator has a punctuator as its token. -/
theorem token_mem {op : Operator} (hop : op.isBinary = true ∨ op.isUnary = true)
    (hword : op.isWord = false) : op.token.toList ∈ punctuators ∧
      op.token.toList ≠ ['?', '.'] ∧ op.token.toList ≠ ['.'] := by
  revert hop hword
  cases op <;> decide

/-- A binary operator is one token between its spaces, whatever follows. -/
theorem lexes_binary {op : Operator} (hop : op.isBinary = true) (rest : List Char) :
    Lexes a (" " ++ op.token ++ " ").toList [op.symbol] rest := by
  have htext : (" " ++ op.token ++ " ").toList = [' '] ++ (op.token.toList ++ [' ']) := by
    simp
  rw [htext, Operator.symbol]
  refine .append (.blank _) ?_
  cases hword : op.isWord with
  | true =>
    exact lexes_word (isWord_token hword) rest
  | false =>
    obtain ⟨hmem, hne⟩ := token_mem (.inl hop) hword
    exact .append (lexes_apart hmem hne rfl) (.blank rest)

/-- A unary operator is one token before anything that stands apart from it. -/
theorem lexes_unary {op : Operator} (hop : op.isUnary = true) {rest : List Char}
    (hrest : rest.head?.all isApart = true) :
    Lexes a (op.token.toList ++ if op.isWord then [' '] else []) [op.symbol] rest := by
  rw [Operator.symbol]
  cases hword : op.isWord with
  | true =>
    exact lexes_word (isWord_token hword) rest
  | false =>
    obtain ⟨hmem, hne⟩ := token_mem (.inr hop) hword
    show Lexes a (op.token.toList ++ []) _ rest
    rw [List.append_nil]
    exact lexes_apart hmem hne hrest

/-! ## Levels of the grammar -/

/-- The nonterminal of an expression without parentheses around it. -/
def Expr.category (e : Expr) : Category :=
  match e.form with
  | .unary op _ | .binary op _ _ => .operator op.precedence
  | .conditional .. => .operator Operator.conditional.precedence
  | .sequence _ => .operator Operator.comma.precedence
  | .construct .. => .member
  | .call .. | .member .. | .index .. => if e.leadsWithCall then .call else .member
  | _ => .primary

/-- What is derived at a level is derived at every looser one. -/
theorem Derives.looser {m n : Nat} {ts : List Token} {e : Expr} (hn : n ≤ m)
    (hm : m ≤ leftHandSide) (h : Derives (.operator m) ts e) : Derives (.operator n) ts e := by
  induction m, hn using Nat.le_induction with
  | base => exact h
  | succ m hnm ih => exact ih (by omega) (.tighter (by omega) h)

/-- What is derived as a member is derived at the level of accesses and calls. -/
theorem Derives.ofMember {ts : List Token} {e : Expr} (h : Derives .member ts e) :
    Derives (.operator leftHandSide) ts e :=
  .ofNew (.newOfMember h)

/-- The precedence of an operator is positive and at most that of accesses and calls. -/
theorem Operator.precedence_bounds (op : Operator) :
    1 ≤ op.precedence ∧ op.precedence ≤ leftHandSide := by
  cases op <;> decide

/-- The precedence of an expression is positive. -/
theorem Expr.precedence_pos (e : Expr) : 1 ≤ e.precedence := by
  rw [Expr.precedence.eq_def]
  split
  any_goals exact (Operator.precedence_bounds _).1
  all_goals first
    | decide
    | split <;> decide

/-- An expression stands at every level up to its precedence. -/
theorem Derives.atLevel {e f : Expr} {n : Nat} {ts : List Token} (h : Derives e.category ts f)
    (hn : n ≤ e.precedence) (hle : n ≤ leftHandSide) : Derives (.operator n) ts f := by
  rw [Expr.category.eq_def] at h
  rw [Expr.precedence.eq_def] at hn
  obtain ⟨loc, form⟩ := e
  cases form with
  | unary op | binary op => exact h.looser hn (Operator.precedence_bounds op).2
  | conditional => exact h.looser hn (Operator.precedence_bounds .conditional).2
  | sequence => exact h.looser hn (Operator.precedence_bounds .comma).2
  | construct => exact h.ofMember.looser hle le_rfl
  | call | member | index =>
    simp only at h
    split at h
    · exact (Derives.ofCall h).looser hle le_rfl
    · exact h.ofMember.looser hle le_rfl
  | _ => exact (Derives.memberOfPrimary h).ofMember.looser hle le_rfl

/-- What may stand before the arguments of a call and before an access. -/
theorem Derives.callee {e f : Expr} {ts : List Token} (hatomic : e.isAtomic = true)
    (h : Derives e.category ts f) : Derives (if e.leadsWithCall then .call else .member) ts f := by
  obtain ⟨loc, form⟩ := e
  cases form with
  | call | member | index => exact h
  | construct => exact h
  | unary | binary | conditional | sequence | function | spread | emit => cases hatomic
  | _ => exact .memberOfPrimary h

/-! ## Expressions from their text -/

/-- Whether the character may stand behind an expression. A dot does not stand behind a number. -/
def isStop (dot : Bool) (c : Char) : Bool :=
  [' ', ')', ']', ',', '(', '['].contains c || dot && c == '.'

/-- The pieces are read as the expression: their text has tokens that derive it, before whatever
starts with a stop. -/
def ParsesAs (a : Alphabet) (dot : Bool) (xs : List Piece) (c : Category) (e : Expr) : Prop :=
  ∃ ts, Derives c ts e ∧
    ∀ rest : List Char, rest.head?.all (isStop dot) = true → Lexes a (flat xs) ts rest

namespace ParsesAs

variable {dot : Bool} {xs : List Piece} {c c' : Category} {e : Expr}

/-- Pieces that are read in a category are read in any wider one. -/
theorem mono (h : ParsesAs a dot xs c e) (hc : ∀ ts, Derives c ts e → Derives c' ts e) :
    ParsesAs a dot xs c' e := by
  obtain ⟨ts, hts, hlex⟩ := h
  exact ⟨ts, hc ts hts, hlex⟩

/-- What is read with a dot behind it is read without one. -/
theorem dotless (h : ParsesAs a dot xs c e) : ParsesAs a false xs c e := by
  obtain ⟨ts, hts, hlex⟩ := h
  refine ⟨ts, hts, fun rest hrest => hlex rest ?_⟩
  cases rest with
  | nil => rfl
  | cons c rest =>
    have hc : isStop false c = true := hrest
    rw [isStop, Bool.false_and, Bool.or_false] at hc
    show isStop dot c = true
    rw [isStop, hc, Bool.true_or]

/-- In parentheses, any expression is read as a primary one. -/
theorem parentheses (h : ParsesAs a dot xs (.operator 1) e) (dot' : Bool) :
    ParsesAs a dot' (wrap true xs) .primary e := by
  obtain ⟨ts, hts, hlex⟩ := h
  refine ⟨_, .parentheses hts, fun rest _ => ?_⟩
  have htext : flat (wrap true xs) = "(".toList ++ flat xs ++ ")".toList := by
    simp [wrap]
  have hopen : ∀ rest, Lexes a "(".toList [.punctuator "("] rest :=
    lexes_longest (by decide) (by decide) (by decide)
  have hclose : ∀ rest, Lexes a ")".toList [.punctuator ")"] rest :=
    lexes_longest (by decide) (by decide) (by decide)
  rw [htext]
  exact .append (.append (hopen _) (hlex _ rfl)) (hclose rest)

end ParsesAs

/-- What printing an expression comes to. -/
structure Expr.Recovered (a : Alphabet) (sep : Separator) (e : Expr) : Prop where
  parses : ParsesAs a (!e.isWrappedObject) (e.pieces sep) e.category e.unlocated
  /-- An operand does not go on with the operator before it. -/
  head : e.isAtomic = true → (flat (e.pieces sep)).head?.any isApart = true

/-- An atomic expression binds as tightly as accesses and calls. -/
theorem Expr.leftHandSide_le_precedence {e : Expr} (h : e.isAtomic = true) :
    leftHandSide ≤ e.precedence := by
  have hatom : leftHandSide ≤ atomPrecedence := by decide
  have hcall : leftHandSide ≤ callPrecedence := by decide
  obtain ⟨loc, form⟩ := e
  cases form with
  | literal value =>
    cases value with
    | number x =>
      have hx : x.isNegative = false := by simpa [isAtomic] using h
      simpa [precedence, hx] using hatom
    | _ => exact hatom
  | unary | binary | conditional | sequence | function | spread | emit => cases h
  | call | construct | member | index => exact hcall
  | _ => exact hatom

/-- What needs no parentheses before a dot is atomic. -/
theorem Expr.isAtomic_of_bare_object {e : Expr} (h : e.isWrappedObject = false) :
    e.isAtomic = true := by
  rw [isWrappedObject, Bool.or_eq_false_iff, Bool.not_eq_false'] at h
  exact h.1

/-- What leads with a call needs no parentheses before a dot. -/
theorem Expr.leadsWithCall_head {e : Expr} (h : e.leadsWithCall = true) :
    e.isWrappedObject = false := by
  obtain ⟨loc, form⟩ := e
  cases form with
  | call | member | index => rfl
  | _ => simp [leadsWithCall] at h

namespace Expr.Recovered

variable {sep : Separator} {e : Expr}

/-- The pieces of an expression are read as a whole expression. -/
theorem whole (h : e.Recovered a sep) :
    ParsesAs a false (e.pieces sep) (.operator 1) e.unlocated :=
  h.parses.dotless.mono fun _ hts => hts.atLevel e.precedence_pos (by decide)

/-- An operand, which is wrapped if it is too loose. -/
theorem operand (h : e.Recovered a sep) {isWrapped : Bool} {n : Nat} (hn : n ≤ leftHandSide)
    (hwrap : isWrapped = false → n ≤ e.precedence) :
    ParsesAs a false (wrap isWrapped (e.pieces sep)) (.operator n) e.unlocated := by
  cases isWrapped with
  | true =>
    refine (h.whole.parentheses false).mono fun _ hts => ?_
    exact (Derives.memberOfPrimary hts).ofMember.looser hn le_rfl
  | false => exact h.parses.dotless.mono fun _ hts => hts.atLevel (hwrap rfl) hn

/-- What stands before arguments and accesses. -/
theorem callee (h : e.Recovered a sep) {isWrapped : Bool}
    (hwrap : isWrapped = false → e.isAtomic = true) :
    ParsesAs a (isWrapped || !e.isNumber) (wrap isWrapped (e.pieces sep))
      (if e.leadsWithCall && !isWrapped then .call else .member) e.unlocated := by
  cases isWrapped with
  | true =>
    rw [Bool.not_true, Bool.and_false]
    exact (h.whole.parentheses true).mono fun _ hts => .memberOfPrimary hts
  | false =>
    have hatomic := hwrap rfl
    have hparses := h.parses
    rw [isWrappedObject, hatomic] at hparses
    rw [Bool.not_false, Bool.and_true]
    exact hparses.mono fun _ hts => hts.callee hatomic

/-- What stands before an access. -/
theorem object (h : e.Recovered a sep) :
    ParsesAs a true (wrap e.isWrappedObject (e.pieces sep))
      (if e.leadsWithCall then .call else .member) e.unlocated := by
  have hobject := h.callee isAtomic_of_bare_object
  have hdot : (e.isWrappedObject || !e.isNumber) = true := by
    cases hnumber : e.isNumber <;> simp [isWrappedObject, hnumber]
  have hcall : (e.leadsWithCall && !e.isWrappedObject) = e.leadsWithCall := by
    cases hcall : e.leadsWithCall with
    | false => rfl
    | true => rw [leadsWithCall_head hcall, Bool.not_false, Bool.and_true]
  rwa [hdot, hcall] at hobject

/-- What an operator or a dot stands before. -/
theorem head_wrap (h : e.Recovered a sep) {isWrapped : Bool}
    (hwrap : isWrapped = false → e.isAtomic = true) (rest : List Char) :
    (flat (wrap isWrapped (e.pieces sep)) ++ rest).head?.any isApart = true := by
  cases isWrapped with
  | true => rfl
  | false =>
    have hhead := h.head (hwrap rfl)
    show (flat (e.pieces sep) ++ rest).head?.any isApart = true
    cases hflat : flat (e.pieces sep) with
    | nil => simp [hflat] at hhead
    | cons c cs =>
      rw [hflat] at hhead
      exact hhead

end Expr.Recovered

/-! ## Lists -/

/-- Tokens with commas between them. -/
def joinCommas : List (List Token) → List Token
  | [] => []
  | [ts] => ts
  | ts :: tss => ts ++ .punctuator "," :: joinCommas tss

/-- Tokens of items, joined by commas, are derived as items. -/
theorem derivesItems_join {tss : List (List Token)} {es : List Expr}
    (h : List.Forall₂ DerivesItem tss es) : DerivesItems (joinCommas tss) es := by
  induction h with
  | nil => exact .nil
  | @cons ts e tss es h htss ih =>
    cases htss with
    | nil => exact .last h
    | cons => exact .cons h ih

/-- Tokens of operands, joined by commas, are derived as operands. -/
theorem derivesOperands_join {tss : List (List Token)} {es : List Expr} (hne : es ≠ [])
    (h : List.Forall₂ (Derives (.operator Operator.assignment.precedence)) tss es) :
    DerivesOperands (joinCommas tss) es := by
  induction h with
  | nil => exact absurd rfl hne
  | @cons ts e tss es h htss ih =>
    cases htss with
    | nil => exact .last h
    | cons => exact .cons h (ih (List.cons_ne_nil _ _))

/-- Whether the pieces have these tokens before whatever starts with a stop. -/
def HasTokens (a : Alphabet) (xs : List Piece) (ts : List Token) : Prop :=
  ∀ rest : List Char, rest.head?.all (isStop false) = true → Lexes a (flat xs) ts rest

/-- Items joined by commas have the joined tokens. -/
theorem hasTokens_commas {xss : List (List Piece)} {tss : List (List Token)}
    (h : List.Forall₂ (HasTokens a) xss tss) : HasTokens a (commas xss) (joinCommas tss) := by
  induction h with
  | nil => exact fun rest _ => .nil rest
  | @cons xs ts xss tss h hxss ih =>
    cases hxss with
    | nil => exact h
    | cons =>
      intro rest hrest
      have hcomma : ∀ rest, Lexes a ",".toList [.punctuator ","] rest :=
        lexes_longest (by decide) (by decide) (by decide)
      have htext : ", ".toList = ",".toList ++ [' '] := rfl
      rw [commas, flat_append, flat_text, htext]
      · exact .append (h _ rfl) (.append (.append (hcomma _) (.blank _)) (ih rest hrest))
      · exact fun heq => by cases heq

/-- Taking locations away keeps the number of expressions. -/
theorem length_unlocatedAll (es : List Expr) : (unlocatedAll es).length = es.length := by
  induction es with
  | nil => rfl
  | cons e es ih => exact congrArg (· + 1) ih

/-- If each item has tokens, there are tokens for all of them. -/
theorem exists_tokens {sep : Separator} {D : List Token → Expr → Prop} {items : List Expr}
    (h : ∀ e ∈ items, ∃ ts, D ts e.unlocated ∧
      HasTokens a (wrap e.isWrappedItem (e.pieces sep)) ts) :
    ∃ tss, List.Forall₂ D tss (unlocatedAll items) ∧
      List.Forall₂ (HasTokens a) (itemPieces sep items) tss := by
  induction items with
  | nil => exact ⟨[], .nil, .nil⟩
  | cons e items ih =>
    obtain ⟨ts, hts, hlex⟩ := h e List.mem_cons_self
    obtain ⟨tss, htss, hlexes⟩ := ih fun e he => h e (List.mem_cons_of_mem _ he)
    exact ⟨ts :: tss, .cons hts htss, .cons hlex hlexes⟩

/-- Items between brackets. -/
theorem items_parse {sep : Separator} {items : List Expr}
    (h : ∀ e ∈ items, ∃ ts, DerivesItem ts e.unlocated ∧
      HasTokens a (wrap e.isWrappedItem (e.pieces sep)) ts) :
    ∃ ts, DerivesItems ts (unlocatedAll items) ∧
      HasTokens a (commas (itemPieces sep items)) ts := by
  obtain ⟨tss, htss, hlexes⟩ := exists_tokens h
  exact ⟨joinCommas tss, derivesItems_join htss, hasTokens_commas hlexes⟩

/-! ## Every form -/

/-- Stops are no characters of names and numbers. -/
theorem stop_spec {dot : Bool} {c : Char} (h : isStop dot c = true) :
    a.isPart c = false ∧ a.isStart c = false ∧ c.isDigit = false ∧ (dot = false → c ≠ '.') := by
  have hall : ∀ c ∈ [' ', ')', ']', ',', '(', '[', '.'], c.toNat < 128 ∧ isOther c = true ∧
      (c.isAlphanum || c == '_' || c == '$') = false ∧ c.isDigit = false :=
    List.forall_iff_forall_mem.mp (by decide)
  have hmem : c ∈ [' ', ')', ']', ',', '(', '['] ∨ dot = true ∧ c = '.' := by
    simpa [isStop] using h
  have hdot : dot = false → c ≠ '.' := by
    rintro rfl rfl
    cases h
  obtain ⟨hascii, hother, hpart, hdigit⟩ := hall c <| by
    rcases hmem with hmem | ⟨-, rfl⟩
    · exact List.mem_append_left ['.'] hmem
    · decide
  refine ⟨?_, isStart_of_isOther hother, hdigit, hdot⟩
  rw [a.part_ascii c hascii, hpart]

/-- No name goes on where the pieces of an operand stop. -/
theorem isPart_of_stop {dot : Bool} {rest : List Char}
    (h : rest.head?.all (isStop dot) = true) : rest.head?.any a.isPart = false := by
  cases rest with
  | nil => rfl
  | cons c rest => exact (stop_spec h).1

/-- No number goes on where the pieces of an operand stop. -/
theorem isDigit_of_stop {rest : List Char} (h : rest.head?.all (isStop false) = true) :
    rest.head?.any (fun c => c.isDigit || c == '.' || a.isStart c) = false := by
  cases rest with
  | nil => rfl
  | cons c rest =>
    obtain ⟨-, hstart, hdigit, hdot⟩ := @stop_spec a false c h
    simp [hstart, hdigit, hdot rfl]

/-- A character that is there and passes a test passes it if it is there. -/
theorem all_of_any {p : Char → Bool} {o : Option Char} (h : o.any p = true) : o.all p = true := by
  cases o with
  | none => rfl
  | some c => exact h

/-! ### Levels of operands -/

/-- The level of a left operand is at most that of accesses and calls. -/
theorem Operator.leftLevel_le (op : Operator) : op.leftLevel ≤ leftHandSide := by
  cases op <;> decide

/-- The level of a right operand is at most that of accesses and calls. -/
theorem Operator.rightLevel_le {op : Operator} (hop : op.isBinary = true) :
    op.rightLevel ≤ leftHandSide := by
  revert hop
  cases op <;> decide

/-- Only assignments and powers group to the right. -/
theorem Operator.right_associative {op : Operator} (hop : op.isBinary = true)
    (hside : op.associativity = .right) :
    op.precedence = Operator.assignment.precedence ∨ op = .exponentiation := by
  revert hop hside
  cases op <;> decide

/-- A target of an assignment is atomic. -/
theorem Expr.isAtomic_of_isTarget {e : Expr} (h : e.isTarget = true) : e.isAtomic = true := by
  obtain ⟨loc, form⟩ := e
  cases form with
  | ident | member | index => rfl
  | _ => cases h

/-- A left operand without parentheses is tight enough for its place. -/
theorem Expr.left_level {op : Operator} {left : Expr} (hop : op.isBinary = true)
    (htarget : op.precedence = Operator.assignment.precedence → left.isTarget = true)
    (hwrap : left.isWrappedOperand op .left = false) : op.leftLevel ≤ left.precedence := by
  rw [isWrappedOperand, Bool.or_eq_false_iff, decide_eq_false_iff_not, Nat.not_lt] at hwrap
  obtain ⟨hpower, hle⟩ := hwrap
  cases hside : op.associativity with
  | left =>
    rw [Operator.operandPrecedence.eq_def, hside] at hle
    rw [Operator.leftLevel, hside]
    exact hle
  | right =>
    rw [Operator.leftLevel, hside]
    rcases Operator.right_associative hop hside with hassign | rfl
    · exact leftHandSide_le_precedence (isAtomic_of_isTarget (htarget hassign))
    · -- The language has no unary operator there, which would be tight enough for the table.
      have hne : left.precedence ≠ Operator.negation.precedence := by simpa using hpower
      exact Nat.lt_of_le_of_ne hle hne.symm

/-- A right operand without parentheses is tight enough for its place. -/
theorem Expr.right_level {op : Operator} {right : Expr}
    (hwrap : right.isWrappedOperand op .right = false) : op.rightLevel ≤ right.precedence := by
  have h : op.operandPrecedence .right ≤ right.precedence := by
    simpa [isWrappedOperand] using hwrap
  rw [Operator.operandPrecedence.eq_def] at h
  rw [Operator.rightLevel]
  cases hside : op.associativity <;> simpa [hside] using h

namespace Expr.Recovered

variable {sep : Separator}

/-- Expressions of one token. -/
theorem token {e : Expr} {text : String} {t : Token}
    (hpieces : e.pieces sep = Layout.token text e.loc) (hcategory : e.category = .primary)
    (hatom : Atom t e.unlocated)
    (hlex : ∀ rest : List Char, rest.head?.all (isStop (!e.isWrappedObject)) = true →
      Lexes a text.toList [t] rest)
    (hhead : text.toList.head?.any isApart = true) : e.Recovered a sep := by
  constructor
  · rw [hpieces, hcategory]
    refine ⟨[t], .atom hatom, fun rest hrest => ?_⟩
    rw [flat_token]
    exact hlex rest hrest
  · rw [hpieces, flat_token]
    exact fun _ => hhead

/-- A name is read as the identifier. -/
theorem name {e : Expr} {name : String} (hpieces : e.pieces sep = Layout.token name e.loc)
    (hcategory : e.category = .primary) (hatom : Atom (.name name) e.unlocated)
    (hname : a.IsName name) : e.Recovered a sep := by
  refine .token hpieces hcategory hatom
    (fun rest hrest => lexes_name hname (isPart_of_stop hrest)) ?_
  obtain ⟨c, cs, hcs, hstart, -⟩ := hname
  rw [hcs]
  exact isApart_of_isStart (.inl hstart)

/-- A finite number without a sign is read as its constant. -/
theorem number {loc : Option Location} {x : Binary64} (hfinite : x.isFinite = true)
    (hsign : x.signBit = false) : Expr.Recovered a sep ⟨loc, .literal (.number x)⟩ := by
  obtain ⟨whole, fraction, hdecimal, hnearest⟩ := Binary64.text_isDecimal hfinite hsign
  have hpositive : x.isNegative = false := by simp [Binary64.isNegative, hsign]
  refine .token rfl rfl (.number hnearest) (fun rest hrest => ?_) ?_
  · have hobject : isWrappedObject ⟨loc, .literal (.number x)⟩ = true := by
      simp [isWrappedObject, isNumber]
    rw [hobject] at hrest
    exact lexes_number hdecimal (isDigit_of_stop hrest)
  · obtain ⟨c, cs, hcs⟩ := List.exists_cons_of_ne_nil hdecimal.whole_ne_nil
    have hc : c.isDigit = true := hdecimal.digit c (by simp [hcs])
    have htext : x.text.toList.head? = some c := by
      rw [hdecimal.text_eq, hcs]
      rfl
    rw [Literal.text, htext]
    exact isApart_of_isStart (a := a) (.inr hc)

/-- An operand that is wrapped unless it is an atom. -/
theorem atom {e : Expr} (h : e.Recovered a sep) {n : Nat} (hn : n ≤ leftHandSide) :
    ParsesAs a false (wrap (!e.isAtomic) (e.pieces sep)) (.operator n) e.unlocated :=
  h.operand hn fun hw => hn.trans (leftHandSide_le_precedence (by simpa using hw))

/-- An array is read as such if its items are. -/
theorem array {loc : Option Location} {items : List Expr} {ts : List Token}
    (hts : DerivesItems ts (unlocatedAll items))
    (hlex : HasTokens a (commas (itemPieces sep items)) ts) :
    Expr.Recovered a sep ⟨loc, .array items⟩ := by
  constructor
  · refine ⟨_, .array hts, fun rest _ => ?_⟩
    have htext : flat (Expr.pieces sep ⟨loc, .array items⟩) =
        "[".toList ++ flat (commas (itemPieces sep items)) ++ "]".toList := by
      simp [Expr.pieces, ExprForm.pieces]
    rw [htext]
    exact .append (.append (lexes_bracket (by decide) _) (hlex _ rfl))
      (lexes_bracket (by decide) rest)
  · intro _
    simp [Expr.pieces, ExprForm.pieces]
    decide

/-- A unary operation is read as such if its operand is. -/
theorem unary {loc : Option Location} {op : Operator} {operand : Expr} (hop : op.isUnary = true)
    (h : operand.Recovered a sep) : Expr.Recovered a sep ⟨loc, .unary op operand⟩ := by
  have hwrap : (!operand.isAtomic) = false → operand.isAtomic = true := by simp
  constructor
  · obtain ⟨ts, hts, hlex⟩ := h.atom (Operator.precedence_bounds op).2
    refine ⟨_, .unary hop hts, fun rest hrest => ?_⟩
    have htext : flat (Expr.pieces sep ⟨loc, .unary op operand⟩) =
        (op.token.toList ++ if op.isWord then [' '] else []) ++
          flat (wrap (!operand.isAtomic) (operand.pieces sep)) := by
      cases hword : op.isWord <;> simp [Expr.pieces, ExprForm.pieces, hword]
    rw [htext]
    exact .append (lexes_unary hop (all_of_any (h.head_wrap hwrap rest))) (hlex rest hrest)
  · exact fun h => by cases h

/-- A binary operation is read as such if its operands are. -/
theorem binary {loc : Option Location} {op : Operator} {left right : Expr}
    (hop : op.isBinary = true)
    (htarget : op.precedence = Operator.assignment.precedence → left.isTarget = true)
    (hleft : left.Recovered a sep) (hright : right.Recovered a sep) :
    Expr.Recovered a sep ⟨loc, .binary op left right⟩ := by
  constructor
  · obtain ⟨ts, hts, hlex⟩ := hleft.operand op.leftLevel_le (left_level hop htarget)
    obtain ⟨us, hus, hlex'⟩ := hright.operand (Operator.rightLevel_le hop) right_level
    refine ⟨_, .binary hop hts hus, fun rest hrest => ?_⟩
    have htext : flat (Expr.pieces sep ⟨loc, .binary op left right⟩) =
        flat (wrap (left.isWrappedOperand op .left) (left.pieces sep)) ++
          ((" " ++ op.token ++ " ").toList ++
            flat (wrap (right.isWrappedOperand op .right) (right.pieces sep))) := by
      simp [Expr.pieces, ExprForm.pieces]
    rw [htext]
    exact .append (hlex _ (by simp; rfl)) (.append (lexes_binary hop _) (hlex' rest hrest))
  · exact fun h => by cases h

/-- A conditional is read as such if its parts are. -/
theorem conditional {loc : Option Location} {test thenExpr elseExpr : Expr}
    (htest : test.Recovered a sep) (hthen : thenExpr.Recovered a sep)
    (helse : elseExpr.Recovered a sep) :
    Expr.Recovered a sep ⟨loc, .conditional test thenExpr elseExpr⟩ := by
  constructor
  · have hle : Operator.conditional.precedence + 1 ≤ leftHandSide := by decide
    obtain ⟨ts, hts, hlex⟩ := htest.atom hle
    obtain ⟨us, hus, hlex'⟩ := hthen.atom (Operator.precedence_bounds .assignment).2
    obtain ⟨vs, hvs, hlex''⟩ := helse.atom (Operator.precedence_bounds .assignment).2
    refine ⟨_, .conditional hts hus hvs, fun rest hrest => ?_⟩
    have htext : flat (Expr.pieces sep ⟨loc, .conditional test thenExpr elseExpr⟩) =
        (flat (wrap (!test.isAtomic) (test.pieces sep)) ++
          ([' '] ++ ("?".toList ++ ([' '] ++
            flat (wrap (!thenExpr.isAtomic) (thenExpr.pieces sep)))))) ++
          ([' '] ++ (":".toList ++ ([' '] ++
            flat (wrap (!elseExpr.isAtomic) (elseExpr.pieces sep))))) := by
      simp [Expr.pieces, ExprForm.pieces]
    have hmark : ∀ p ∈ ["?", ":"], p.toList ∈ punctuators ∧
        (p.toList ≠ ['?', '.'] ∧ p.toList ≠ ['.']) := by
      decide
    have hlexes : ∀ p ∈ ["?", ":"], ∀ {cs : List Char} {ts : List Token} {rest : List Char},
        Lexes a cs ts rest →
        Lexes a ([' '] ++ (p.toList ++ ([' '] ++ cs))) (.punctuator p :: ts) rest := by
      intro p hp cs ts rest hcs
      obtain ⟨hmem, hne⟩ := hmark p hp
      exact .append (.blank _) (.append (lexes_apart hmem hne rfl) (.append (.blank _) hcs))
    rw [htext]
    exact .append (.append (hlex _ rfl) (hlexes _ (by decide) (hlex' _ rfl)))
      (hlexes _ (by decide) (hlex'' rest hrest))
  · exact fun h => by cases h

/-- A call is read as such if its callee and its arguments are. -/
theorem call {loc : Option Location} {callee : Expr} {args : List Expr} {us : List Token}
    (h : callee.Recovered a sep) (hargs : DerivesItems us (unlocatedAll args))
    (hlexargs : HasTokens a (commas (itemPieces sep args)) us) :
    Expr.Recovered a sep ⟨loc, .call callee args⟩ := by
  have hwrap : (!callee.isAtomic) = false → callee.isAtomic = true := by simp
  have htext : flat (Expr.pieces sep ⟨loc, .call callee args⟩) =
      flat (wrap (!callee.isAtomic) (callee.pieces sep)) ++
        ("(".toList ++ flat (commas (itemPieces sep args))) ++ ")".toList := by
    simp [Expr.pieces, ExprForm.pieces]
  constructor
  · obtain ⟨ts, hts, hlex⟩ := (h.callee hwrap).dotless
    refine ⟨_, .call (ite_eq_or_eq ..).symm hts hargs, fun rest _ => ?_⟩
    rw [htext]
    exact .append (.append (hlex _ rfl) (.append (lexes_bracket (by decide) _) (hlexargs _ rfl)))
      (lexes_bracket (by decide) rest)
  · intro _
    rw [htext, List.append_assoc]
    exact h.head_wrap hwrap _

/-- A construction is read as such if its callee and its arguments are. -/
theorem construct {loc : Option Location} {callee : Expr} {args : List Expr} {us : List Token}
    (h : callee.Recovered a sep) (hargs : DerivesItems us (unlocatedAll args))
    (hlexargs : HasTokens a (commas (itemPieces sep args)) us) :
    Expr.Recovered a sep ⟨loc, .construct callee args⟩ := by
  have hwrap : callee.isWrappedConstructor = false → callee.isAtomic = true := by
    rw [isWrappedConstructor, Bool.or_eq_false_iff, Bool.not_eq_false']
    exact And.left
  have hmember : (callee.leadsWithCall && !callee.isWrappedConstructor) = false := by
    cases hcall : callee.leadsWithCall <;> simp [isWrappedConstructor, hcall]
  have htext : flat (Expr.pieces sep ⟨loc, .construct callee args⟩) =
      ("new".toList ++ [' ']) ++ flat (wrap callee.isWrappedConstructor (callee.pieces sep)) ++
        ("(".toList ++ flat (commas (itemPieces sep args))) ++ ")".toList := by
    simp [Expr.pieces, ExprForm.pieces]
  constructor
  · obtain ⟨ts, hts, hlex⟩ := (h.callee hwrap).dotless
    rw [hmember] at hts
    refine ⟨_, .construct hts hargs, fun rest _ => ?_⟩
    rw [htext]
    exact .append (.append (.append (lexes_word (by decide) _) (hlex _ rfl))
      (.append (lexes_bracket (by decide) _) (hlexargs _ rfl))) (lexes_bracket (by decide) rest)
  · intro _
    rw [htext]
    rfl

/-- A member is read as such if its object is. -/
theorem member {loc : Option Location} {object : Expr} {property : String}
    (h : object.Recovered a sep) (hname : a.IsName property) :
    Expr.Recovered a sep ⟨loc, .member object property⟩ := by
  have htext : flat (Expr.pieces sep ⟨loc, .member object property⟩) =
      flat (wrap object.isWrappedObject (object.pieces sep)) ++ ("." ++ property).toList := by
    simp [Expr.pieces, ExprForm.pieces]
  constructor
  · obtain ⟨ts, hts, hlex⟩ := h.object
    refine ⟨_, .property (ite_eq_or_eq ..).symm hts property, fun rest hrest => ?_⟩
    rw [htext]
    exact .append (hlex _ (by simp; rfl)) (lexes_property hname (isPart_of_stop hrest))
  · intro _
    rw [htext]
    exact h.head_wrap isAtomic_of_bare_object _

/-- An element is read as such if its object and its index are. -/
theorem index {loc : Option Location} {object index : Expr} (hobject : object.Recovered a sep)
    (hindex : index.Recovered a sep) : Expr.Recovered a sep ⟨loc, .index object index⟩ := by
  have htext : flat (Expr.pieces sep ⟨loc, .index object index⟩) =
      flat (wrap object.isWrappedObject (object.pieces sep)) ++
        ("[".toList ++ flat (index.pieces sep)) ++ "]".toList := by
    simp [Expr.pieces, ExprForm.pieces]
  constructor
  · obtain ⟨ts, hts, hlex⟩ := hobject.object
    obtain ⟨us, hus, hlex'⟩ := hindex.whole
    refine ⟨_, .index (ite_eq_or_eq ..).symm hts hus, fun rest _ => ?_⟩
    rw [htext]
    exact .append (.append (hlex _ rfl) (.append (lexes_bracket (by decide) _) (hlex' _ rfl)))
      (lexes_bracket (by decide) rest)
  · intro _
    rw [htext, List.append_assoc]
    exact hobject.head_wrap isAtomic_of_bare_object _

/-- A sequence is read as such if its operands are. -/
theorem sequence {loc : Option Location} {items : List Expr} {ts : List Token}
    (hts : DerivesOperands ts (unlocatedAll items)) (hitems : 2 ≤ items.length)
    (hlex : HasTokens a (commas (itemPieces sep items)) ts) :
    Expr.Recovered a sep ⟨loc, .sequence items⟩ := by
  have htext : flat (Expr.pieces sep ⟨loc, .sequence items⟩) =
      flat (commas (itemPieces sep items)) := by
    simp [Expr.pieces, ExprForm.pieces]
  constructor
  · refine ⟨_, .sequence hts (by rwa [length_unlocatedAll]), fun rest hrest => ?_⟩
    rw [htext]
    exact hlex rest hrest
  · exact fun h => by cases h

/-- Whatever is wrapped as an item is a sequence. -/
theorem item {e : Expr} (h : e.Recovered a sep) (hprecedence : e.precedence ≠ itemPrecedence) :
    ParsesAs a false (wrap e.isWrappedItem (e.pieces sep))
      (.operator Operator.assignment.precedence) e.unlocated := by
  refine h.operand (Operator.precedence_bounds .assignment).2 fun hwrap => ?_
  have hle : itemPrecedence ≤ e.precedence := by simpa [isWrappedItem] using hwrap
  exact Nat.lt_of_le_of_ne hle hprecedence.symm

end Expr.Recovered

/-- A basic expression is no mere item of a list. -/
theorem Expr.Basic.precedence_ne {e : Expr} (h : Basic a e) : e.precedence ≠ itemPrecedence := by
  have hop : ∀ op : Operator, op.precedence ≠ itemPrecedence := by
    intro op
    cases op <;> decide
  cases h with
  | unary | binary => exact hop _
  | conditional => exact hop .conditional
  | sequence => exact hop .comma
  | number _ _ hsign =>
    simp [precedence, Binary64.isNegative, hsign, atomPrecedence, itemPrecedence]
  | call | construct | member | index => exact (by decide : callPrecedence ≠ itemPrecedence)
  | _ => exact (by decide : atomPrecedence ≠ itemPrecedence)

mutual

/-- Every basic expression is recovered from its text. -/
theorem Expr.Basic.recovered (sep : Separator) {e : Expr} : Basic a e → e.Recovered a sep
  | .ident loc h hword => .name rfl rfl (.ident hword) h
  | .this loc => .name rfl rfl .this (isName_word (by decide))
  | .null loc => .name rfl rfl .null (isName_word (by decide))
  | .bool loc true => .name rfl rfl .boolTrue (isName_word (by decide))
  | .bool loc false => .name rfl rfl .boolFalse (isName_word (by decide))
  | .string loc value => by
    have hhead : (stringLiteral value).toList.head?.any isApart = true := by
      simp [stringLiteral]
      decide
    exact .token rfl rfl (.string value) (fun rest _ => lexes_string value rest) hhead
  | .number loc hfinite hsign => .number hfinite hsign
  | .array loc h =>
    have ⟨_, hts, hlex⟩ := items_parse fun e he => (h e he).recovered sep
    .array hts hlex
  | .unary loc hop h => (h.recovered sep).unary hop
  | .binary loc hop htarget hleft hright =>
    .binary hop htarget (hleft.recovered sep) (hright.recovered sep)
  | .conditional loc htest hthen helse =>
    .conditional (htest.recovered sep) (hthen.recovered sep) (helse.recovered sep)
  | .call loc h hargs =>
    have ⟨_, hts, hlex⟩ := items_parse fun e he => (hargs e he).recovered sep
    (h.recovered sep).call hts hlex
  | .construct loc h hargs =>
    have ⟨_, hts, hlex⟩ := items_parse fun e he => (hargs e he).recovered sep
    (h.recovered sep).construct hts hlex
  | .member loc h hname => (h.recovered sep).member hname
  | .index loc hobject hindex => .index (hobject.recovered sep) (hindex.recovered sep)
  | @Expr.Basic.sequence _ loc items h hitems => by
    obtain ⟨tss, htss, hlexes⟩ := exists_tokens fun e he =>
      ((h e he).recovered sep).item (h e he).precedence_ne
    have hne : unlocatedAll items ≠ [] := by
      rw [← List.length_pos_iff, length_unlocatedAll]
      omega
    exact .sequence (derivesOperands_join hne htss) hitems (hasTokens_commas hlexes)

/-- The tokens of an item. -/
theorem Expr.BasicItem.recovered (sep : Separator) {e : Expr} : BasicItem a e →
    ∃ ts, DerivesItem ts e.unlocated ∧ HasTokens a (wrap e.isWrappedItem (e.pieces sep)) ts
  | .plain h => by
    obtain ⟨ts, hts, hlex⟩ := (h.recovered sep).item h.precedence_ne
    exact ⟨ts, .plain hts, hlex⟩
  | @Expr.BasicItem.spread _ loc operand h => by
    obtain ⟨ts, hts, hlex⟩ := (h.recovered sep).item h.precedence_ne
    refine ⟨_, .spread hts, fun rest hrest => ?_⟩
    have htext : flat (wrap (isWrappedItem ⟨loc, .spread operand⟩)
        (Expr.pieces sep ⟨loc, .spread operand⟩)) =
        "...".toList ++ flat (wrap operand.isWrappedItem (operand.pieces sep)) := by
      have hbare : isWrappedItem ⟨loc, .spread operand⟩ = false := by
        simp [isWrappedItem, precedence]
      simp [hbare, wrap, Expr.pieces, ExprForm.pieces]
    rw [htext]
    exact .append (lexes_bracket (by decide) _) (hlex rest hrest)

end

/-- The text of a basic expression is the characters of its pieces. -/
theorem Expr.Basic.print_eq (options : PrintOptions) {e : Expr} (h : Basic a e) :
    (e.print options).toList = flat (e.pieces options.separator) := by
  have hinline := h.inline options.separator
  rw [print, (Printer.run_out _ _).1]
  simp [Printer.start, text_inkAll _ _ hinline]

/-- The text of an expression has tokens that the grammar derives the expression from, without its
locations, and no other tree. So expressions with the same tokens are the same. -/
theorem Expr.print_grouping (a : Alphabet) (options : PrintOptions) {e : Expr} (h : Basic a e) :
    (∃ ts, lex a (e.print options).toList = some ts ∧ Derives (.operator 1) ts e.unlocated ∧
      ∀ f, Derives (.operator 1) ts f → f = e.unlocated) ∧
    ∀ f, Basic a f → lex a (f.print options).toList = lex a (e.print options).toList →
      f.unlocated = e.unlocated := by
  have hread : ∀ {e : Expr}, Basic a e → ∃ ts, lex a (e.print options).toList = some ts ∧
      Derives (.operator 1) ts e.unlocated := by
    intro e h
    obtain ⟨ts, hts, hlex⟩ := (h.recovered options.separator).whole
    have hlex := hlex [] rfl
    rw [Lexes, List.append_nil, lex_nil, Option.map_some, List.append_nil] at hlex
    exact ⟨ts, by rw [h.print_eq, hlex], hts⟩
  obtain ⟨ts, hlex, hts⟩ := hread h
  refine ⟨⟨ts, hlex, hts, fun f hf => hf.unique hts⟩, fun f hf heq => ?_⟩
  obtain ⟨us, hlex', hus⟩ := hread hf
  rw [hlex', hlex] at heq
  cases heq
  exact hus.unique hts

/-- A power of a negation. -/
def negatedPower : Expr :=
  .binary .exponentiation (.unary .negation (.ident "a")) (.ident "b")

/-- The power of a negation needs its parentheses: without them it would be read otherwise. -/
theorem negatedPower_grouping : negatedPower.print .default = "(-a) ** b" ∧
    ∃ ts, lex .ascii (negatedPower.print .default).toList = some ts ∧
      Derives (.operator 1) ts negatedPower ∧
      ∀ f, Derives (.operator 1) ts f → f = negatedPower := by
  have hname : ∀ name ∈ ["a", "b"], Alphabet.ascii.IsName name ∧ name ∉ keywords := by
    intro name hname
    have hall : ∀ name ∈ ["a", "b"], isWord name = true ∧ name ∉ keywords := by decide
    obtain ⟨hletters, hword⟩ := hall name hname
    exact ⟨isName_word hletters, hword⟩
  have hident : ∀ name ∈ ["a", "b"], Expr.Basic .ascii (.ident name) := fun name h =>
    .ident none (hname name h).1 (hname name h).2
  have hbasic : Expr.Basic .ascii negatedPower :=
    .binary none (by decide) (by decide) (.unary none (by decide) (hident "a" (by decide)))
      (hident "b" (by decide))
  exact ⟨by decide, (Expr.print_grouping .ascii .default hbasic).1⟩

end JavaScript

end TypedLowering
