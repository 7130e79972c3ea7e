import TypedLowering.Printing.Program
import TypedLowering.Proofs.JavaScript.Tokens

/-!
# Arguments of templates as operands

A template may go on with `.name`, `[` or `(` right behind a reference, or have `new` right in front
of it. The argument is then the operand of this construct, and it is put into parentheses unless it
is atomic (`reference_isWrapped`). The printer puts the same parentheses around the operand of a
node for the construct, and others besides: around a number in front of an access, and around an
atomic constructor that leads with a call. These two are missing here (`numberReference_bare`). -/

namespace TypedLowering.JavaScript

open Ir (Location)
open Layout (mark token wrap commas)

/-! ## Operands of nodes -/

/-- The operand of a construct, by what else the construct has. -/
inductive Operand where
  | object (property : String)
  | indexed (index : Expr)
  | callee (args : List Expr)
  | constructor (args : List Expr)

namespace Operand

/-- The construct around an operand. -/
def node (e : Expr) : Operand → ExprForm
  | object property => .member e property
  | indexed index => .index e index
  | callee args => .call e args
  | constructor args => .construct e args

/-- Whether the printer puts the operand of the construct into parentheses. -/
def isWrapped (e : Expr) : Operand → Bool
  | object _ | indexed _ => e.isWrappedObject
  | callee _ => !e.isAtomic
  | constructor _ => e.isWrappedConstructor

/-- What is printed in front of the operand. -/
def before (loc : Option Location) : Operand → List Piece
  | constructor _ => token "new " loc
  | object _ | indexed _ | callee _ => mark loc

/-- What is printed behind the operand. -/
def behind (sep : Separator) : Operand → List Piece
  | object property => [.text ("." ++ property)]
  | indexed index => .text "[" :: index.pieces sep ++ [.text "]"]
  | callee args | constructor args => .text "(" :: commas (itemPieces sep args) ++ [.text ")"]

/-- A node for the construct is printed with these parentheses around its operand. -/
theorem pieces_node (o : Operand) (e : Expr) (sep : Separator) (loc : Option Location) :
    (o.node e).pieces sep loc =
      o.before loc ++ wrap (o.isWrapped e) (e.pieces sep) ++ o.behind sep := by
  cases o <;> simp [node, ExprForm.pieces, before, isWrapped, behind]

/-- Whether the parentheses around an operand are missing where an argument of a template is one. -/
def isMissed (e : Expr) : Operand → Bool
  | object _ | indexed _ => e.isAtomic && e.isNumber
  | callee _ => false
  | constructor _ => e.isAtomic && e.leadsWithCall

/-- An operand that is wrapped where parentheses are not missing is one that is not atomic. -/
theorem isWrapped_and_not_isMissed (o : Operand) (e : Expr) :
    (o.isWrapped e && !o.isMissed e) = !e.isAtomic := by
  cases o <;> cases hatomic : e.isAtomic <;>
    simp [isWrapped, isMissed, Expr.isWrappedObject, Expr.isWrappedConstructor, hatomic]

end Operand

/-! ## References in a template -/

namespace Template

/-- The characters and references of a template, with groups and lists expanded. -/
def expanded (template : String) (args : List Expr) : List Token :=
  tokens 0 (expandLists args.length 0 (expandGroups args 0 template.toList))

/-- Characters that a template has as they are. -/
def plain (text : String) : List Token := text.toList.map .char

/-- What was read since the last reference, in reverse order. -/
def pendingAfter : List Char → List Token → List Char
  | pending, [] => pending
  | pending, .char c :: rest => pendingAfter (c :: pending) rest
  | _, .ref _ _ :: rest => pendingAfter [] rest

/-- Whether a reference stands for the raw text of its argument. -/
def isInlined (isRaw : Bool) (arg : Expr) : Bool :=
  match isRaw, arg.form with
  | true, .literal (.string _) => true
  | _, _ => false

theorem isClosing_append_ref (front rest : List Token) (digits : List Char) (isRaw : Bool) :
    isClosing (front ++ .ref digits isRaw :: rest) = isClosing front := by
  rcases front with _ | ⟨c | _, front⟩
  · rfl
  · simp only [List.cons_append, isClosing.eq_def]
    split <;> simp_all
  · rfl

/-- A reference makes no difference to the segments of what is in front of it. -/
theorem segments_reference (args : List Expr) (pending : List Char) (front rest : List Token)
    (digits : List Char) (isRaw : Bool) :
    segments args pending (front ++ .ref digits isRaw :: rest) = segments args pending front ++
      resolve args (isOpening (pendingAfter pending front)) (isClosing rest) digits isRaw ::
        segments args [] rest := by
  induction front generalizing pending with
  | nil => simp [segments, pendingAfter]
  | cons t front ih =>
    cases t with
    | char c => simp only [List.cons_append, segments, pendingAfter, ih]
    | ref ds raw =>
      simp [segments, pendingAfter, ih, isClosing_append_ref]

/-- A reference to an argument that is not inlined becomes the argument. -/
theorem resolve_argument {args : List Expr} {digits : List Char} {i : Nat} {arg : Expr}
    (harg : argument? args digits = some (i, arg)) {isRaw : Bool}
    (hinlined : isInlined isRaw arg = false) (opened closed : Bool) :
    resolve args opened closed digits isRaw =
      .arg i (!(opened && closed && !arg.isWrappedItem) && !arg.isAtomic) := by
  simp only [resolve, harg]
  split
  · rename_i value hform
    simp [isInlined, hform] at hinlined
  · rfl

/-- The text in front of a reference ends with the character that was read last. -/
theorem pendingAfter_append_char (pending : List Char) (front : List Token) (c : Char) :
    pendingAfter pending (front ++ [.char c]) = c :: pendingAfter pending front := by
  induction front generalizing pending with
  | nil => rfl
  | cons t front ih => cases t <;> exact ih _

theorem argument_getElem? {args : List Expr} {digits : List Char} {i : Nat} {arg : Expr}
    (h : argument? args digits = some (i, arg)) : args[i]? = some arg :=
  (argument?_eq_some.1 h).2

end Template

open Template

theorem argPieces_eq_map (sep : Separator) (args : List Expr) :
    argPieces sep args = args.map (·.pieces sep) := by
  induction args with
  | nil => rfl
  | cons e es ih => rw [argPieces, ih, List.map_cons]

theorem segmentPieces_append (args : List (List Piece)) (front rest : List Segment) :
    segmentPieces args (front ++ rest) = segmentPieces args front ++ segmentPieces args rest := by
  induction front with
  | nil => rfl
  | cons s front ih => cases s <;> simp [segmentPieces, ih]

namespace Operand

/-- Whether the template puts the construct around the reference between these tokens. -/
def Surrounds (front rest : List Template.Token) : Operand → Prop
  | object property => ∃ more, rest = plain ("." ++ property) ++ more
  | indexed _ => ∃ more, rest = plain "[" ++ more
  | callee _ => ∃ more, rest = plain "(" ++ more
  | constructor _ => ∃ start blanks, blanks ≠ "" ∧ (∀ c ∈ blanks.toList, Text.isBlank c = true) ∧
      front = start ++ plain ("new" ++ blanks)

/-- The template has no parentheses of its own right around the operand of a construct. -/
theorem Surrounds.not_parenthesized {o : Operand} {front rest : List Template.Token}
    (h : o.Surrounds front rest) :
    (isOpening (pendingAfter [] front) && isClosing rest) = false := by
  cases o with
  | object property =>
    obtain ⟨more, rfl⟩ := h
    simp [plain, isClosing]
  | indexed | callee =>
    obtain ⟨more, rfl⟩ := h
    simp [plain, isClosing]
  | constructor =>
    obtain ⟨start, blanks, hne, hblank, rfl⟩ := h
    obtain ⟨cs, c, hblanks⟩ : ∃ cs c, blanks.toList = cs ++ [c] :=
      (List.eq_nil_or_concat' _).resolve_left (by simpa using hne)
    have hc : c ≠ '(' := by
      rintro rfl
      have := hblank '(' (by simp [hblanks])
      revert this
      decide
    have hfront : start ++ plain ("new" ++ blanks) =
        (start ++ plain ("new" ++ String.ofList cs)) ++ [.char c] := by
      simp [plain, hblanks]
    rw [hfront, pendingAfter_append_char]
    simp [isOpening, hc]

end Operand

/-- An argument is printed in parentheses unless it is atomic, or the template has parentheses
around it and it is no comma expression. So where the template makes it the operand of a construct,
it is wrapped as it would be in a node for the construct, but for numbers in front of an access and
for atomic constructors that lead with a call. -/
theorem reference_isWrapped {template : String} {args : List Expr}
    {front rest : List Template.Token} {digits : List Char} {isRaw : Bool} {i : Nat} {arg : Expr}
    (htokens : expanded template args = front ++ .ref digits isRaw :: rest)
    (harg : argument? args digits = some (i, arg)) (hinlined : isInlined isRaw arg = false) :
    ∃ isWrapped,
      (∀ sep loc, (ExprForm.emit template args).pieces sep loc =
        mark loc ++ segmentPieces (argPieces sep args) (segments args [] front) ++
          wrap isWrapped (arg.pieces sep) ++
          segmentPieces (argPieces sep args) (segments args [] rest)) ∧
      (isWrapped = true ∨ arg.isAtomic = true ∨ arg.isWrappedItem = false ∧
        isOpening (pendingAfter [] front) = true ∧ isClosing rest = true) ∧
      ∀ o : Operand, o.Surrounds front rest →
        isWrapped = (o.isWrapped arg && !o.isMissed arg) ∧
          ∀ sep loc, (o.node arg).pieces sep loc =
            o.before loc ++ wrap (o.isWrapped arg) (arg.pieces sep) ++ o.behind sep := by
  refine ⟨!(isOpening (pendingAfter [] front) && isClosing rest && !arg.isWrappedItem) &&
    !arg.isAtomic, fun sep loc => ?_, ?_, fun o hsurrounds => ?_⟩
  · have hpieces : (argPieces sep args).getD i [] = arg.pieces sep := by
      rw [argPieces_eq_map, List.getD_eq_getElem?_getD, List.getElem?_map, argument_getElem? harg]
      rfl
    have hsegments : expandTemplate template args =
        segments args [] (front ++ .ref digits isRaw :: rest) := congrArg (segments args []) htokens
    rw [ExprForm.pieces, hsegments, segments_reference, resolve_argument harg hinlined,
      segmentPieces_append, segmentPieces, hpieces]
    simp only [List.append_assoc]
  · cases arg.isAtomic <;> cases isOpening (pendingAfter [] front) <;> cases isClosing rest <;>
      cases arg.isWrappedItem <;> simp
  · rw [hsurrounds.not_parenthesized, o.isWrapped_and_not_isMissed]
    exact ⟨by simp, o.pieces_node arg⟩

/-! ## A constructor, and an object that is a number -/

/-- The sum of `a` and `b`, which is no operand of these constructs without parentheses. -/
def operandSum : Expr := .binary .addition (.ident "a") (.ident "b")

/-- With two arguments the template is `new $1($0, $1).size`. -/
def sizeTemplate : String := "\x7b\x7bnew $1\x7d\x7d($0...).size"

example : (Expr.of (.emit sizeTemplate [.number 7, operandSum])).print .default =
    "new (a + b)(7, (a + b)).size" := by
  decide +kernel

/-- The argument behind `new` in the template is put in parentheses. -/
theorem sizeTemplate_isWrapped :
    let args := [.number 7, operandSum]
    let rest : List Template.Token :=
      plain "(" ++ .ref ['0'] false :: plain ", " ++ .ref ['1'] false :: plain ").size"
    expanded sizeTemplate args = plain "new " ++ .ref ['1'] false :: rest ∧
      argument? args ['1'] = some (1, operandSum) ∧ isInlined false operandSum = false ∧
      (Operand.constructor args).Surrounds (plain "new ") rest ∧
      ∀ sep loc, (ExprForm.emit sizeTemplate args).pieces sep loc =
        mark loc ++ segmentPieces (argPieces sep args) (segments args [] (plain "new ")) ++
          wrap true (operandSum.pieces sep) ++
          segmentPieces (argPieces sep args) (segments args [] rest) := by
  intro args rest
  have htokens : expanded sizeTemplate args = plain "new " ++ .ref ['1'] false :: rest := by
    decide +kernel
  have hsurrounds : (Operand.constructor args).Surrounds (plain "new ") rest :=
    ⟨[], " ", by decide, List.forall_mem_singleton.2 rfl, rfl⟩
  have harg : argument? args ['1'] = some (1, operandSum) := rfl
  obtain ⟨isWrapped, hpieces, -, hoperand⟩ := reference_isWrapped htokens harg rfl
  rw [(hoperand _ hsurrounds).1] at hpieces
  exact ⟨htokens, rfl, rfl, hsurrounds, hpieces⟩

/-- In `$0.toString()` the argument is the object of an access. The number `1` is printed without
the parentheses that it has in a node for this access, and what is printed is no sequence of tokens.
-/
theorem numberReference_bare :
    let e : Expr := .number 1
    (∃ rest, expanded "$0.toString()" [e] = [] ++ .ref ['0'] false :: rest ∧
      (Operand.object "toString").Surrounds [] rest) ∧
    (Operand.object "toString").isWrapped e = true ∧
    (Expr.of ((Operand.object "toString").node e)).print .default = "(1).toString" ∧
    (Expr.of (.emit "$0.toString()" [e])).print .default = "1.toString()" ∧
    ∀ a, lex a "1.toString()".toList = none := by
  refine ⟨⟨plain ".toString()", by decide +kernel, plain "()", rfl⟩, by decide, by decide +kernel,
    by decide +kernel, fun a => ?_⟩
  -- The dot belongs to the number, and no name may follow a number directly.
  have hname : a.isStart 't' = true := a.start_ascii 't' (by decide)
  have hnumber : nextToken a "1.toString()".toList = none := by
    have hstart : a.isStart '1' = false := a.start_ascii '1' (by decide)
    simp [nextToken, hstart, readNumber, endNumber, hname]
  rw [show "1.toString()".toList = '1' :: ".toString()".toList from rfl] at hnumber ⊢
  rw [lex, if_neg (by decide)]
  split
  · rfl
  · rename_i hsome
    rw [hnumber] at hsome
    cases hsome

/-- Behind `new`, a call is printed without parentheses too, and its arguments become those of
`new`. -/
example :
    let e : Expr := .call (.ident "f") []
    (Expr.of (.emit "new $0()" [e])).print .default = "new f()()" ∧
      (Expr.of ((Operand.constructor []).node e)).print .default = "new (f())()" := by
  decide +kernel

end TypedLowering.JavaScript
