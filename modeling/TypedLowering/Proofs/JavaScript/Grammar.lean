import TypedLowering.JavaScript.Tree
import TypedLowering.Proofs.JavaScript.Tokens

/-!
# The grammar of expressions

What tokens derive (`Derives`): the expression grammar of the language, with one level for each
precedence of the operator table, and below them the levels of left-hand sides, constructions and
member accesses. Parentheses leave no trace in the tree. Left out are the forms with tokens of their
own, such as functions, objects, templates, regular expressions, increments and optional chains, and
holes in arrays.
-/

namespace TypedLowering.JavaScript

/-- The words that are no identifiers. -/
def keywords : List String := [
  "await", "break", "case", "catch", "class", "const", "continue", "debugger", "default", "delete",
  "do", "else", "enum", "export", "extends", "false", "finally", "for", "function", "if", "import",
  "in", "instanceof", "new", "null", "return", "super", "switch", "this", "throw", "true", "try",
  "typeof", "var", "void", "while", "with", "yield"]

/-- The words that are no names of variables in strict code. -/
def strictWords : List String :=
  keywords ++ ["arguments", "eval", "implements", "interface", "let", "package", "private",
    "protected", "public", "static"]

/-- The level of left-hand sides, above all operators. -/
def leftHandSide : Nat := 17

namespace Operator

/-- The token that stands for an operator. -/
def symbol (op : Operator) : Token :=
  if op.isWord then .name op.token else .punctuator op.token

/-- Whether the operator stands between two operands, and is not the comma. -/
def isBinary (op : Operator) : Bool :=
  !op.isUnary && op != .comma && op != .conditional

/-- The level of the left operand. What groups to the right, an assignment or a power, has a
left-hand side there. -/
def leftLevel (op : Operator) : Nat :=
  match op.associativity with
  | .left => op.precedence
  | .right => leftHandSide

/-- The level of the right operand. -/
def rightLevel (op : Operator) : Nat :=
  match op.associativity with
  | .left => op.precedence + 1
  | .right => op.precedence

end Operator

/-- The nonterminals for single expressions. -/
inductive Category where
  /-- Operators that bind at least as tight. Below the level of left-hand sides, the levels are the
  precedences of the operators. -/
  | operator (level : Nat)
  | call
  | new
  | member
  | primary
  deriving DecidableEq, Repr

/-- The expressions of a single token. -/
inductive Atom : Token → Expr → Prop
  | ident {name : String} (h : name ∉ keywords) : Atom (.name name) (.of (.ident name))
  | this : Atom (.name "this") (.of .this)
  | null : Atom (.name "null") (.of (.literal .null))
  | boolTrue : Atom (.name "true") (.of (.literal (.bool true)))
  | boolFalse : Atom (.name "false") (.of (.literal (.bool false)))
  | number {digits places : Nat} {x : Binary64} (h : Binary64.IsNearest (digits / 10 ^ places) x) :
    Atom (.number digits places) (.of (.literal (.number x)))
  | string (value : String) : Atom (.string value) (.of (.literal (.string value)))

mutual

/-- The tokens derive the expression. -/
inductive Derives : Category → List Token → Expr → Prop
  | atom {t : Token} {e : Expr} (h : Atom t e) : Derives .primary [t] e
  | array {ts : List Token} {items : List Expr} (h : DerivesItems ts items) :
    Derives .primary (.punctuator "[" :: ts ++ [.punctuator "]"]) (.of (.array items))
  | parentheses {ts : List Token} {e : Expr} (h : Derives (.operator 1) ts e) :
    Derives .primary (.punctuator "(" :: ts ++ [.punctuator ")"]) e
  | memberOfPrimary {ts : List Token} {e : Expr} (h : Derives .primary ts e) : Derives .member ts e
  | construct {ts us : List Token} {callee : Expr} {args : List Expr}
    (hcallee : Derives .member ts callee) (hargs : DerivesItems us args) :
    Derives .member (.name "new" :: ts ++ .punctuator "(" :: us ++ [.punctuator ")"])
      (.of (.construct callee args))
  | property {c : Category} {ts : List Token} {object : Expr} (hc : c = .member ∨ c = .call)
    (h : Derives c ts object) (name : String) :
    Derives c (ts ++ [.punctuator ".", .name name]) (.of (.member object name))
  | index {c : Category} {ts us : List Token} {object index : Expr} (hc : c = .member ∨ c = .call)
    (hobject : Derives c ts object) (hindex : Derives (.operator 1) us index) :
    Derives c (ts ++ .punctuator "[" :: us ++ [.punctuator "]"]) (.of (.index object index))
  | newOfMember {ts : List Token} {e : Expr} (h : Derives .member ts e) : Derives .new ts e
  /-- Without arguments. -/
  | bareNew {ts : List Token} {callee : Expr} (h : Derives .new ts callee) :
    Derives .new (.name "new" :: ts) (.of (.construct callee []))
  | call {c : Category} {ts us : List Token} {callee : Expr} {args : List Expr}
    (hc : c = .member ∨ c = .call) (hcallee : Derives c ts callee) (hargs : DerivesItems us args) :
    Derives .call (ts ++ .punctuator "(" :: us ++ [.punctuator ")"]) (.of (.call callee args))
  | ofNew {ts : List Token} {e : Expr} (h : Derives .new ts e) :
    Derives (.operator leftHandSide) ts e
  | ofCall {ts : List Token} {e : Expr} (h : Derives .call ts e) :
    Derives (.operator leftHandSide) ts e
  | tighter {n : Nat} {ts : List Token} {e : Expr} (hn : n < leftHandSide)
    (h : Derives (.operator (n + 1)) ts e) : Derives (.operator n) ts e
  | unary {op : Operator} {ts : List Token} {operand : Expr} (hop : op.isUnary = true)
    (h : Derives (.operator op.precedence) ts operand) :
    Derives (.operator op.precedence) (op.symbol :: ts) (.of (.unary op operand))
  | binary {op : Operator} {ts us : List Token} {left right : Expr} (hop : op.isBinary = true)
    (hleft : Derives (.operator op.leftLevel) ts left)
    (hright : Derives (.operator op.rightLevel) us right) :
    Derives (.operator op.precedence) (ts ++ op.symbol :: us) (.of (.binary op left right))
  | conditional {ts us vs : List Token} {test thenExpr elseExpr : Expr}
    (htest : Derives (.operator (Operator.conditional.precedence + 1)) ts test)
    (hthen : Derives (.operator Operator.assignment.precedence) us thenExpr)
    (helse : Derives (.operator Operator.assignment.precedence) vs elseExpr) :
    Derives (.operator Operator.conditional.precedence)
      (ts ++ .punctuator "?" :: us ++ .punctuator ":" :: vs)
      (.of (.conditional test thenExpr elseExpr))
  | sequence {ts : List Token} {items : List Expr} (h : DerivesOperands ts items)
    (hitems : 2 ≤ items.length) :
    Derives (.operator Operator.comma.precedence) ts (.of (.sequence items))

/-- The elements of an array or the arguments of a call, with commas between them. One more comma
may follow. -/
inductive DerivesItems : List Token → List Expr → Prop
  | nil : DerivesItems [] []
  | last {ts : List Token} {e : Expr} (h : DerivesItem ts e) : DerivesItems ts [e]
  | cons {ts us : List Token} {e : Expr} {es : List Expr} (h : DerivesItem ts e)
    (hs : DerivesItems us es) : DerivesItems (ts ++ .punctuator "," :: us) (e :: es)

/-- What derives an item of a list: an expression without a comma, or a spread. -/
inductive DerivesItem : List Token → Expr → Prop
  | plain {ts : List Token} {e : Expr}
    (h : Derives (.operator Operator.assignment.precedence) ts e) : DerivesItem ts e
  | spread {ts : List Token} {e : Expr}
    (h : Derives (.operator Operator.assignment.precedence) ts e) :
    DerivesItem (.punctuator "..." :: ts) (.of (.spread e))

/-- The operands of commas. -/
inductive DerivesOperands : List Token → List Expr → Prop
  | last {ts : List Token} {e : Expr}
    (h : Derives (.operator Operator.assignment.precedence) ts e) : DerivesOperands ts [e]
  | cons {ts us : List Token} {e : Expr} {es : List Expr}
    (h : Derives (.operator Operator.assignment.precedence) ts e) (hs : DerivesOperands us es) :
    DerivesOperands (ts ++ .punctuator "," :: us) (e :: es)

end

/-- A token stands for one expression. -/
theorem Atom.unique {t : Token} {e f : Expr} (he : Atom t e) (hf : Atom t f) : e = f := by
  generalize ht : t = t' at hf
  cases he <;> cases hf <;> simp only [Token.name.injEq, Token.number.injEq, Token.string.injEq,
    reduceCtorEq] at ht
  case number.number hx _ _ _ hy =>
    obtain ⟨rfl, rfl⟩ := ht
    rw [hx.unique hy]
  case string.string => rw [ht]
  case ident.ident => rw [ht]
  -- The other atoms are words, which differ from each other and from identifiers.
  all_goals first
    | rfl
    | exact absurd ht (by decide)
    | subst ht
      exact absurd ‹_ ∉ keywords› (by decide)

/-! ## Operators by their symbols -/

/-- All operators between two operands. -/
def binaryOperators : List Operator := [
  .assignment, .additionAssignment, .subtractionAssignment, .or, .and, .bitOr, .bitXor, .bitAnd,
  .equality, .inequality, .strictEquality, .strictInequality, .less, .lessOrEqual, .greater,
  .greaterOrEqual, .membership, .instanceOf, .shiftLeft, .shiftRight, .unsignedShiftRight,
  .addition, .subtraction, .multiplication, .division, .remainder, .exponentiation]

theorem binary_of_symbol {op : Operator} (h : op.isBinary = true) :
    binaryOperators.find? (·.symbol == op.symbol) = some op := by
  revert h
  cases op <;> decide

theorem binary_symbol_inj {a b : Operator} (ha : a.isBinary = true) (hb : b.isBinary = true)
    (h : a.symbol = b.symbol) : a = b := by
  have heq := binary_of_symbol hb
  rw [← h, binary_of_symbol ha] at heq
  exact Option.some.inj heq

theorem unary_mem {op : Operator} (h : op.isUnary = true) :
    op ∈ [Operator.bitNot, .delete, .not, .typeOf, .negation, .plus, .void] := by
  revert h
  cases op <;> decide

theorem unary_symbol_inj {a b : Operator} (ha : a.isUnary = true) (hb : b.isUnary = true)
    (h : a.symbol = b.symbol) : a = b := by
  have hall : ∀ a ∈ [Operator.bitNot, .delete, .not, .typeOf, .negation, .plus, .void],
      ∀ b ∈ [Operator.bitNot, .delete, .not, .typeOf, .negation, .plus, .void],
        a.symbol = b.symbol → a = b := by
    decide
  exact hall a (unary_mem ha) b (unary_mem hb) h

theorem unary_precedence {op : Operator} (h : op.isUnary = true) :
    op.precedence = Operator.negation.precedence := by
  revert h
  cases op <;> decide

/-- The tokens around operands are no operators. -/
theorem binary_symbol_ne {op : Operator} (hop : op.isBinary = true) {t : Token}
    (ht : binaryOperators.find? (·.symbol == t) = none) : op.symbol ≠ t := by
  rintro rfl
  rw [binary_of_symbol hop] at ht
  cases ht

end TypedLowering.JavaScript
