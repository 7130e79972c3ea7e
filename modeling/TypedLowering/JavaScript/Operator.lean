/-!
# JavaScript operators

The operators with their spelling, their precedence and the side to which they group. Precedences
count from one, the comma, which binds loosest. What is no operator of this table stands at the two
levels above: calls and member accesses, and atoms.
-/

namespace TypedLowering.JavaScript

/-- The operators that trees are made with, the comma and the conditional among them. -/
inductive Operator where
  | comma
  | assignment | additionAssignment | subtractionAssignment
  | conditional
  | or | and
  | bitOr | bitXor | bitAnd
  | equality | inequality | strictEquality | strictInequality
  | less | lessOrEqual | greater | greaterOrEqual | membership | instanceOf
  | shiftLeft | shiftRight | unsignedShiftRight
  | addition | subtraction
  | multiplication | division | remainder
  | exponentiation
  | bitNot | delete | not | typeOf | negation | plus | void
  deriving DecidableEq, Repr, Inhabited

/-- The side to which operators of one precedence group. -/
inductive Associativity where
  | left | right
  deriving DecidableEq, Repr, Inhabited

/-- An operand of a binary operator. -/
inductive Side where
  | left | right
  deriving DecidableEq, Repr, Inhabited

/-- The precedence of calls, constructions and member accesses. -/
def callPrecedence : Nat := 18

/-- The precedence of identifiers, literals and other atoms. -/
def atomPrecedence : Nat := 19

namespace Operator

/-- The spelling. -/
def token : Operator → String
  | .comma => ","
  | .assignment => "="
  | .additionAssignment => "+="
  | .subtractionAssignment => "-="
  | .conditional => "?"
  | .or => "||"
  | .and => "&&"
  | .bitOr => "|"
  | .bitXor => "^"
  | .bitAnd => "&"
  | .equality => "=="
  | .inequality => "!="
  | .strictEquality => "==="
  | .strictInequality => "!=="
  | .less => "<"
  | .lessOrEqual => "<="
  | .greater => ">"
  | .greaterOrEqual => ">="
  | .membership => "in"
  | .instanceOf => "instanceof"
  | .shiftLeft => "<<"
  | .shiftRight => ">>"
  | .unsignedShiftRight => ">>>"
  | .addition => "+"
  | .subtraction => "-"
  | .multiplication => "*"
  | .division => "/"
  | .remainder => "%"
  | .exponentiation => "**"
  | .bitNot => "~"
  | .delete => "delete"
  | .not => "!"
  | .typeOf => "typeof"
  | .negation => "-"
  | .plus => "+"
  | .void => "void"

/-- How tight the operator binds. No operator has level two. -/
def precedence : Operator → Nat
  | .comma => 1
  | .assignment | .additionAssignment | .subtractionAssignment => 3
  | .conditional => 4
  | .or => 5
  | .and => 6
  | .bitOr => 7
  | .bitXor => 8
  | .bitAnd => 9
  | .equality | .inequality | .strictEquality | .strictInequality => 10
  | .less | .lessOrEqual | .greater | .greaterOrEqual | .membership | .instanceOf => 11
  | .shiftLeft | .shiftRight | .unsignedShiftRight => 12
  | .addition | .subtraction => 13
  | .multiplication | .division | .remainder => 14
  | .exponentiation => 15
  | .bitNot | .delete | .not | .typeOf | .negation | .plus | .void => 16

/-- The side to which operators of one level group. -/
def associativity : Operator → Associativity
  | .assignment | .additionAssignment | .subtractionAssignment | .conditional | .exponentiation
  | .bitNot | .delete | .not | .typeOf | .negation | .plus | .void => .right
  | _ => .left

/-- Whether the operator stands before its only operand. -/
def isUnary : Operator → Bool
  | .bitNot | .delete | .not | .typeOf | .negation | .plus | .void => true
  | _ => false

/-- Whether the operator is spelled as a word. -/
def isWord : Operator → Bool
  | .delete | .membership | .instanceOf | .typeOf | .void => true
  | _ => false

/-- The least precedence that an operand on that side may have without parentheses. -/
def operandPrecedence (op : Operator) (side : Side) : Nat :=
  match op.associativity, side with
  | .left, .left | .right, .right => op.precedence
  | .left, .right | .right, .left => op.precedence + 1

end Operator

end TypedLowering.JavaScript
