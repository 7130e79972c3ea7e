import TypedLowering.JavaScript.Tree

/-!
# Where parentheses go

Every position of an operand has a least precedence, and an expression that binds looser is wrapped.
Arrow functions, spreads and foreign code bind looser than assignments and tighter than commas. A
number with a minus sign counts as a negation.
-/

namespace TypedLowering.JavaScript

/-- The precedence of arrow functions, spreads and foreign code, which is also the least precedence
of an argument, an element or an initializer. -/
def itemPrecedence : Nat := 2

namespace Expr

/-- The precedence of the outermost construct. -/
def precedence (e : Expr) : Nat :=
  match e.form with
  | .unary op _ | .binary op _ _ => op.precedence
  | .conditional .. => Operator.conditional.precedence
  | .sequence _ => Operator.comma.precedence
  | .call .. | .construct .. | .member .. | .index .. => callPrecedence
  | .function f => if f.isArrow then itemPrecedence else atomPrecedence
  | .spread _ | .emit .. => itemPrecedence
  | .literal (.number x) => if x.isNegative then Operator.negation.precedence else atomPrecedence
  | .ident _ | .this | .literal _ | .array _ | .object _ => atomPrecedence

/-- Whether the expression needs no parentheses as an operand. -/
def isAtomic (e : Expr) : Bool :=
  match e.form with
  | .literal (.number x) => !x.isNegative
  | .ident _ | .this | .literal _ | .array _ | .object _ | .call .. | .construct .. | .member ..
  | .index .. => true
  | _ => false

/-- Whether the expression is wrapped as an argument, an element, a property or an initializer. -/
def isWrappedItem (e : Expr) : Bool :=
  e.precedence < itemPrecedence

/-- Whether the expression is wrapped as an operand of `op`. The language has no `-a ** b`. -/
def isWrappedOperand (op : Operator) (side : Side) (e : Expr) : Bool :=
  (op == .exponentiation && side == .left && e.precedence == Operator.negation.precedence)
    || e.precedence < op.operandPrecedence side

/-- The expression is a number literal. -/
def isNumber (e : Expr) : Bool :=
  match e.form with
  | .literal (.number _) => true
  | _ => false

/-- Whether the expression is wrapped before a member access. In `1.x` the dot would belong to the
number. -/
def isWrappedObject (e : Expr) : Bool :=
  !e.isAtomic || e.isNumber

/-- Whether there is a call along the chain of member accesses at the left. -/
def leadsWithCall : Expr → Bool
  | ⟨_, .call ..⟩ => true
  | ⟨_, .member obj _⟩ | ⟨_, .index obj _⟩ => obj.leadsWithCall
  | _ => false

/-- Whether the expression is wrapped after `new`, which would take the arguments of a call for its
own. -/
def isWrappedConstructor (e : Expr) : Bool :=
  !e.isAtomic || e.leadsWithCall

mutual

/-- Whether the text starts with an object literal or a function, so that it would read as a block
or a declaration at the start of a statement. -/
def startsLikeDeclaration : Expr → Bool
  | ⟨_, .object _⟩ => true
  | ⟨_, .function f⟩ => !f.isArrow
  | ⟨_, .binary op left _⟩ => !left.isWrappedOperand op .left && left.startsLikeDeclaration
  | ⟨_, .call head _⟩ | ⟨_, .conditional head _ _⟩ =>
    head.isAtomic && head.startsLikeDeclaration
  | ⟨_, .member head _⟩ | ⟨_, .index head _⟩ =>
    !head.isWrappedObject && head.startsLikeDeclaration
  | ⟨_, .sequence items⟩ => firstStartsLikeDeclaration items
  | _ => false

/-- The first of several expressions joined by commas starts like a declaration, and has no
parentheses around it. -/
def firstStartsLikeDeclaration : List Expr → Bool
  | [] => false
  | first :: _ => !first.isWrappedItem && first.startsLikeDeclaration

end

end Expr

end TypedLowering.JavaScript
