import TypedLowering.Proofs.JavaScript.Grammar

/-!
# Parsing

Tokens are read from left to right, with one token to look ahead (`Parse`). There is one way to
read them (`Parse.unique`), and what the grammar derives is read so (`Derives.reads`). So the
grammar is not ambiguous (`Derives.unique`). Reading accepts more than the grammar derives: the left
operand of an assignment or a power is any expression of the next level.
-/

namespace TypedLowering.JavaScript

open Binary64 (IsNearest)

/-- The level of the operator that the token is behind an operand. -/
def operatorLevel (t : Token) : Option Nat :=
  if t = .punctuator "?" then some Operator.conditional.precedence
  else if t = .punctuator "," then some Operator.comma.precedence
  else (binaryOperators.find? (·.symbol == t)).map Operator.precedence

/-- The symbol of a binary operator tells its precedence. -/
theorem operatorLevel_symbol {op : Operator} (h : op.isBinary = true) :
    operatorLevel op.symbol = some op.precedence := by
  rw [operatorLevel, if_neg (binary_symbol_ne h (by decide)),
    if_neg (binary_symbol_ne h (by decide)), binary_of_symbol h, Option.map_some]

/-- Whether the token may go on with a member access. -/
def isPostfix (t : Token) : Bool := t == .punctuator "." || t == .punctuator "["

/-- Whether the token closes a list of items. -/
def isCloser (t : Token) : Bool := t == .punctuator ")" || t == .punctuator "]"

/-- What is read: a part of an expression, or what comes behind an expression that was read. -/
inductive Goal where
  | level (n : Nat)
  /-- Operators of that level behind an operand. -/
  | operators (n : Nat) (left : Expr)
  /-- A construction or a primary expression, with its member accesses. -/
  | member
  | memberAccesses (object : Expr)
  | calls (callee : Expr)
  | primary
  | item
  | items
  | operands

/-- Reads a goal from the front of the tokens. The result is what was read, in a list where the goal
is a single expression, and the tokens behind it. -/
inductive Parse : Goal → List Token → List Expr → List Token → Prop
  | atom {t : Token} {e : Expr} {rest : List Token} (h : Atom t e) :
    Parse .primary (t :: rest) [e] rest
  | array {ts rest : List Token} {items : List Expr}
    (h : Parse .items ts items (.punctuator "]" :: rest)) :
    Parse .primary (.punctuator "[" :: ts) [.of (.array items)] rest
  | parentheses {ts rest : List Token} {e : Expr}
    (h : Parse (.level 1) ts [e] (.punctuator ")" :: rest)) :
    Parse .primary (.punctuator "(" :: ts) [e] rest
  | memberOfPrimary {ts mid rest : List Token} {object e : Expr}
    (hobject : Parse .primary ts [object] mid) (h : Parse (.memberAccesses object) mid [e] rest) :
    Parse .member ts [e] rest
  | construct {ts mid mid' rest : List Token} {callee e : Expr} {args : List Expr}
    (hcallee : Parse .member ts [callee] (.punctuator "(" :: mid))
    (hargs : Parse .items mid args (.punctuator ")" :: mid'))
    (h : Parse (.memberAccesses (.of (.construct callee args))) mid' [e] rest) :
    Parse .member (.name "new" :: ts) [e] rest
  | bareNew {ts rest : List Token} {callee : Expr} (hcallee : Parse .member ts [callee] rest)
    (hrest : rest.head? ≠ some (.punctuator "(")) :
    Parse .member (.name "new" :: ts) [.of (.construct callee [])] rest
  | memberEnd {e : Expr} {rest : List Token} (hrest : rest.head?.any isPostfix = false) :
    Parse (.memberAccesses e) rest [e] rest
  | memberProperty {object e : Expr} {name : String} {ts rest : List Token}
    (h : Parse (.memberAccesses (.of (.member object name))) ts [e] rest) :
    Parse (.memberAccesses object) (.punctuator "." :: .name name :: ts) [e] rest
  | memberIndex {object index e : Expr} {ts mid rest : List Token}
    (hindex : Parse (.level 1) ts [index] (.punctuator "]" :: mid))
    (h : Parse (.memberAccesses (.of (.index object index))) mid [e] rest) :
    Parse (.memberAccesses object) (.punctuator "[" :: ts) [e] rest
  | callEnd {e : Expr} {rest : List Token} (hrest : rest.head?.any isPostfix = false)
    (hcall : rest.head? ≠ some (.punctuator "(")) : Parse (.calls e) rest [e] rest
  | callProperty {object e : Expr} {name : String} {ts rest : List Token}
    (h : Parse (.calls (.of (.member object name))) ts [e] rest) :
    Parse (.calls object) (.punctuator "." :: .name name :: ts) [e] rest
  | callIndex {object index e : Expr} {ts mid rest : List Token}
    (hindex : Parse (.level 1) ts [index] (.punctuator "]" :: mid))
    (h : Parse (.calls (.of (.index object index))) mid [e] rest) :
    Parse (.calls object) (.punctuator "[" :: ts) [e] rest
  | call {callee e : Expr} {args : List Expr} {ts mid rest : List Token}
    (hargs : Parse .items ts args (.punctuator ")" :: mid))
    (h : Parse (.calls (.of (.call callee args))) mid [e] rest) :
    Parse (.calls callee) (.punctuator "(" :: ts) [e] rest
  | chain {ts mid rest : List Token} {callee e : Expr}
    (hcallee : Parse .member ts [callee] mid) (h : Parse (.calls callee) mid [e] rest) :
    Parse (.level leftHandSide) ts [e] rest
  | operand {n : Nat} {ts rest : List Token} {e : Expr} (hn : n = Operator.negation.precedence)
    (h : Parse (.level leftHandSide) ts [e] rest) : Parse (.level n) ts [e] rest
  | unary {n : Nat} {op : Operator} {t : Token} {ts rest : List Token} {operand : Expr}
    (hop : op.isUnary = true) (hn : n = op.precedence) (ht : t = op.symbol)
    (h : Parse (.level n) ts [operand] rest) :
    Parse (.level n) (t :: ts) [.of (.unary op operand)] rest
  | level {n : Nat} {ts mid rest : List Token} {left e : Expr}
    (hn : n < Operator.negation.precedence) (hleft : Parse (.level (n + 1)) ts [left] mid)
    (h : Parse (.operators n left) mid [e] rest) : Parse (.level n) ts [e] rest
  | operatorsEnd {n : Nat} {e : Expr} {rest : List Token}
    (hrest : rest.head?.bind operatorLevel ≠ some n) : Parse (.operators n e) rest [e] rest
  | leftOperator {n : Nat} {op : Operator} {t : Token} {left right e : Expr}
    {ts mid rest : List Token} (hop : op.isBinary = true) (hn : op.precedence = n)
    (hside : op.associativity = .left) (ht : t = op.symbol)
    (hright : Parse (.level (n + 1)) ts [right] mid)
    (h : Parse (.operators n (.of (.binary op left right))) mid [e] rest) :
    Parse (.operators n left) (t :: ts) [e] rest
  | rightOperator {n : Nat} {op : Operator} {t : Token} {left right : Expr} {ts rest : List Token}
    (hop : op.isBinary = true) (hn : op.precedence = n) (hside : op.associativity = .right)
    (ht : t = op.symbol) (hright : Parse (.level n) ts [right] rest) :
    Parse (.operators n left) (t :: ts) [.of (.binary op left right)] rest
  | conditional {n : Nat} {test thenExpr elseExpr : Expr} {ts mid rest : List Token}
    (hn : n = Operator.conditional.precedence)
    (hthen : Parse (.level Operator.assignment.precedence) ts [thenExpr] (.punctuator ":" :: mid))
    (helse : Parse (.level Operator.assignment.precedence) mid [elseExpr] rest) :
    Parse (.operators n test) (.punctuator "?" :: ts)
      [.of (.conditional test thenExpr elseExpr)] rest
  | sequence {n : Nat} {first : Expr} {items : List Expr} {ts rest : List Token}
    (hn : n = Operator.comma.precedence) (h : Parse .operands ts items rest) :
    Parse (.operators n first) (.punctuator "," :: ts) [.of (.sequence (first :: items))] rest
  | itemPlain {ts rest : List Token} {e : Expr}
    (h : Parse (.level Operator.assignment.precedence) ts [e] rest) : Parse .item ts [e] rest
  | itemSpread {ts rest : List Token} {e : Expr}
    (h : Parse (.level Operator.assignment.precedence) ts [e] rest) :
    Parse .item (.punctuator "..." :: ts) [.of (.spread e)] rest
  | itemsEnd {rest : List Token} (hrest : rest.head?.any isCloser = true) :
    Parse .items rest [] rest
  | itemsLast {ts rest : List Token} {e : Expr} (h : Parse .item ts [e] rest)
    (hrest : rest.head?.any isCloser = true) : Parse .items ts [e] rest
  | itemsCons {ts mid rest : List Token} {e : Expr} {es : List Expr}
    (h : Parse .item ts [e] (.punctuator "," :: mid)) (hs : Parse .items mid es rest) :
    Parse .items ts (e :: es) rest
  | operandsLast {ts rest : List Token} {e : Expr}
    (h : Parse (.level Operator.assignment.precedence) ts [e] rest)
    (hrest : rest.head? ≠ some (.punctuator ",")) : Parse .operands ts [e] rest
  | operandsCons {ts mid rest : List Token} {e : Expr} {es : List Expr}
    (h : Parse (.level Operator.assignment.precedence) ts [e] (.punctuator "," :: mid))
    (hs : Parse .operands mid es rest) : Parse .operands ts (e :: es) rest

/-! ## There is one way to read -/

/-- The tokens that a left-hand side may begin with. -/
def beginsOperand : Token → Bool
  | .name name => name ∉ keywords ∨ name ∈ ["this", "null", "true", "false", "new"]
  | .number .. | .string _ => true
  | .punctuator text => text = "[" ∨ text = "("

/-- The tokens that an expression may begin with. -/
def beginsExpr (t : Token) : Bool :=
  beginsOperand t ||
    [Operator.bitNot, .delete, .not, .typeOf, .negation, .plus, .void].any (·.symbol == t)

/-- The tokens that an item may begin with. -/
def beginsItem (t : Token) : Bool := beginsExpr t || t == .punctuator "..."

/-- Whether the goal may be at the front of the tokens, if it is not what comes behind an
expression. -/
def Goal.begins (g : Goal) (ts : List Token) : Bool :=
  match g with
  | .level n => ts.head?.any (if n = leftHandSide then beginsOperand else beginsExpr)
  | .member | .primary => ts.head?.any beginsOperand
  | .item => ts.head?.any beginsItem
  | _ => true

/-- What begins an operand begins an expression. -/
theorem beginsExpr_of_operand {t : Token} (h : beginsOperand t = true) : beginsExpr t = true := by
  rw [beginsExpr, h, Bool.true_or]

/-- What begins an expression begins an item. -/
theorem beginsItem_of_expr {t : Token} (h : beginsExpr t = true) : beginsItem t = true := by
  rw [beginsItem, h, Bool.true_or]

/-- If the next token passes a test, it passes any weaker one. -/
theorem any_mono {p q : Token → Bool} (hpq : ∀ t, p t = true → q t = true) {o : Option Token}
    (h : o.any p = true) : o.any q = true := by
  cases o with
  | none => cases h
  | some t => exact hpq t h

/-- The token of an atom begins an operand. -/
theorem Atom.begins {t : Token} {e : Expr} (h : Atom t e) : beginsOperand t = true := by
  cases h with
  | ident h => simp [beginsOperand, h]
  | _ => simp [beginsOperand]

/-- What is read begins like its goal. -/
theorem Parse.begins {g : Goal} {ts rest : List Token} {es : List Expr} (h : Parse g ts es rest) :
    g.begins ts = true := by
  induction h with
  | atom h => simpa [Goal.begins] using h.begins
  | array | parentheses | construct | bareNew => simp [Goal.begins, beginsOperand]
  | memberOfPrimary _ _ ih => exact ih
  | chain _ _ ih _ => simpa [Goal.begins] using ih
  | operand hn _ ih =>
    subst hn
    exact any_mono (fun _ => beginsExpr_of_operand) ih
  | @unary n op t ts rest operand hop hn ht _ _ =>
    have hn : n ≠ leftHandSide := by
      subst hn
      revert hop
      cases op <;> decide
    have hop := unary_mem hop
    subst ht
    have hany : [Operator.bitNot, .delete, .not, .typeOf, .negation, .plus, .void].any
        (·.symbol == op.symbol) = true := List.any_eq_true.2 ⟨op, hop, beq_self_eq_true _⟩
    simp only [Goal.begins, if_neg hn, List.head?_cons, Option.any_some]
    rw [beginsExpr, hany, Bool.or_true]
  | @level n ts mid rest left e hn hleft _ ih _ =>
    have hlt : n < leftHandSide ∧ n + 1 < leftHandSide := by
      simp only [Operator.precedence, leftHandSide] at *
      omega
    simp only [Goal.begins, if_neg hlt.1.ne, if_neg hlt.2.ne] at ih ⊢
    exact ih
  | itemPlain _ ih => exact any_mono (fun _ => beginsItem_of_expr) ih
  | itemSpread => simp [Goal.begins, beginsItem]
  | _ => rfl

/-- A list does not end where an item begins. -/
theorem not_closer_of_begins {ts : List Token} (h : Goal.item.begins ts = true) :
    ts.head?.any isCloser = false := by
  cases ts with
  | nil => rfl
  | cons t ts =>
    by_contra hcloser
    have ht : t = .punctuator ")" ∨ t = .punctuator "]" := by
      simpa [isCloser, or_iff_not_imp_left] using hcloser
    replace h : beginsItem t = true := h
    rcases ht with rfl | rfl <;> exact absurd h (by decide)

/-- A chain of accesses does not begin with a unary operator. -/
theorem not_begins_symbol {op : Operator} (hop : op.isUnary = true) (ts : List Token) :
    (Goal.level leftHandSide).begins (op.symbol :: ts) = false := by
  have hsymbol : beginsOperand op.symbol = false := by
    revert hop
    cases op <;> decide
  exact hsymbol

/-- An expression does not begin with the dots of a spread. -/
theorem not_begins_spread {ts : List Token} :
    ¬(Goal.level Operator.assignment.precedence).begins (.punctuator "..." :: ts) = true := by
  have hspread : beginsExpr (.punctuator "...") = false := by decide
  exact (Bool.eq_false_iff.1 hspread)

/-- No primary expression begins with `new`. -/
theorem not_primary_new {ts rest : List Token} {es : List Expr} :
    ¬Parse .primary (.name "new" :: ts) es rest := by
  intro h
  generalize hts : Token.name "new" :: ts = us at h
  cases h with
  | atom h =>
    cases hts
    generalize ht : Token.name "new" = t at h
    cases h <;> simp only [Token.name.injEq, reduceCtorEq] at ht
    case ident h => exact h (ht ▸ by decide)
    all_goals exact absurd ht (by decide)
  | array | parentheses => simp at hts

/-- Whether a goal is read from the front of the tokens in this way only. -/
def ReadsOnly (g : Goal) (ts : List Token) (es : List Expr) (rest : List Token) : Prop :=
  ∀ fs rest', Parse g ts fs rest' → es = fs ∧ rest = rest'

namespace ReadsOnly

variable {g : Goal} {ts mid mid' rest rest' : List Token}
  {e f left right callee object index : Expr} {es fs args : List Expr} {t : Token} {op : Operator}
  {n : Nat}

/-- A single expression that is read. -/
theorem expr (h : ReadsOnly g ts [e] rest) (h' : Parse g ts [f] rest') : e = f ∧ rest = rest' := by
  obtain ⟨heq, hrest⟩ := h _ _ h'
  exact ⟨List.head_eq_of_cons_eq heq, hrest⟩

/-- What is read in front of a token. -/
theorem before (h : ReadsOnly g ts es (t :: rest)) (h' : Parse g ts fs (t :: rest')) :
    es = fs ∧ rest = rest' := by
  obtain ⟨heq, hrest⟩ := h _ _ h'
  exact ⟨heq, (List.cons.inj hrest).2⟩

/-- A single expression that is read in front of a token. -/
theorem exprBefore (h : ReadsOnly g ts [e] (t :: rest)) (h' : Parse g ts [f] (t :: rest')) :
    e = f ∧ rest = rest' := by
  obtain ⟨heq, hrest⟩ := h.before h'
  exact ⟨List.head_eq_of_cons_eq heq, hrest⟩

/-! ### Primary expressions and constructions -/

/-- An atom is one token, which reads as nothing else. -/
theorem atom (h : Atom t e) : ReadsOnly .primary (t :: rest) [e] rest := by
  intro fs rest' h'
  generalize hts : t :: rest = us at h'
  cases h' with
  | atom h' =>
    cases hts
    rw [h.unique h']
    exact ⟨rfl, rfl⟩
  | array | parentheses => cases hts; cases h

/-- An array reads only as such if its items read only so. -/
theorem array (h : ReadsOnly .items ts es (.punctuator "]" :: rest)) :
    ReadsOnly .primary (.punctuator "[" :: ts) [.of (.array es)] rest := by
  intro fs rest' h'
  generalize hts : Token.punctuator "[" :: ts = us at h'
  cases h' with
  | atom h' => cases hts; cases h'
  | array h' =>
    cases hts
    obtain ⟨rfl, rfl⟩ := h.before h'
    exact ⟨rfl, rfl⟩
  | parentheses => simp at hts

/-- An expression in parentheses reads only as the expression. -/
theorem parentheses (h : ReadsOnly (.level 1) ts [e] (.punctuator ")" :: rest)) :
    ReadsOnly .primary (.punctuator "(" :: ts) [e] rest := by
  intro fs rest' h'
  generalize hts : Token.punctuator "(" :: ts = us at h'
  cases h' with
  | atom h' => cases hts; cases h'
  | array => simp at hts
  | parentheses h' =>
    cases hts
    obtain ⟨rfl, rfl⟩ := h.exprBefore h'
    exact ⟨rfl, rfl⟩

/-- Behind a primary expression only accesses go on. -/
theorem memberOfPrimary (hparse : Parse .primary ts [object] mid)
    (hobject : ReadsOnly .primary ts [object] mid)
    (h : ReadsOnly (.memberAccesses object) mid [e] rest) : ReadsOnly .member ts [e] rest := by
  intro fs rest' h'
  cases h' with
  | memberOfPrimary hobject' h' =>
    obtain ⟨rfl, rfl⟩ := hobject.expr hobject'
    exact h _ _ h'
  | construct | bareNew => exact absurd hparse not_primary_new

/-- A construction with arguments reads only as such: its callee ends before the parenthesis. -/
theorem construct (hcallee : ReadsOnly .member ts [callee] (.punctuator "(" :: mid))
    (hargs : ReadsOnly .items mid args (.punctuator ")" :: mid'))
    (h : ReadsOnly (.memberAccesses (.of (.construct callee args))) mid' [e] rest) :
    ReadsOnly .member (.name "new" :: ts) [e] rest := by
  intro fs rest' h'
  generalize hts : Token.name "new" :: ts = us at h'
  cases h' with
  | memberOfPrimary hobject => exact absurd (hts ▸ hobject) not_primary_new
  | construct hcallee' hargs' h' =>
    cases hts
    obtain ⟨rfl, rfl⟩ := hcallee.exprBefore hcallee'
    obtain ⟨rfl, rfl⟩ := hargs.before hargs'
    exact h _ _ h'
  | bareNew hcallee' hrest =>
    cases hts
    obtain ⟨-, rfl⟩ := hcallee _ _ hcallee'
    exact absurd rfl hrest

/-- A construction without arguments reads only as such where no parenthesis follows. -/
theorem bareNew (hcallee : ReadsOnly .member ts [callee] rest)
    (hrest : rest.head? ≠ some (.punctuator "(")) :
    ReadsOnly .member (.name "new" :: ts) [.of (.construct callee [])] rest := by
  intro fs rest' h'
  generalize hts : Token.name "new" :: ts = us at h'
  cases h' with
  | memberOfPrimary hobject => exact absurd (hts ▸ hobject) not_primary_new
  | construct hcallee' =>
    cases hts
    obtain ⟨-, rfl⟩ := hcallee _ _ hcallee'
    exact absurd rfl hrest
  | bareNew hcallee' =>
    cases hts
    obtain ⟨rfl, rfl⟩ := hcallee.expr hcallee'
    exact ⟨rfl, rfl⟩

/-! ### Accesses and calls -/

/-- The accesses of a callee end where no access follows. -/
theorem memberEnd (hrest : rest.head?.any isPostfix = false) :
    ReadsOnly (.memberAccesses e) rest [e] rest := by
  intro fs rest' h'
  cases h' with
  | memberEnd => exact ⟨rfl, rfl⟩
  | memberProperty | memberIndex => simp [isPostfix] at hrest

/-- A name behind a dot reads only as a member. -/
theorem memberProperty {name : String}
    (h : ReadsOnly (.memberAccesses (.of (.member object name))) ts [e] rest) :
    ReadsOnly (.memberAccesses object) (.punctuator "." :: .name name :: ts) [e] rest := by
  intro fs rest' h'
  generalize hts : Token.punctuator "." :: .name name :: ts = us at h'
  cases h' with
  | memberEnd hrest =>
    subst hts
    simp [isPostfix] at hrest
  | memberProperty h' =>
    cases hts
    exact h _ _ h'
  | memberIndex => simp at hts

/-- An expression in brackets reads only as an index. -/
theorem memberIndex (hindex : ReadsOnly (.level 1) ts [index] (.punctuator "]" :: mid))
    (h : ReadsOnly (.memberAccesses (.of (.index object index))) mid [e] rest) :
    ReadsOnly (.memberAccesses object) (.punctuator "[" :: ts) [e] rest := by
  intro fs rest' h'
  generalize hts : Token.punctuator "[" :: ts = us at h'
  cases h' with
  | memberEnd hrest =>
    subst hts
    simp [isPostfix] at hrest
  | memberProperty => simp at hts
  | memberIndex hindex' h' =>
    cases hts
    obtain ⟨rfl, rfl⟩ := hindex.exprBefore hindex'
    exact h _ _ h'

/-- Accesses and calls end where neither follows. -/
theorem callEnd (hrest : rest.head?.any isPostfix = false)
    (hcall : rest.head? ≠ some (.punctuator "(")) : ReadsOnly (.calls e) rest [e] rest := by
  intro fs rest' h'
  cases h' with
  | callEnd => exact ⟨rfl, rfl⟩
  | callProperty | callIndex => simp [isPostfix] at hrest
  | call => simp at hcall

/-- Behind calls, a name after a dot reads only as a member. -/
theorem callProperty {name : String}
    (h : ReadsOnly (.calls (.of (.member object name))) ts [e] rest) :
    ReadsOnly (.calls object) (.punctuator "." :: .name name :: ts) [e] rest := by
  intro fs rest' h'
  generalize hts : Token.punctuator "." :: .name name :: ts = us at h'
  cases h' with
  | callEnd hrest =>
    subst hts
    simp [isPostfix] at hrest
  | callProperty h' =>
    cases hts
    exact h _ _ h'
  | callIndex | call => simp at hts

/-- Behind calls, an expression in brackets reads only as an index. -/
theorem callIndex (hindex : ReadsOnly (.level 1) ts [index] (.punctuator "]" :: mid))
    (h : ReadsOnly (.calls (.of (.index object index))) mid [e] rest) :
    ReadsOnly (.calls object) (.punctuator "[" :: ts) [e] rest := by
  intro fs rest' h'
  generalize hts : Token.punctuator "[" :: ts = us at h'
  cases h' with
  | callEnd hrest =>
    subst hts
    simp [isPostfix] at hrest
  | callProperty | call => simp at hts
  | callIndex hindex' h' =>
    cases hts
    obtain ⟨rfl, rfl⟩ := hindex.exprBefore hindex'
    exact h _ _ h'

/-- Arguments in parentheses read only as a call. -/
theorem call (hargs : ReadsOnly .items ts args (.punctuator ")" :: mid))
    (h : ReadsOnly (.calls (.of (.call callee args))) mid [e] rest) :
    ReadsOnly (.calls callee) (.punctuator "(" :: ts) [e] rest := by
  intro fs rest' h'
  generalize hts : Token.punctuator "(" :: ts = us at h'
  cases h' with
  | callEnd _ hcall =>
    subst hts
    simp at hcall
  | callProperty | callIndex => simp at hts
  | call hargs' h' =>
    cases hts
    obtain ⟨rfl, rfl⟩ := hargs.before hargs'
    exact h _ _ h'

/-! ### Levels -/

/-- A callee reads only with the accesses and calls behind it. -/
theorem chain (hcallee : ReadsOnly .member ts [callee] mid)
    (h : ReadsOnly (.calls callee) mid [e] rest) : ReadsOnly (.level leftHandSide) ts [e] rest := by
  intro fs rest' h'
  cases h' with
  | chain hcallee' h' =>
    obtain ⟨rfl, rfl⟩ := hcallee.expr hcallee'
    exact h _ _ h'
  | operand hn => exact absurd hn (by decide)
  | unary hop hn => exact absurd (hn.trans (unary_precedence hop)) (by decide)
  | level hn => exact absurd hn (by decide)

/-- What begins like an operand has no unary operator before it. -/
theorem operand (hn : n = Operator.negation.precedence)
    (hbegins : (Goal.level leftHandSide).begins ts = true)
    (h : ReadsOnly (.level leftHandSide) ts [e] rest) : ReadsOnly (.level n) ts [e] rest := by
  intro fs rest' h'
  cases h' with
  | chain => exact absurd hn (by decide)
  | operand _ h' => exact h _ _ h'
  | @unary _ op t ts rest operand hop _ ht =>
    rw [ht, not_begins_symbol hop] at hbegins
    cases hbegins
  | level hn' => exact absurd hn hn'.ne

/-- A unary operator reads only as such before what it applies to. -/
theorem unary (hop : op.isUnary = true) (hn : n = op.precedence) (ht : t = op.symbol)
    (h : ReadsOnly (.level n) ts [e] rest) :
    ReadsOnly (.level n) (t :: ts) [.of (.unary op e)] rest := by
  intro fs rest' h'
  generalize hts : t :: ts = us at h'
  cases h' with
  | chain => exact absurd (hn.trans (unary_precedence hop)) (by decide)
  | operand _ h' =>
    have hbegins := h'.begins
    rw [← hts, ht, not_begins_symbol hop] at hbegins
    cases hbegins
  | unary hop' _ ht' h' =>
    cases hts
    obtain ⟨rfl, rfl⟩ := h.expr h'
    rw [unary_symbol_inj hop hop' (ht.symm.trans ht')]
    exact ⟨rfl, rfl⟩
  | level hn' => exact absurd (hn.trans (unary_precedence hop)) hn'.ne

/-- A level reads only as its first operand and the operators behind it. -/
theorem level (hn : n < Operator.negation.precedence)
    (hleft : ReadsOnly (.level (n + 1)) ts [left] mid)
    (h : ReadsOnly (.operators n left) mid [e] rest) : ReadsOnly (.level n) ts [e] rest := by
  intro fs rest' h'
  cases h' with
  | chain => exact absurd hn (by decide)
  | operand hn' => exact absurd hn' hn.ne
  | unary hop hn' => exact absurd (hn'.trans (unary_precedence hop)) hn.ne
  | level _ hleft' h' =>
    obtain ⟨rfl, rfl⟩ := hleft.expr hleft'
    exact h _ _ h'

/-! ### Operators behind an operand -/

/-- The operators of a level end where none of the level follows. -/
theorem operatorsEnd (hrest : rest.head?.bind operatorLevel ≠ some n) :
    ReadsOnly (.operators n e) rest [e] rest := by
  intro fs rest' h'
  cases h' with
  | operatorsEnd => exact ⟨rfl, rfl⟩
  | leftOperator hop hn _ ht | rightOperator hop hn _ ht =>
    subst hn ht
    exact absurd (operatorLevel_symbol hop) hrest
  | conditional hn | sequence hn =>
    subst hn
    exact absurd rfl hrest

/-- An operator that groups to the left takes one operand and goes on. -/
theorem leftOperator (hop : op.isBinary = true) (hn : op.precedence = n)
    (hside : op.associativity = .left) (ht : t = op.symbol)
    (hright : ReadsOnly (.level (n + 1)) ts [right] mid)
    (h : ReadsOnly (.operators n (.of (.binary op left right))) mid [e] rest) :
    ReadsOnly (.operators n left) (t :: ts) [e] rest := by
  intro fs rest' h'
  generalize hts : t :: ts = us at h'
  cases h' with
  | operatorsEnd hrest =>
    subst hts hn ht
    exact absurd (operatorLevel_symbol hop) hrest
  | leftOperator hop' _ _ ht' hright' h' =>
    cases hts
    obtain rfl := binary_symbol_inj hop hop' (ht.symm.trans ht')
    obtain ⟨rfl, rfl⟩ := hright.expr hright'
    exact h _ _ h'
  | rightOperator hop' _ hside' ht' =>
    cases hts
    obtain rfl := binary_symbol_inj hop hop' (ht.symm.trans ht')
    rw [hside] at hside'
    cases hside'
  | conditional | sequence =>
    cases hts
    exact absurd ht.symm (binary_symbol_ne hop (by decide))

/-- An operator that groups to the right takes all that follows at its level. -/
theorem rightOperator (hop : op.isBinary = true) (hn : op.precedence = n)
    (hside : op.associativity = .right) (ht : t = op.symbol)
    (hright : ReadsOnly (.level n) ts [right] rest) :
    ReadsOnly (.operators n left) (t :: ts) [.of (.binary op left right)] rest := by
  intro fs rest' h'
  generalize hts : t :: ts = us at h'
  cases h' with
  | operatorsEnd hrest =>
    subst hts hn ht
    exact absurd (operatorLevel_symbol hop) hrest
  | leftOperator hop' _ hside' ht' =>
    cases hts
    obtain rfl := binary_symbol_inj hop hop' (ht.symm.trans ht')
    rw [hside] at hside'
    cases hside'
  | rightOperator hop' _ _ ht' hright' =>
    cases hts
    obtain rfl := binary_symbol_inj hop hop' (ht.symm.trans ht')
    obtain ⟨rfl, rfl⟩ := hright.expr hright'
    exact ⟨rfl, rfl⟩
  | conditional | sequence =>
    cases hts
    exact absurd ht.symm (binary_symbol_ne hop (by decide))

/-- A question mark reads only as a conditional. -/
theorem conditional {test thenExpr elseExpr : Expr} (hn : n = Operator.conditional.precedence)
    (hthen : ReadsOnly (.level Operator.assignment.precedence) ts [thenExpr]
      (.punctuator ":" :: mid))
    (helse : ReadsOnly (.level Operator.assignment.precedence) mid [elseExpr] rest) :
    ReadsOnly (.operators n test) (.punctuator "?" :: ts)
      [.of (.conditional test thenExpr elseExpr)] rest := by
  intro fs rest' h'
  generalize hts : Token.punctuator "?" :: ts = us at h'
  cases h' with
  | operatorsEnd hrest =>
    subst hts hn
    exact absurd rfl hrest
  | leftOperator hop _ _ ht | rightOperator hop _ _ ht =>
    cases hts
    exact absurd ht.symm (binary_symbol_ne hop (by decide))
  | conditional _ hthen' helse' =>
    cases hts
    obtain ⟨rfl, rfl⟩ := hthen.exprBefore hthen'
    obtain ⟨rfl, rfl⟩ := helse.expr helse'
    exact ⟨rfl, rfl⟩
  | sequence => simp at hts

/-- A comma reads only as a sequence. -/
theorem sequence (hn : n = Operator.comma.precedence) (h : ReadsOnly .operands ts es rest) :
    ReadsOnly (.operators n e) (.punctuator "," :: ts) [.of (.sequence (e :: es))] rest := by
  intro fs rest' h'
  generalize hts : Token.punctuator "," :: ts = us at h'
  cases h' with
  | operatorsEnd hrest =>
    subst hts hn
    exact absurd rfl hrest
  | leftOperator hop _ _ ht | rightOperator hop _ _ ht =>
    cases hts
    exact absurd ht.symm (binary_symbol_ne hop (by decide))
  | conditional => simp at hts
  | sequence _ h' =>
    cases hts
    obtain ⟨rfl, rfl⟩ := h _ _ h'
    exact ⟨rfl, rfl⟩

/-! ### Lists -/

/-- An item that begins like an expression is one. -/
theorem itemPlain
    (hbegins : (Goal.level Operator.assignment.precedence).begins ts = true)
    (h : ReadsOnly (.level Operator.assignment.precedence) ts [e] rest) :
    ReadsOnly .item ts [e] rest := by
  intro fs rest' h'
  cases h' with
  | itemPlain h' => exact h _ _ h'
  | itemSpread => exact absurd hbegins not_begins_spread

/-- An item that begins with dots is a spread. -/
theorem itemSpread (h : ReadsOnly (.level Operator.assignment.precedence) ts [e] rest) :
    ReadsOnly .item (.punctuator "..." :: ts) [.of (.spread e)] rest := by
  intro fs rest' h'
  generalize hts : Token.punctuator "..." :: ts = us at h'
  cases h' with
  | itemPlain h' =>
    subst hts
    exact absurd h'.begins not_begins_spread
  | itemSpread h' =>
    cases hts
    obtain ⟨rfl, rfl⟩ := h.expr h'
    exact ⟨rfl, rfl⟩

/-- No items are read where the list is closed. -/
theorem itemsEnd (hrest : rest.head?.any isCloser = true) : ReadsOnly .items rest [] rest := by
  intro fs rest' h'
  cases h' with
  | itemsEnd => exact ⟨rfl, rfl⟩
  | itemsLast h' | itemsCons h' =>
    rw [not_closer_of_begins h'.begins] at hrest
    cases hrest

/-- The last item reads only so where the list is closed behind it. -/
theorem itemsLast (hbegins : Goal.item.begins ts = true) (h : ReadsOnly .item ts [e] rest)
    (hrest : rest.head?.any isCloser = true) : ReadsOnly .items ts [e] rest := by
  intro fs rest' h'
  cases h' with
  | itemsEnd hrest' =>
    rw [not_closer_of_begins hbegins] at hrest'
    cases hrest'
  | itemsLast h' => exact h _ _ h'
  | itemsCons h' =>
    obtain ⟨-, rfl⟩ := h _ _ h'
    simp [isCloser] at hrest

/-- An item before a comma reads only with the items behind it. -/
theorem itemsCons (hbegins : Goal.item.begins ts = true)
    (h : ReadsOnly .item ts [e] (.punctuator "," :: mid)) (hs : ReadsOnly .items mid es rest) :
    ReadsOnly .items ts (e :: es) rest := by
  intro fs rest' h'
  cases h' with
  | itemsEnd hrest =>
    rw [not_closer_of_begins hbegins] at hrest
    cases hrest
  | itemsLast h' hrest =>
    obtain ⟨-, rfl⟩ := h _ _ h'
    simp [isCloser] at hrest
  | itemsCons h' hs' =>
    obtain ⟨rfl, rfl⟩ := h.exprBefore h'
    obtain ⟨rfl, rfl⟩ := hs _ _ hs'
    exact ⟨rfl, rfl⟩

/-- The last operand of a sequence has no comma behind it. -/
theorem operandsLast (h : ReadsOnly (.level Operator.assignment.precedence) ts [e] rest)
    (hrest : rest.head? ≠ some (.punctuator ",")) : ReadsOnly .operands ts [e] rest := by
  intro fs rest' h'
  cases h' with
  | operandsLast h' => exact h _ _ h'
  | operandsCons h' =>
    obtain ⟨-, rfl⟩ := h _ _ h'
    exact absurd rfl hrest

/-- An operand before a comma reads only with the operands behind it. -/
theorem operandsCons
    (h : ReadsOnly (.level Operator.assignment.precedence) ts [e] (.punctuator "," :: mid))
    (hs : ReadsOnly .operands mid es rest) : ReadsOnly .operands ts (e :: es) rest := by
  intro fs rest' h'
  cases h' with
  | operandsLast h' hrest =>
    obtain ⟨-, rfl⟩ := h _ _ h'
    exact absurd rfl hrest
  | operandsCons h' hs' =>
    obtain ⟨rfl, rfl⟩ := h.exprBefore h'
    obtain ⟨rfl, rfl⟩ := hs _ _ hs'
    exact ⟨rfl, rfl⟩

end ReadsOnly

/-- There is one way to read a goal. -/
theorem Parse.unique {g : Goal} {ts rest : List Token} {es : List Expr}
    (h : Parse g ts es rest) : ReadsOnly g ts es rest := by
  induction h with
  | atom h => exact .atom h
  | array _ ih => exact .array ih
  | parentheses _ ih => exact .parentheses ih
  | memberOfPrimary hobject _ ih ih' => exact .memberOfPrimary hobject ih ih'
  | construct _ _ _ ihcallee ihargs ih => exact .construct ihcallee ihargs ih
  | bareNew _ hrest ih => exact .bareNew ih hrest
  | memberEnd hrest => exact .memberEnd hrest
  | memberProperty _ ih => exact .memberProperty ih
  | memberIndex _ _ ihindex ih => exact .memberIndex ihindex ih
  | callEnd hrest hcall => exact .callEnd hrest hcall
  | callProperty _ ih => exact .callProperty ih
  | callIndex _ _ ihindex ih => exact .callIndex ihindex ih
  | call _ _ ihargs ih => exact .call ihargs ih
  | chain _ _ ihcallee ih => exact .chain ihcallee ih
  | operand hn h ih => exact .operand hn h.begins ih
  | unary hop hn ht _ ih => exact .unary hop hn ht ih
  | level hn _ _ ihleft ih => exact .level hn ihleft ih
  | operatorsEnd hrest => exact .operatorsEnd hrest
  | leftOperator hop hn hside ht _ _ ihright ih =>
    exact .leftOperator hop hn hside ht ihright ih
  | rightOperator hop hn hside ht _ ih => exact .rightOperator hop hn hside ht ih
  | conditional hn _ _ ihthen ihelse => exact .conditional hn ihthen ihelse
  | sequence hn _ ih => exact .sequence hn ih
  | itemPlain h ih => exact .itemPlain h.begins ih
  | itemSpread _ ih => exact .itemSpread ih
  | itemsEnd hrest => exact .itemsEnd hrest
  | itemsLast h hrest ih => exact .itemsLast h.begins ih hrest
  | itemsCons h _ ih ihs => exact .itemsCons h.begins ih ihs
  | operandsLast _ hrest ih => exact .operandsLast ih hrest
  | operandsCons _ _ ih ihs => exact .operandsCons ih ihs

/-! ## What is derived is read -/

/-- Whether the token may stand behind an expression of that level: it goes on with no part of the
expression. An assignment does not follow a conditional, which is no target. -/
def Follows (n : Nat) (next : Option Token) : Prop :=
  next.any isPostfix = false ∧ next ≠ some (.punctuator "(") ∧
    ∀ m ∈ next.bind operatorLevel, (m < n ∧ ¬(n = 4 ∧ m = 3)) ∨ (m = n ∧ 5 ≤ n ∧ n ≤ 14)

instance (n : Nat) (next : Option Token) : Decidable (Follows n next) := by
  unfold Follows
  infer_instance

/-- What may follow an operand of a level is no operator of a tighter one. -/
theorem Follows.level_ne {n m : Nat} {next : Option Token} (h : Follows n next) (hm : n < m) :
    next.bind operatorLevel ≠ some m := by
  intro heq
  have := h.2.2 m heq
  omega

/-- What may follow a level may follow the tighter ones. -/
theorem Follows.tighter {n : Nat} {next : Option Token} (h : Follows n next) :
    Follows (n + 1) next :=
  ⟨h.1, h.2.1, fun m hm => by have := h.2.2 m hm; omega⟩

/-- Every binary operator binds less than a negation. -/
theorem binary_precedence_lt {op : Operator} (hop : op.isBinary = true) :
    op.precedence < Operator.negation.precedence := by
  revert hop
  cases op <;> decide

/-- What may follow the right operand of an operator that groups to the right is not at its
level. -/
theorem Follows.right_level_ne {op : Operator} {next : Option Token} (hop : op.isBinary = true)
    (hside : op.associativity = .right) (h : Follows op.precedence next) :
    next.bind operatorLevel ≠ some op.precedence := by
  intro heq
  have hright : ¬(5 ≤ op.precedence ∧ op.precedence ≤ 14) := by
    revert hop hside
    cases op <;> decide
  have := h.2.2 _ heq
  omega

/-- No operator has the level of accesses and calls. -/
theorem Follows.leftHandSide_ne {next : Option Token} (h : Follows leftHandSide next) :
    next.bind operatorLevel ≠ some leftHandSide := by
  intro heq
  have := h.2.2 _ heq
  simp only [leftHandSide] at this
  omega

/-- What may follow a unary operation is not at its level. -/
theorem Follows.unary_level_ne {op : Operator} {next : Option Token} (hop : op.isUnary = true)
    (h : Follows op.precedence next) : next.bind operatorLevel ≠ some op.precedence := by
  intro heq
  have := h.2.2 _ heq
  rw [unary_precedence hop] at this
  simp only [Operator.precedence] at this
  omega

/-- The symbol of an operator may follow its left operand. -/
theorem Follows.symbol {op : Operator} (hop : op.isBinary = true) :
    Follows op.leftLevel (some op.symbol) := by
  revert hop
  cases op <;> decide

/-- From the same tokens one expression is read, with one rest. -/
theorem Parse.unique_expr {g : Goal} {ts rest rest' : List Token} {e f : Expr}
    (h : Parse g ts [e] rest) (h' : Parse g ts [f] rest') : e = f ∧ rest = rest' :=
  h.unique.expr h'

/-- A left-hand side is an operand of every operator, if no operator that binds tighter follows. -/
theorem Parse.loosen {n : Nat} {ts rest : List Token} {e : Expr} (hn : n < leftHandSide)
    (h : Parse (.level leftHandSide) ts [e] rest)
    (hrest : ∀ m, n < m → rest.head?.bind operatorLevel ≠ some m) :
    Parse (.level (n + 1)) ts [e] rest := by
  generalize hk : leftHandSide - (n + 1) = k
  induction k generalizing n with
  | zero =>
    have heq : n + 1 = leftHandSide := by omega
    rw [heq]
    exact h
  | succ k ih =>
    have hlevel : Parse (.level (n + 1 + 1)) ts [e] rest :=
      ih (by omega) (fun m hm => hrest m (by omega)) (by omega)
    by_cases heq : n + 1 = Operator.negation.precedence
    · rw [heq] at hlevel ⊢
      exact .operand rfl hlevel
    · have hlt : n + 1 < Operator.negation.precedence := by
        simp only [Operator.precedence, leftHandSide] at *
        omega
      exact .level hlt hlevel (.operatorsEnd (hrest _ (by omega)))

/-- How tokens that are derived are read, whatever follows. -/
def Category.Reads (c : Category) (ts : List Token) (e : Expr) : Prop :=
  ∀ rest : List Token, match c with
    | .primary => Parse .primary (ts ++ rest) [e] rest
    | .member => ∀ f rest', Parse (.memberAccesses e) rest [f] rest' →
        Parse .member (ts ++ rest) [f] rest'
    | .new => rest.head?.any isPostfix = false → rest.head? ≠ some (.punctuator "(") →
        Parse .member (ts ++ rest) [e] rest
    | .call => ∀ f rest', Parse (.calls e) rest [f] rest' →
        Parse (.level leftHandSide) (ts ++ rest) [f] rest'
    | .operator n => Follows n rest.head? → ∀ f rest', Parse (.operators n e) rest [f] rest' →
        Parse (.level n) (ts ++ rest) [f] rest'

/-- An operand before what is no operator of its level. -/
theorem Category.Reads.whole {n : Nat} {ts rest : List Token} {e : Expr}
    (h : (Category.operator n).Reads ts e) (hrest : Follows n rest.head?)
    (hlevel : rest.head?.bind operatorLevel ≠ some n) : Parse (.level n) (ts ++ rest) [e] rest :=
  h rest hrest e rest (.operatorsEnd hlevel)

/-- An operand before a token that is no operator of its level. -/
theorem Category.Reads.before {n : Nat} {ts : List Token} {e : Expr} {t : Token}
    (h : (Category.operator n).Reads ts e) (rest : List Token) (hfollows : Follows n (some t))
    (hlevel : operatorLevel t ≠ some n) : Parse (.level n) (ts ++ t :: rest) [e] (t :: rest) :=
  h.whole hfollows hlevel

/-- A binary operation is read at its level if its operands are at theirs. -/
theorem Category.Reads.binary {op : Operator} {ts us : List Token} {left right : Expr}
    (hop : op.isBinary = true) (hleft : (Category.operator op.leftLevel).Reads ts left)
    (hright : (Category.operator op.rightLevel).Reads us right) :
    (Category.operator op.precedence).Reads (ts ++ op.symbol :: us)
      (.of (.binary op left right)) := by
  intro rest hrest f rest' hf
  rw [List.append_assoc, List.cons_append]
  have hfollows : Follows op.leftLevel (op.symbol :: (us ++ rest)).head? := .symbol hop
  cases hside : op.associativity with
  | left =>
    rw [Operator.leftLevel, hside] at hleft hfollows
    rw [Operator.rightLevel, hside] at hright
    have hright := hright.whole hrest.tighter (hrest.level_ne (Nat.lt_succ_self _))
    exact hleft _ hfollows f rest' (.leftOperator hop rfl hside rfl hright hf)
  | right =>
    rw [Operator.leftLevel, hside] at hleft hfollows
    rw [Operator.rightLevel, hside] at hright
    have hne := Follows.right_level_ne hop hside hrest
    obtain ⟨rfl, rfl⟩ := (Parse.operatorsEnd hne).unique_expr hf
    have hlt := binary_precedence_lt hop
    have hsymbol : (op.symbol :: (us ++ rest)).head?.bind operatorLevel = some op.precedence :=
      operatorLevel_symbol hop
    have hleft : Parse (.level leftHandSide) (ts ++ op.symbol :: (us ++ rest)) [left]
        (op.symbol :: (us ++ rest)) := by
      refine hleft.whole hfollows ?_
      rw [hsymbol]
      exact fun heq => by simp [leftHandSide, Operator.precedence] at heq hlt; omega
    have hleft := hleft.loosen (Nat.lt_succ_of_lt hlt) (fun m hm => by
      rw [hsymbol]
      exact fun heq => hm.ne (Option.some.inj heq))
    exact .level hlt hleft (.rightOperator hop rfl hside rfl (hright.whole hrest hne))

/-- What is read at a level is read at the looser one, with no operators behind it. -/
theorem Category.Reads.tighter {n : Nat} {ts : List Token} {e : Expr} (hn : n < leftHandSide)
    (h : (Category.operator (n + 1)).Reads ts e) : (Category.operator n).Reads ts e := by
  intro rest hrest f rest' hf
  have h := h.whole hrest.tighter (hrest.level_ne (Nat.lt_succ_self n))
  by_cases heq : n = Operator.negation.precedence
  · have hend : rest.head?.bind operatorLevel ≠ some n := by
      intro hlevel
      have := hrest.2.2 n hlevel
      simp only [Operator.precedence] at heq
      omega
    obtain ⟨rfl, rfl⟩ := (Parse.operatorsEnd hend).unique_expr hf
    subst heq
    exact .operand rfl h
  · have hlt : n < Operator.negation.precedence := by
      simp only [Operator.precedence, leftHandSide] at *
      omega
    exact .level hlt h hf

/-- A conditional is read if its three parts are. -/
theorem Category.Reads.conditional {ts us vs : List Token} {test thenExpr elseExpr : Expr}
    (htest : (Category.operator (Operator.conditional.precedence + 1)).Reads ts test)
    (hthen : (Category.operator Operator.assignment.precedence).Reads us thenExpr)
    (helse : (Category.operator Operator.assignment.precedence).Reads vs elseExpr) :
    (Category.operator Operator.conditional.precedence).Reads
      (ts ++ .punctuator "?" :: us ++ .punctuator ":" :: vs)
      (.of (.conditional test thenExpr elseExpr)) := by
  intro rest hrest f rest' hf
  have hlevel : ∀ m, 3 ≤ m → m ≤ 4 → rest.head?.bind operatorLevel ≠ some m := by
    intro m hm hm' heq
    have : (m < 4 ∧ ¬(4 = 4 ∧ m = 3)) ∨ (m = 4 ∧ 5 ≤ 4 ∧ 4 ≤ 14) := hrest.2.2 m heq
    omega
  have hfollows : Follows 3 rest.head? :=
    ⟨hrest.1, hrest.2.1, fun m hm => by
      have : (m < 4 ∧ ¬(4 = 4 ∧ m = 3)) ∨ (m = 4 ∧ 5 ≤ 4 ∧ 4 ≤ 14) := hrest.2.2 m hm
      omega⟩
  obtain ⟨rfl, rfl⟩ := (Parse.operatorsEnd (hlevel 4 (by decide) (by decide))).unique_expr hf
  simp only [List.append_assoc, List.cons_append]
  exact .level (by decide) (htest.before _ (by decide) (by decide))
    (.conditional rfl (hthen.before _ (by decide) (by decide))
      (helse.whole hfollows (hlevel 3 (by decide) (by decide))))

/-- How operands of commas are read. Two or more of them are a sequence. -/
def ReadsOperands (ts : List Token) (es : List Expr) : Prop :=
  ∀ rest : List Token, Follows Operator.comma.precedence rest.head? →
    Parse .operands (ts ++ rest) es rest ∧
      (2 ≤ es.length → Parse (.level Operator.comma.precedence) (ts ++ rest)
        [.of (.sequence es)] rest)

/-- A single operand is read as the last of a sequence. -/
theorem ReadsOperands.last {ts : List Token} {e : Expr}
    (h : (Category.operator Operator.assignment.precedence).Reads ts e) :
    ReadsOperands ts [e] := by
  intro rest hrest
  have hlevel : ∀ m, 1 ≤ m → rest.head?.bind operatorLevel ≠ some m := by
    intro m hm heq
    have := hrest.2.2 m heq
    simp only [Operator.precedence] at this
    omega
  have hcomma : rest.head? ≠ some (.punctuator ",") := by
    intro heq
    exact hlevel 1 le_rfl (by rw [heq]; rfl)
  refine ⟨.operandsLast (h.whole hrest.tighter.tighter (hlevel _ (by decide))) hcomma, ?_⟩
  intro hlength
  simp at hlength

/-- An operand is read before a comma and the others. -/
theorem ReadsOperands.cons {ts us : List Token} {e : Expr} {es : List Expr}
    (h : (Category.operator Operator.assignment.precedence).Reads ts e)
    (hs : ReadsOperands us es) : ReadsOperands (ts ++ .punctuator "," :: us) (e :: es) := by
  intro rest hrest
  have hoperands := (hs rest hrest).1
  have hfirst := h.before (us ++ rest) (t := .punctuator ",") (by decide) (by decide)
  rw [List.append_assoc, List.cons_append]
  refine ⟨.operandsCons hfirst hoperands, fun _ => ?_⟩
  have hlevel : operatorLevel (.punctuator ",") ≠ some 2 := by decide
  exact .level (by decide) (.level (by decide) hfirst (.operatorsEnd hlevel))
    (.sequence rfl hoperands)

/-- The tokens that stand behind an item. -/
def endsItem (t : Token) : Bool := t == .punctuator "," || isCloser t

/-- What ends an item may follow it and is no assignment. -/
theorem follows_of_endsItem {rest : List Token} (h : rest.head?.any endsItem = true) :
    Follows Operator.assignment.precedence rest.head? ∧
      rest.head?.bind operatorLevel ≠ some Operator.assignment.precedence := by
  cases rest with
  | nil => cases h
  | cons t rest =>
    have ht : t = .punctuator "," ∨ t = .punctuator ")" ∨ t = .punctuator "]" := by
      simpa [endsItem, isCloser] using h
    rcases ht with rfl | rfl | rfl <;>
      exact ⟨(by decide : Follows _ (some _)), (by decide : operatorLevel _ ≠ _)⟩

mutual

/-- What the grammar derives for an expression is read as the expression. -/
theorem Derives.reads {c : Category} {ts : List Token} {e : Expr} : Derives c ts e → c.Reads ts e
  | .atom h => fun _ => .atom h
  | .array h => fun rest => by
    have hitems := h.reads (.punctuator "]" :: rest) rfl
    simpa using Parse.array hitems
  | .parentheses h => fun rest => by
    have hexpr := h.reads.before (t := .punctuator ")") rest (by decide) (by decide)
    simpa using Parse.parentheses hexpr
  | .memberOfPrimary h => fun rest f rest' hf => .memberOfPrimary (h.reads rest) hf
  | .construct hcallee hargs => fun rest f rest' hf => by
    have hargs := hargs.reads (.punctuator ")" :: rest) rfl
    simpa using Parse.construct (hcallee.reads (.punctuator "(" :: _) _ _ (.memberEnd rfl)) hargs hf
  | .property (.inl rfl) h name => fun rest f rest' hf => by
    simpa using h.reads _ _ _ (.memberProperty hf)
  | .property (.inr rfl) h name => fun rest f rest' hf => by
    simpa using h.reads _ _ _ (.callProperty hf)
  | .index (.inl rfl) hobject hindex => fun rest f rest' hf => by
    have hindex := hindex.reads.before (t := .punctuator "]") rest (by decide) (by decide)
    simpa using hobject.reads _ _ _ (.memberIndex hindex hf)
  | .index (.inr rfl) hobject hindex => fun rest f rest' hf => by
    have hindex := hindex.reads.before (t := .punctuator "]") rest (by decide) (by decide)
    simpa using hobject.reads _ _ _ (.callIndex hindex hf)
  | .newOfMember h => fun rest hpostfix hcall => h.reads rest _ _ (.memberEnd hpostfix)
  | .bareNew h => fun rest hpostfix hcall => .bareNew (h.reads rest hpostfix hcall) hcall
  | .call (.inl rfl) hcallee hargs => fun rest f rest' hf => by
    have hargs := hargs.reads (.punctuator ")" :: rest) rfl
    simpa using Parse.chain (hcallee.reads (.punctuator "(" :: _) _ _ (.memberEnd rfl))
      (.call hargs hf)
  | .call (.inr rfl) hcallee hargs => fun rest f rest' hf => by
    have hargs := hargs.reads (.punctuator ")" :: rest) rfl
    simpa using hcallee.reads _ _ _ (.call hargs hf)
  | .ofNew h => fun rest hrest f rest' hf => by
    obtain ⟨rfl, rfl⟩ := (Parse.operatorsEnd hrest.leftHandSide_ne).unique_expr hf
    exact .chain (h.reads rest hrest.1 hrest.2.1) (.callEnd hrest.1 hrest.2.1)
  | .ofCall h => fun rest hrest f rest' hf => by
    obtain ⟨rfl, rfl⟩ := (Parse.operatorsEnd hrest.leftHandSide_ne).unique_expr hf
    exact h.reads rest _ _ (.callEnd hrest.1 hrest.2.1)
  | .tighter hn h => h.reads.tighter hn
  | .unary hop h => fun rest hrest f rest' hf => by
    have hend : rest.head?.bind operatorLevel ≠ some _ := hrest.unary_level_ne hop
    obtain ⟨rfl, rfl⟩ := (Parse.operatorsEnd hend).unique_expr hf
    exact .unary hop rfl rfl (h.reads.whole hrest hend)
  | .binary hop hleft hright => hleft.reads.binary hop hright.reads
  | .conditional htest hthen helse => htest.reads.conditional hthen.reads helse.reads
  | .sequence h hitems => fun rest hrest f rest' hf => by
    have hend : rest.head?.bind operatorLevel ≠ some Operator.comma.precedence := by
      intro heq
      have := hrest.2.2 _ heq
      simp only [Operator.precedence] at this
      omega
    obtain ⟨rfl, rfl⟩ := (Parse.operatorsEnd hend).unique_expr hf
    exact (h.reads rest hrest).2 hitems

/-- What the grammar derives for items is read as the items, where the list is closed. -/
theorem DerivesItems.reads {ts : List Token} {es : List Expr} (h : DerivesItems ts es)
    (rest : List Token) (hrest : rest.head?.any isCloser = true) :
    Parse .items (ts ++ rest) es rest :=
  match h with
  | .nil => .itemsEnd hrest
  | .last h => by
    have hends : rest.head?.any endsItem = true :=
      any_mono (fun t ht => by rw [endsItem, ht, Bool.or_true]) hrest
    exact .itemsLast (h.reads rest hends) hrest
  | .cons h hs => by
    have hs := hs.reads rest hrest
    simpa using Parse.itemsCons (h.reads _ rfl) hs

/-- What the grammar derives for an item is read as the item, where it ends. -/
theorem DerivesItem.reads {ts : List Token} {e : Expr} (h : DerivesItem ts e)
    (rest : List Token) (hrest : rest.head?.any endsItem = true) :
    Parse .item (ts ++ rest) [e] rest :=
  match h with
  | .plain h =>
    .itemPlain (h.reads.whole (follows_of_endsItem hrest).1 (follows_of_endsItem hrest).2)
  | .spread h =>
    .itemSpread (h.reads.whole (follows_of_endsItem hrest).1 (follows_of_endsItem hrest).2)

/-- What the grammar derives for a sequence is read as its operands. -/
theorem DerivesOperands.reads {ts : List Token} {es : List Expr} :
    DerivesOperands ts es → ReadsOperands ts es
  | .last h => .last h.reads
  | .cons h hs => .cons h.reads hs.reads

end

/-- The grammar is not ambiguous. -/
theorem Derives.unique {ts : List Token} {e f : Expr} (he : Derives (.operator 1) ts e)
    (hf : Derives (.operator 1) ts f) : e = f := by
  have he : Parse (.level 1) (ts ++ []) [e] [] := he.reads.whole (by decide) (by decide)
  have hf : Parse (.level 1) (ts ++ []) [f] [] := hf.reads.whole (by decide) (by decide)
  exact (he.unique_expr hf).1

end TypedLowering.JavaScript
