import Mathlib.Data.Rat.Floor
import TypedLowering.JavaScript.Lower.Declaration
import TypedLowering.Proofs.Control.Behaviour
import TypedLowering.Proofs.Number.Nearest
import TypedLowering.Proofs.ReturnDiscipline

/-!
# Quotients of integers

The quotient of integers is divided exactly and then taken as a word of 32 bits with a sign, which
drops its fractional part. So it is truncated towards zero if it fits in such a word, and only then
(`integerDivision_wraps`). It does for the kinds of at most 16 bits and for signed words of 32 bits,
and it need not for the wider kinds (`wideQuotient_negative`).
-/

namespace TypedLowering

/-- A number without its fractional part. -/
def truncate (x : ℚ) : ℤ := if 0 ≤ x then ⌊x⌋ else ⌈x⌉

/-- A number as a word of 32 bits: its integer part, modulo `2 ^ 32`. -/
def toWord32 (x : ℚ) : BitVec 32 := .ofInt 32 (truncate x)

/-- An integer is truncated to itself. -/
theorem truncate_intCast (i : ℤ) : truncate i = i := by
  rw [truncate, Int.floor_intCast, Int.ceil_intCast, ite_self]

/-- Truncation goes towards zero on either side. -/
theorem truncate_neg (x : ℚ) : truncate (-x) = -truncate x := by
  rcases lt_trichotomy x 0 with hx | rfl | hx
  · rw [truncate, if_pos (neg_nonneg.2 hx.le), Int.floor_neg, truncate, if_neg (not_le.2 hx)]
  · rfl
  · rw [truncate, if_neg (not_le.2 (neg_neg_of_pos hx)), Int.ceil_neg, truncate, if_pos hx.le]

/-- An exact quotient of natural numbers is truncated to their integral quotient. -/
theorem truncate_natCast_div (m n : ℕ) : truncate ((m : ℚ) / n) = (m : ℤ).tdiv n := by
  rw [truncate, if_pos (by positivity), Int.tdiv_eq_ediv_of_nonneg (Int.natCast_nonneg m)]
  exact Rat.floor_intCast_div_natCast m n

/-- Exact division and truncation come to division of integers towards zero. -/
theorem truncate_div (a b : ℤ) : truncate ((a : ℚ) / b) = a.tdiv b := by
  obtain ⟨m, rfl | rfl⟩ := a.eq_nat_or_neg <;> obtain ⟨n, rfl | rfl⟩ := b.eq_nat_or_neg <;>
    push_cast <;>
    simp only [neg_div, div_neg, neg_neg, truncate_neg, truncate_natCast_div, Int.neg_tdiv,
      Int.tdiv_neg]

/-- An exact quotient as a word is the integral quotient, up to a multiple of `2 ^ 32`. -/
theorem toInt_toWord32_div (a b : ℤ) :
    (toWord32 ((a : ℚ) / b)).toInt = (a.tdiv b).bmod (2 ^ 32) := by
  rw [toWord32, truncate_div, BitVec.toInt_ofInt]

/-- The number that a finite double is. -/
def Binary64.signed (x : Binary64) : ℚ := if x.signBit then -x.value else x.value

/-- Whether the kind is one of integers that has the value. -/
def Ir.NumberKind.Holds (i : ℤ) : Ir.NumberKind → Prop
  | .int8 => -2 ^ 7 ≤ i ∧ i < 2 ^ 7
  | .uint8 => 0 ≤ i ∧ i < 2 ^ 8
  | .int16 => -2 ^ 15 ≤ i ∧ i < 2 ^ 15
  | .uint16 => 0 ≤ i ∧ i < 2 ^ 16
  | .int32 => -2 ^ 31 ≤ i ∧ i < 2 ^ 31
  | .uint32 => 0 ≤ i ∧ i < 2 ^ 32
  | .int64 => -2 ^ 63 ≤ i ∧ i < 2 ^ 63
  | .uint64 => 0 ≤ i ∧ i < 2 ^ 64
  | .float32 | .float64 | .decimal => False

/-- The kinds whose values are signed words of 32 bits. -/
def narrowKinds : List Ir.NumberKind := [.int8, .uint8, .int16, .uint16, .int32]

/-- What a narrow kind holds fits in a word with a sign. -/
theorem holds_int32_of_mem_narrowKinds {kind : Ir.NumberKind} (h : kind ∈ narrowKinds) {i : ℤ}
    (hi : kind.Holds i) : Ir.NumberKind.int32.Holds i := by
  have hcases : kind = .int8 ∨ kind = .uint8 ∨ kind = .int16 ∨ kind = .uint16 ∨ kind = .int32 := by
    simpa [narrowKinds] using h
  rcases hcases with rfl | rfl | rfl | rfl | rfl <;> simp only [Ir.NumberKind.Holds] at hi ⊢ <;>
    omega

/-- A number is a signed word of 32 bits exactly if wrapping does not change it. -/
theorem bmod_eq_self_iff (i : ℤ) : i.bmod (2 ^ 32) = i ↔ Ir.NumberKind.int32.Holds i := by
  simp only [Ir.NumberKind.Holds, Int.bmod_def]
  omega

namespace JavaScript

open Control

/-- How expressions are evaluated, where division and the disjunction of bits are concerned:
division of numbers is exact, and bits are those of words of 32 bits, read with a sign. What else
the operators do is left open. -/
structure ExactArithmetic (S : Type) where
  Value : Type
  number : ℚ → Value
  number_injective : Function.Injective number
  eval : Expr → Behaviour S Value
  divide : Value → Value → Behaviour S Value
  bitOr : Value → Value → Behaviour S Value
  divide_number (x : ℚ) {y : ℚ} (hy : y ≠ 0) : divide (number x) (number y) = pure (number (x / y))
  bitOr_number (x y : ℚ) :
    bitOr (number x) (number y) = pure (number (toWord32 x ||| toWord32 y).toInt)
  eval_loc (loc : Option Ir.Location) (form : ExprForm) : eval ⟨loc, form⟩ = eval (.of form)
  eval_number {d : Binary64} (hd : d.isFinite = true) :
    eval (.literal (.number d)) = pure (number d.signed)
  eval_division (a b : Expr) :
    eval (.binary .division a b) = (do divide (← eval a) (← eval b))
  eval_bitOr (a b : Expr) : eval (.binary .bitOr a b) = (do bitOr (← eval a) (← eval b))

namespace ExactArithmetic

variable {S : Type} (A : ExactArithmetic S)

/-- Where an expression was lowered from has no part in its value. -/
theorem eval_withLoc (e : Expr) (loc : Option Ir.Location) : A.eval (e.withLoc loc) = A.eval e := by
  obtain ⟨_, form⟩ := e
  rw [Expr.withLoc]
  split
  · exact (A.eval_loc _ _).trans (A.eval_loc _ _).symm
  · rfl

/-- The code of a constant. -/
theorem eval_constant {d : Binary64} (hd : d.isFinite = true) (kind : Ir.NumberKind)
    (loc : Option Ir.Location) :
    A.eval ((Expr.of (literalForm (.number d kind))).withLoc loc) = pure (A.number d.signed) := by
  rw [A.eval_withLoc]
  exact A.eval_number hd

/-- The literal zero is the number zero. -/
theorem eval_zero : A.eval (.number 0) = pure (A.number 0) := by
  have hzero : (Binary64.ofNat 0).signed = 0 := by
    rw [Binary64.signed, if_neg (by decide), Binary64.value,
      show (Binary64.ofNat 0).significand = 0 by decide, Nat.cast_zero, zero_mul]
  rw [Expr.number, A.eval_number (by decide), hzero]

/-- What is done with the values of the operands of an integer division. -/
def wordQuotient (x y : A.Value) : Behaviour S A.Value := do
  A.bitOr (← A.divide x y) (A.number 0)

/-- The quotient of two integers as a word. -/
theorem wordQuotient_number (a : ℤ) {b : ℤ} (hb : b ≠ 0) :
    A.wordQuotient (A.number a) (A.number b) = pure (A.number ((a.tdiv b).bmod (2 ^ 32) : ℤ)) := by
  have hzero : toWord32 0 = 0#32 := congrArg (BitVec.ofInt 32) (truncate_intCast 0)
  rw [wordQuotient, A.divide_number _ (Int.cast_ne_zero.2 hb), pure_bind, A.bitOr_number, hzero,
    BitVec.or_zero, toInt_toWord32_div]

/-- The code of an integer division of two operands. -/
theorem eval_quotient (a b : Expr) (loc : Option Ir.Location) :
    A.eval ((Expr.binary .bitOr (.binary .division a b) (.number 0)).withLoc loc) =
      (do A.wordQuotient (← A.eval a) (← A.eval b)) := by
  simp only [A.eval_withLoc, A.eval_bitOr, A.eval_division, A.eval_zero, wordQuotient, bind_assoc,
    pure_bind]

/-- An integer is the same number as its word exactly if it fits in one. -/
theorem number_bmod_iff (i : ℤ) :
    A.number (i.bmod (2 ^ 32) : ℤ) = A.number i ↔ Ir.NumberKind.int32.Holds i := by
  rw [A.number_injective.eq_iff, Int.cast_inj, bmod_eq_self_iff]

end ExactArithmetic

/-- The code of an integer division. -/
theorem rules_integerDivision (n : Nat) (ctx : Context) (left right : Ir.Expr)
    {kind : Ir.NumberKind} (hkind : kind.isInteger = true) (loc : Option Ir.Location) :
    (rules (n + 1)).expr ctx (.binary .divide left right (.number kind) loc) =
      (do
        let a ← (rules n).expr ctx left
        let b ← (rules n).expr ctx right
        return (Expr.binary .bitOr (.binary .division a b) (.number 0)).withLoc loc) := by
  simp [rules, Parts.exprRule, Parts.expansion?, Parts.isInvoked, Parts.exprCore, Parts.binary,
    Ir.Expr.location, Ir.Ty.isInteger, hkind, binaryOperator]

end JavaScript

open JavaScript in
/-- The operands of an integer division are evaluated from left to right, and their quotient is
taken as a signed word of 32 bits. That is the quotient truncated towards zero if and only if this
is such a word, as it is for the kinds that have no others. -/
theorem integerDivision_wraps {S : Type} (A : ExactArithmetic S) (n : Nat) (ctx : Context)
    (left right : Ir.Expr) {kind : Ir.NumberKind} (hkind : kind.isInteger = true)
    (loc : Option Ir.Location) :
    ∃ code : Expr → Expr → Expr,
      (rules (n + 1)).expr ctx (.binary .divide left right (.number kind) loc) =
        (do
          let a ← (rules n).expr ctx left
          let b ← (rules n).expr ctx right
          return code a b) ∧
      (∀ a b, A.eval (code a b) = (do A.wordQuotient (← A.eval a) (← A.eval b))) ∧
      ∀ a b : ℤ, b ≠ 0 →
        A.wordQuotient (A.number a) (A.number b) =
          pure (A.number ((a.tdiv b).bmod (2 ^ 32) : ℤ)) ∧
        (A.number ((a.tdiv b).bmod (2 ^ 32) : ℤ) = A.number (a.tdiv b : ℤ) ↔
          Ir.NumberKind.int32.Holds (a.tdiv b)) ∧
        (kind ∈ narrowKinds → kind.Holds (a.tdiv b) →
          A.wordQuotient (A.number a) (A.number b) = pure (A.number (a.tdiv b : ℤ))) := by
  refine ⟨_, rules_integerDivision n ctx left right hkind loc, fun a b => ?_, fun a b hb =>
    ⟨A.wordQuotient_number a hb, A.number_bmod_iff _, fun hnarrow hholds => ?_⟩⟩
  · exact A.eval_quotient a b loc
  · rw [A.wordQuotient_number a hb,
      (A.number_bmod_iff _).2 (holds_int32_of_mem_narrowKinds hnarrow hholds)]

/-! ## Quotients of constants -/

namespace JavaScript

/-- The exact quotient, unless the divisor is zero. -/
def exactQuotient (x y : Option ℚ) : Option ℚ := do
  let x ← x
  let y ← y
  if y = 0 then none else some (x / y)

/-- The disjunction of the bits of two numbers. -/
def bitsOr (x y : Option ℚ) : Option ℚ := do
  let x ← x
  let y ← y
  some (toWord32 x ||| toWord32 y).toInt

mutual

/-- The number that an expression of constants and operations is. -/
def Expr.quantity : Expr → Option ℚ
  | ⟨_, form⟩ => form.quantity

/-- The number that a form of literals, quotients and words stands for. -/
def ExprForm.quantity : ExprForm → Option ℚ
  | .literal (.number d) => if d.isFinite then some d.signed else none
  | .binary .division a b => exactQuotient a.quantity b.quantity
  | .binary .bitOr a b => bitsOr a.quantity b.quantity
  | _ => none

end

/-- Constants and operations on them are evaluated without effects. -/
def quantities : ExactArithmetic Unit where
  Value := Option ℚ
  number := some
  number_injective := Option.some_injective ℚ
  eval e := pure e.quantity
  divide x y := pure (exactQuotient x y)
  bitOr x y := pure (bitsOr x y)
  divide_number _ _ hy := congrArg pure (if_neg hy)
  bitOr_number _ _ := rfl
  eval_loc _ _ := rfl
  eval_number hd := congrArg pure (if_pos hd)
  eval_division a b :=
    ((pure_bind a.quantity _).trans (pure_bind b.quantity fun y =>
      pure (exactQuotient a.quantity y))).symm
  eval_bitOr a b :=
    ((pure_bind a.quantity _).trans (pure_bind b.quantity fun y =>
      pure (bitsOr a.quantity y))).symm

end JavaScript

/-- A constant of a kind of numbers. -/
def constant (i : Int) (kind : Ir.NumberKind) : Ir.Expr := .literal (.number (.ofInt i) kind) none

/-- The quotient of `-7` and `2` is `-3`. -/
theorem negativeQuotient_truncates :
    Ir.NumberKind.int32.isInteger = true ∧ (2 : ℤ) ≠ 0 ∧ Ir.NumberKind.int32 ∈ narrowKinds ∧
    Ir.NumberKind.int32.Holds ((-7 : ℤ).tdiv 2) ∧
    JavaScript.quantities.wordQuotient (JavaScript.quantities.number (-7 : ℤ))
      (JavaScript.quantities.number (2 : ℤ)) = pure (JavaScript.quantities.number (-3 : ℤ)) := by
  obtain ⟨_, -, -, h⟩ := integerDivision_wraps JavaScript.quantities 1 (.ofFile bareFile)
    (constant (-7) .int32) (constant 2 .int32) (rfl : Ir.NumberKind.int32.isInteger = true) none
  have hholds : Ir.NumberKind.int32.Holds ((-7 : ℤ).tdiv 2) := ⟨by decide, by decide⟩
  exact ⟨rfl, by decide, by decide, hholds, (h (-7) 2 (by decide)).2.2 (by decide) hholds⟩

/-- The literal one is the number one. -/
theorem signed_one : (Binary64.ofInt 1).signed = (1 : ℤ) := by
  rw [Binary64.signed, if_neg (by decide), Binary64.value,
    show (Binary64.ofInt 1).significand = 2 ^ 52 by decide,
    show (Binary64.ofInt 1).scale = -52 by decide]
  norm_num

/-- The largest word without a sign is a number literal. -/
theorem signed_largest : (Binary64.ofInt (2 ^ 32 - 1)).signed = (2 ^ 32 - 1 : ℤ) := by
  rw [Binary64.signed, if_neg (by decide), Binary64.value,
    show (Binary64.ofInt (2 ^ 32 - 1)).significand = (2 ^ 32 - 1) * 2 ^ 21 by decide,
    show (Binary64.ofInt (2 ^ 32 - 1)).scale = -21 by decide]
  norm_num

/-- The largest unsigned word of 32 bits, divided by one, comes to `-1`. -/
theorem wideQuotient_negative :
    Ir.NumberKind.uint32.Holds (2 ^ 32 - 1) ∧ Ir.NumberKind.uint32.Holds 1 ∧
    Ir.NumberKind.uint32.Holds ((2 ^ 32 - 1 : ℤ).tdiv 1) ∧
    ∃ code, (JavaScript.rules 2).expr (.ofFile bareFile)
        (.binary .divide (constant (2 ^ 32 - 1) .uint32) (constant 1 .uint32) (.number .uint32)
          none) swapState = (.ok code, swapState) ∧
      JavaScript.quantities.eval code = pure (JavaScript.quantities.number (-1 : ℤ)) := by
  refine ⟨⟨by decide, by decide⟩, ⟨by decide, by decide⟩, ⟨by decide, by decide⟩, _, rfl, ?_⟩
  refine (JavaScript.quantities.eval_quotient _ _ _).trans ?_
  simp only [JavaScript.quantities.eval_constant (d := .ofInt (2 ^ 32 - 1)) rfl,
    JavaScript.quantities.eval_constant (d := .ofInt 1) rfl, signed_largest, signed_one,
    pure_bind, JavaScript.quantities.wordQuotient_number _ one_ne_zero]
  rfl

end TypedLowering
