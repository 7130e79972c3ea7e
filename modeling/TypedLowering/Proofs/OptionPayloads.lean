import TypedLowering.Proofs.Dart.Flags
import TypedLowering.Proofs.OperandOrder

/-!
# Options are nullable values

What an option holds is lowered as it is, and an empty option is null. So a test of an option asks
whether the value of what it holds is null, and reading the option gives that value
(`optionTests_readPayload`): an option that holds something is told from an empty one if and only if
the value is not null. An option that holds an empty option, or a unit value, is taken for an empty
one (`nestedOption_testsAsEmpty`). In Dart the types agree with this: an option of options has the
type of the options themselves.
-/

namespace TypedLowering

open Control

/-- Whether a computation lowers to code around the code of a part: the part is evaluated, and then
`rest` is done with its value. If the part cannot be lowered, then there is the same failure. -/
def Lower.Wraps {S α Value : Type} (eval : α → Behaviour S Value) (m part : Lower α)
    (rest : Value → Behaviour S Value) : Prop :=
  ∃ code : α → α, m = code <$> part ∧ ∀ e, eval (code e) = eval e >>= rest

namespace JavaScript

/-- How expressions are evaluated, where null is concerned: the operators `==` and `!=` take null
and undefined for the same, and for no other value. -/
structure NullTests (S : Type) where
  Value : Type
  eval : Expr → Behaviour S Value
  bool : Bool → Value
  isNullish : Value → Bool
  null : Value
  isNullish_null : isNullish null = true
  eval_loc (loc : Option Ir.Location) (form : ExprForm) : eval ⟨loc, form⟩ = eval (.of form)
  eval_null : eval (.literal .null) = pure null
  eval_equality (e : Expr) :
    eval (.binary .equality e (.literal .null)) = (do return bool (isNullish (← eval e)))
  eval_inequality (e : Expr) :
    eval (.binary .inequality e (.literal .null)) = (do return bool (!isNullish (← eval e)))

namespace NullTests

variable {S : Type} (T : NullTests S)

/-- Where an expression was lowered from has no part in its value. -/
theorem eval_withLoc (e : Expr) (loc : Option Ir.Location) : T.eval (e.withLoc loc) = T.eval e := by
  obtain ⟨_, form⟩ := e
  rw [Expr.withLoc]
  split
  · exact (T.eval_loc _ _).trans (T.eval_loc _ _).symm
  · rfl

/-- The comparison with null that a test becomes gives whether the operand is null, or is not. -/
theorem eval_test (isSome : Bool) (e : Expr) :
    T.eval (.binary (if isSome then .inequality else .equality) e (.literal .null)) =
      (do return T.bool (isSome != T.isNullish (← T.eval e))) := by
  cases isSome with
  | true => simp [T.eval_inequality]
  | false => simp [T.eval_equality]

end NullTests

section
variable (n : Nat) (ctx : Context) (v : Ir.Expr) (isSome : Bool) (ty accessTy : Ir.Ty)
  (loc nodeLoc : Option Ir.Location)

/-- An option that holds something is what it holds. -/
theorem rules_some :
    (rules (n + 1)).expr ctx (.option (some v) ty loc) =
      (Expr.withLoc · loc) <$> (rules n).expr ctx v := by
  simp [rules, Parts.exprRule, Parts.expansion?, Parts.isInvoked, Parts.exprCore,
    Ir.Expr.location]

/-- An empty option is null. -/
theorem rules_none :
    (rules (n + 1)).expr ctx (.option none ty loc) =
      pure ((Expr.literal .null).withLoc loc) := by
  simp [rules, Parts.exprRule, Parts.expansion?, Parts.isInvoked, Parts.exprCore,
    Ir.Expr.location, Expr.literal]

/-- A test of an option is a comparison of the option with null. -/
theorem rules_optionTest :
    (rules (n + 1)).expr ctx (.test v (.option isSome) nodeLoc) =
      (fun e => Expr.withLoc (.binary (if isSome then .inequality else .equality) e
        (.literal .null)) nodeLoc) <$> (rules n).expr ctx v := by
  simp [rules, Parts.exprRule, Parts.expansion?, Parts.isInvoked, Parts.exprCore, Parts.test,
    Ir.Expr.location]

/-- What an option holds is read as the option itself. -/
theorem rules_optionValue :
    (rules (n + 1)).expr ctx (.get v .optionValue accessTy nodeLoc) =
      (Expr.withLoc · nodeLoc) <$> (rules n).expr ctx v := by
  simp [rules, Parts.exprRule, Parts.expansion?, Parts.isInvoked, Parts.exprCore, Parts.access,
    Ir.Expr.location]

variable {S : Type} (T : NullTests S)

/-- A test of an option that holds something tells whether the value of what it holds is null. -/
theorem someTest_wraps :
    Lower.Wraps T.eval
      ((rules (n + 2)).expr ctx (.test (.option (some v) ty loc) (.option isSome) nodeLoc))
      ((rules n).expr ctx v) fun x => pure (T.bool (isSome != T.isNullish x)) := by
  refine ⟨fun e => Expr.withLoc (.binary (if isSome then .inequality else .equality)
    (e.withLoc loc) (.literal .null)) nodeLoc, ?_, fun e => ?_⟩
  · rw [rules_optionTest, rules_some, Functor.map_map]
  · rw [T.eval_withLoc, T.eval_test, T.eval_withLoc]

/-- What an option that holds something gives when it is read is the value of what it holds. -/
theorem someValue_wraps :
    Lower.Wraps T.eval
      ((rules (n + 2)).expr ctx (.get (.option (some v) ty loc) .optionValue accessTy nodeLoc))
      ((rules n).expr ctx v) pure := by
  refine ⟨fun e => (e.withLoc loc).withLoc nodeLoc, ?_, fun e => ?_⟩
  · rw [rules_optionValue, rules_some, Functor.map_map]
  · rw [T.eval_withLoc, T.eval_withLoc, bind_pure]

/-- A test of an empty option finds it empty. -/
theorem noneTest_evaluates :
    ∃ code, (rules (n + 2)).expr ctx (.test (.option none ty loc) (.option isSome) nodeLoc) =
      pure code ∧ T.eval code = pure (T.bool !isSome) := by
  refine ⟨_, by rw [rules_optionTest, rules_none, map_pure], ?_⟩
  rw [T.eval_withLoc, T.eval_test, T.eval_withLoc, T.eval_null, pure_bind, T.isNullish_null,
    Bool.bne_true]

end

end JavaScript

namespace Dart

/-- How expressions are evaluated, where null is concerned: the operators `==` and `!=` tell null
from all other values, and a null check raises an error if the value is null. -/
structure NullTests (M : Machine Stmt Expr) where
  Value : Type
  eval : Expr → Behaviour M.State Value
  bool : Bool → Value
  isNull : Value → Bool
  null : Value
  nullError : Behaviour M.State Value
  isNull_null : isNull null = true
  nullError_raises {a b : M.State} {r : Outcome Value} : nullError a r b → r = .exit .raised
  eval_null : eval .null = pure null
  eval_equal (e : Expr) : eval (.binary .equal e .null) = (do return bool (isNull (← eval e)))
  eval_notEqual (e : Expr) :
    eval (.binary .notEqual e .null) = (do return bool (!isNull (← eval e)))
  eval_nullCheck (e : Expr) :
    eval (.nullCheck e) = (do
      let x ← eval e
      if isNull x then nullError else return x)

namespace NullTests

variable {M : Machine Stmt Expr} (T : NullTests M)

/-- Runs the statements before an expression, and evaluates it. -/
def performs (v : Hoisted Expr) : Behaviour M.State T.Value := do
  execute M v.before
  T.eval v.value

/-- The comparison with null that a test becomes gives whether the operand is null, or is not. -/
theorem eval_test (isSome : Bool) (e : Expr) :
    T.eval (.binary (if isSome then .notEqual else .equal) e .null) =
      (do return T.bool (isSome != T.isNull (← T.eval e))) := by
  cases isSome with
  | true => simp [T.eval_notEqual]
  | false => simp [T.eval_equal]

end NullTests

section
variable (n : Nat) (ctx : Context) (hoists : Bool) (v : Ir.Expr) (isSome : Bool)
  (ty accessTy : Ir.Ty) (loc nodeLoc : Option Ir.Location)

/-- An option that holds something is what it holds. -/
theorem rules_some :
    (rules (n + 1)).expr ctx hoists (.option (some v) ty loc) = (rules n).expr ctx hoists v := by
  simp [rules, Parts.exprRule, Parts.expansion?, Parts.isCaptured, Parts.exprCore]

/-- An empty option is null. -/
theorem rules_none :
    (rules (n + 1)).expr ctx hoists (.option none ty loc) = pure ⟨[], .null⟩ := by
  simp [rules, Parts.exprRule, Parts.expansion?, Parts.isCaptured, Parts.exprCore]

/-- A test of an option is a comparison of the option with null. -/
theorem rules_optionTest :
    (rules (n + 1)).expr ctx hoists (.test v (.option isSome) nodeLoc) =
      (fun e => ⟨e.before, .binary (if isSome then .notEqual else .equal) e.value .null⟩) <$>
        (rules n).expr ctx hoists v := by
  simp [rules, Parts.exprRule, Parts.expansion?, Parts.isCaptured, Parts.exprCore, test]

/-- What an option holds is read as the option, asserted not to be null. -/
theorem rules_optionValue :
    (rules (n + 1)).expr ctx hoists (.get v .optionValue accessTy nodeLoc) =
      (fun e => ⟨e.before, .nullCheck e.value⟩) <$> (rules n).expr ctx hoists v := by
  simp [rules, Parts.exprRule, Parts.expansion?, Parts.isCaptured, Parts.exprCore, access]

variable {M : Machine Stmt Expr} (T : NullTests M)

/-- A test of an option that holds something tells whether the value of what it holds is null. -/
theorem someTest_wraps :
    Lower.Wraps T.performs
      ((rules (n + 2)).expr ctx hoists (.test (.option (some v) ty loc) (.option isSome) nodeLoc))
      ((rules n).expr ctx hoists v) fun x => pure (T.bool (isSome != T.isNull x)) := by
  refine ⟨_, by rw [rules_optionTest, rules_some], fun e => ?_⟩
  simp only [NullTests.performs, T.eval_test, bind_assoc]

/-- Reading what an option holds fails if that is null, and gives its value otherwise. -/
theorem someValue_wraps :
    Lower.Wraps T.performs
      ((rules (n + 2)).expr ctx hoists
        (.get (.option (some v) ty loc) .optionValue accessTy nodeLoc))
      ((rules n).expr ctx hoists v) fun x => if T.isNull x then T.nullError else pure x := by
  refine ⟨_, by rw [rules_optionValue, rules_some], fun e => ?_⟩
  simp only [NullTests.performs, T.eval_nullCheck, bind_assoc]

/-- A test of an empty option finds it empty. -/
theorem noneTest_evaluates :
    ∃ code,
      (rules (n + 2)).expr ctx hoists (.test (.option none ty loc) (.option isSome) nodeLoc) =
        pure code ∧ T.performs code = pure (T.bool !isSome) := by
  refine ⟨_, by rw [rules_optionTest, rules_none, map_pure], ?_⟩
  rw [NullTests.performs, T.eval_test, T.eval_null, execute_nil, pure_bind, pure_bind,
    T.isNull_null, Bool.bne_true]

end

/-- An option of an option has the type of an option. -/
theorem Ty.orNull_orNull (ty : Ty) : ty.orNull.orNull = ty.orNull := by
  cases ty <;> rfl

/-- An option of options has the type of the options. -/
theorem lowerType_option_option (file : SourceFile) (ty : Ir.Ty) :
    lowerType file (.option (.option ty)) = lowerType file (.option ty) := by
  simp [lowerType, Ty.orNull_orNull]

end Dart

/-- An option that holds `v` is lowered like `v`, and an empty one to null. So the tests of an
option that holds `v` evaluate `v`, and answer by whether its value is null; reading the option
gives the value of `v`, in Dart with an error if this is null. The tests of an empty option answer
that it is empty. -/
theorem optionTests_readPayload :
    (∀ {S : Type} (T : JavaScript.NullTests S) (n : Nat) (ctx : Context) (v : Ir.Expr)
        (isSome : Bool) (ty accessTy : Ir.Ty) (loc nodeLoc : Option Ir.Location),
      (JavaScript.rules (n + 1)).expr ctx (.option (some v) ty loc) =
        (JavaScript.Expr.withLoc · loc) <$> (JavaScript.rules n).expr ctx v ∧
      (JavaScript.rules (n + 1)).expr ctx (.option none ty loc) =
        pure ((JavaScript.Expr.literal .null).withLoc loc) ∧
      Lower.Wraps T.eval
        ((JavaScript.rules (n + 2)).expr ctx
          (.test (.option (some v) ty loc) (.option isSome) nodeLoc))
        ((JavaScript.rules n).expr ctx v)
        (fun x => pure (T.bool (isSome != T.isNullish x))) ∧
      Lower.Wraps T.eval
        ((JavaScript.rules (n + 2)).expr ctx
          (.get (.option (some v) ty loc) .optionValue accessTy nodeLoc))
        ((JavaScript.rules n).expr ctx v) pure ∧
      ∃ code,
        (JavaScript.rules (n + 2)).expr ctx
          (.test (.option none ty loc) (.option isSome) nodeLoc) = pure code ∧
        T.eval code = pure (T.bool !isSome)) ∧
    ∀ {M : Control.Machine Dart.Stmt Dart.Expr} (T : Dart.NullTests M) (n : Nat) (ctx : Context)
        (hoists : Bool) (v : Ir.Expr) (isSome : Bool) (ty accessTy : Ir.Ty)
        (loc nodeLoc : Option Ir.Location),
      (Dart.rules (n + 1)).expr ctx hoists (.option (some v) ty loc) =
        (Dart.rules n).expr ctx hoists v ∧
      (Dart.rules (n + 1)).expr ctx hoists (.option none ty loc) = pure ⟨[], .null⟩ ∧
      Lower.Wraps T.performs
        ((Dart.rules (n + 2)).expr ctx hoists
          (.test (.option (some v) ty loc) (.option isSome) nodeLoc))
        ((Dart.rules n).expr ctx hoists v)
        (fun x => pure (T.bool (isSome != T.isNull x))) ∧
      Lower.Wraps T.performs
        ((Dart.rules (n + 2)).expr ctx hoists
          (.get (.option (some v) ty loc) .optionValue accessTy nodeLoc))
        ((Dart.rules n).expr ctx hoists v)
        (fun x => if T.isNull x then T.nullError else pure x) ∧
      (∃ code,
        (Dart.rules (n + 2)).expr ctx hoists
          (.test (.option none ty loc) (.option isSome) nodeLoc) = pure code ∧
        T.performs code = pure (T.bool !isSome)) ∧
      Dart.lowerType ctx.file (.option (.option ty)) = Dart.lowerType ctx.file (.option ty) := by
  refine ⟨fun T n ctx v isSome ty accessTy loc nodeLoc => ⟨?_, ?_, ?_, ?_, ?_⟩,
    fun T n ctx hoists v isSome ty accessTy loc nodeLoc => ⟨?_, ?_, ?_, ?_, ?_, ?_⟩⟩
  · exact JavaScript.rules_some ..
  · exact JavaScript.rules_none ..
  · exact JavaScript.someTest_wraps ..
  · exact JavaScript.someValue_wraps ..
  · exact JavaScript.noneTest_evaluates ..
  · exact Dart.rules_some ..
  · exact Dart.rules_none ..
  · exact Dart.someTest_wraps ..
  · exact Dart.someValue_wraps ..
  · exact Dart.noneTest_evaluates ..
  · exact Dart.lowerType_option_option ..

/-! ## An option that holds an empty option -/

namespace JavaScript

/-- The values of constants and of tests for null. -/
inductive Plain where
  | null | undefined | bool (value : Bool)

/-- The value counts as null in a loose comparison. -/
def Plain.isNullish : Plain → Bool
  | .null | .undefined => true
  | .bool _ => false

mutual

/-- The value of a constant or of a test for null, where everything else is undefined. -/
def Expr.plain : Expr → Plain
  | ⟨_, form⟩ => form.plain

/-- The value of a form: constants have one, and so do comparisons with null. -/
def ExprForm.plain : ExprForm → Plain
  | .literal .null => .null
  | .literal (.bool value) => .bool value
  | .binary .equality e ⟨_, .literal .null⟩ => .bool e.plain.isNullish
  | .binary .inequality e ⟨_, .literal .null⟩ => .bool (!e.plain.isNullish)
  | _ => .undefined

end

/-- Constants and tests for null are evaluated without effects. -/
def plainTests : NullTests Unit where
  Value := Plain
  eval e := pure e.plain
  bool := .bool
  isNullish := Plain.isNullish
  null := .null
  isNullish_null := rfl
  eval_loc _ _ := rfl
  eval_null := rfl
  eval_equality e := (pure_bind e.plain fun x => pure (Plain.bool x.isNullish)).symm
  eval_inequality e := (pure_bind e.plain fun x => pure (Plain.bool !x.isNullish)).symm

end JavaScript

namespace Dart

/-- Constants, flags, and tests for null. Everything else is null. -/
def nullableFlag : Expr → Behaviour Flags (Option Bool)
  | .literal (.bool value) => pure (some value)
  | .ident ⟨name, _, none⟩ => Flags.reads fun a => some (a name)
  | .binary .equal e (.literal .null) => do return some (← nullableFlag e).isNone
  | .binary .notEqual e (.literal .null) => do return some (!(← nullableFlag e).isNone)
  | .nullCheck e => do
    let x ← nullableFlag e
    if x.isNone then fun a r b => r = .exit .raised ∧ b = a else return x
  | _ => pure none

/-- Statements work on flags, and expressions may be null. -/
def flagTests : NullTests Flags.machine where
  Value := Option Bool
  eval := nullableFlag
  bool := some
  isNull := Option.isNone
  null := none
  nullError := fun a r b => r = .exit .raised ∧ b = a
  isNull_null := rfl
  nullError_raises h := h.1
  eval_null := rfl
  eval_equal _ := rfl
  eval_notEqual _ := rfl
  eval_nullCheck _ := rfl

end Dart

/-- The value `Some None`. -/
def someNone : Ir.Expr :=
  .option (some (.option none .boolean none)) (.option .boolean) none

/-- The value `Some ()`. -/
def someUnit : Ir.Expr :=
  .option (some (.literal .unit none)) .unit none

/-- An option that holds an empty option, or a unit value, is lowered to null. It tests as empty,
and in Dart reading it is an error. -/
theorem nestedOption_testsAsEmpty :
    (∀ v ∈ [someNone, someUnit], ∃ code,
      (JavaScript.rules 3).expr (.ofFile bareFile) (.test v (.option true) none) savedState =
        (.ok code, savedState) ∧
      code.plain = .bool false) ∧
    ∀ v ∈ [someNone, someUnit], ∃ test read,
      (Dart.rules 3).expr (.ofFile bareFile) true (.test v (.option true) none) savedState =
        (.ok test, savedState) ∧
      (Dart.rules 3).expr (.ofFile bareFile) true (.get v .optionValue .any none) savedState =
        (.ok read, savedState) ∧
      Dart.flagTests.performs test = pure (some false) ∧
      Dart.flagTests.performs read = Dart.flagTests.nullError := by
  constructor
  · rintro v hv
    obtain rfl | rfl : v = someNone ∨ v = someUnit := by simpa using hv
    · exact ⟨_, rfl, rfl⟩
    · exact ⟨_, rfl, rfl⟩
  · rintro v hv
    have htest : Dart.flagTests.performs ⟨[], .binary .notEqual .null .null⟩ =
        pure (some false) := by
      rw [Dart.NullTests.performs, Dart.execute_nil, pure_bind, Dart.flagTests.eval_notEqual,
        Dart.flagTests.eval_null, pure_bind]
      rfl
    have hread : Dart.flagTests.performs ⟨[], .nullCheck .null⟩ = Dart.flagTests.nullError := by
      rw [Dart.NullTests.performs, Dart.execute_nil, pure_bind, Dart.flagTests.eval_nullCheck,
        Dart.flagTests.eval_null, pure_bind, Dart.flagTests.isNull_null, if_pos rfl]
    obtain rfl | rfl : v = someNone ∨ v = someUnit := by simpa using hv
    · exact ⟨_, _, rfl, rfl, htest, hread⟩
    · exact ⟨_, _, rfl, rfl, htest, hread⟩

end TypedLowering
