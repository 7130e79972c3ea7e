import TypedLowering.Ir.Expr

/-!
# Failures of lowering

An expression that a back end has no rule for, or that is malformed, makes the lowering of its file
fail. `LowerError` gives the cause, and `message` its wording.
-/

namespace TypedLowering

open Ir (Ty Location)

/-- Constructs that a target has no counterpart for. -/
inductive Construct where
  | rethrowOutsideHandler
  | objectExpression
  | anonymousRecord
  /-- A constructor call whose callee is neither imported nor an identifier. -/
  | computedConstructor
  /-- The import of a whole module, or of its default, where only members have names. -/
  | unnamedImport (selector path : String)
  deriving DecidableEq, Repr, Inhabited

namespace Construct

/-- The name of a construct in messages. -/
def describe : Construct → String
  | .rethrowOutsideHandler => "rethrow outside a catch handler"
  | .objectExpression => "object expression"
  | .anonymousRecord => "anonymous record"
  | .computedConstructor => "constructor call on a computed callee"
  | .unnamedImport selector path => selector ++ " import of " ++ path

end Construct

/-- Why lowering a file failed. -/
inductive LowerError where
  | unsupported (construct : Construct) (loc : Option Location)
  | unsupportedType (ty : Ty) (loc : Option Location)
  | missingTarget (index : Nat)
  | missingEntity (fullName : String)
  /-- An expression of that kind needs statements where only an expression may stand. -/
  | statementInExpression (kind : String) (loc : Option Location)
  /-- Targets of decision trees or inline functions lead back to themselves. -/
  | endless
  deriving Repr, Inhabited

namespace LowerError

/-- The wording of a failure. -/
def message : LowerError → String
  | .unsupported construct _ => "unsupported " ++ construct.describe
  | .unsupportedType ty _ => "no mapping for type " ++ ty.describe
  | .missingTarget index => "decision tree has no target " ++ toString index
  | .missingEntity fullName => "cannot find entity " ++ fullName
  | .statementInExpression kind _ => kind ++ " cannot be lowered in expression position"
  | .endless => "decision targets or inline functions lead back to themselves"

/-- The place of a failure, where it has one. -/
def location : LowerError → Option Location
  | .unsupported _ loc | .unsupportedType _ loc | .statementInExpression _ loc => loc
  | .missingTarget _ | .missingEntity _ | .endless => none

end LowerError

/-- The failure of one file of several. -/
structure FileError where
  file : String
  error : LowerError
  deriving Repr, Inhabited

/-- The wording of a failure with its file in front. -/
def FileError.message (e : FileError) : String :=
  e.file ++ ": " ++ e.error.message

end TypedLowering
