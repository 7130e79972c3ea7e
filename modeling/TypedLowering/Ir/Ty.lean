import TypedLowering.Text.Escape

/-!
# Types

The types that annotate expressions. They are compared structurally; `describe` is the form in which
an error message shows a type.
-/

namespace TypedLowering.Ir

/-- The kinds of numbers. -/
inductive NumberKind where
  | int8 | uint8 | int16 | uint16 | int32 | uint32 | int64 | uint64
  | float32 | float64 | decimal
  deriving DecidableEq, Repr, Inhabited

namespace NumberKind

/-- Whether the kind has no fractional values. -/
def isInteger : NumberKind → Bool
  | .float32 | .float64 | .decimal => false
  | _ => true

/-- The name of a kind of number, as messages show it. -/
def name : NumberKind → String
  | .int8 => "Int8"
  | .uint8 => "UInt8"
  | .int16 => "Int16"
  | .uint16 => "UInt16"
  | .int32 => "Int32"
  | .uint32 => "UInt32"
  | .int64 => "Int64"
  | .uint64 => "UInt64"
  | .float32 => "Float32"
  | .float64 => "Float64"
  | .decimal => "Decimal"

end NumberKind

/-- A type. A lambda takes one curried argument, a delegate takes all of its arguments at once, and
a declared type names an entity of the project. -/
inductive Ty where
  | any
  | unit
  | boolean
  | char
  | string
  | regex
  | number (kind : NumberKind)
  | option (item : Ty)
  | array (item : Ty)
  | list (item : Ty)
  | tuple (items : List Ty)
  | lambda (arg ret : Ty)
  | delegate (args : List Ty) (ret : Ty)
  | param (name : String)
  | declared (entity : String) (generics : List Ty)
  deriving Repr, Inhabited

namespace Ty

mutual

/-- Structural equality of types. -/
def same : Ty → Ty → Bool
  | .any, .any | .unit, .unit | .boolean, .boolean | .char, .char | .string, .string
  | .regex, .regex => true
  | .number k, .number l => k == l
  | .option a, .option b | .array a, .array b | .list a, .list b => same a b
  | .tuple as, .tuple bs => sameList as bs
  | .lambda a r, .lambda b s => same a b && same r s
  | .delegate as r, .delegate bs s => sameList as bs && same r s
  | .param m, .param n => m == n
  | .declared d as, .declared e bs => d == e && sameList as bs
  | _, _ => false

/-- Structural equality of lists of types. -/
def sameList : List Ty → List Ty → Bool
  | [], [] => true
  | a :: as, b :: bs => same a b && sameList as bs
  | _, _ => false

end

/-- The type is the unit type. -/
def isUnit : Ty → Bool
  | .unit => true
  | _ => false

/-- Whether the type is a number kind without fractional values. -/
def isInteger : Ty → Bool
  | .number kind => kind.isInteger
  | _ => false

/-- What is returned after `n` curried arguments. A delegate takes all its arguments in one step and
ends the descent. -/
def returnAfter : Nat → Ty → Ty
  | n + 1, .lambda _ ret => returnAfter n ret
  | _ + 1, .delegate _ ret => ret
  | _, ty => ty

mutual

/-- The form of a type in messages. -/
def describe : Ty → String
  | .any => "Any"
  | .unit => "Unit"
  | .boolean => "Boolean"
  | .char => "Char"
  | .string => "String"
  | .regex => "Regex"
  | .number kind => "Number(" ++ kind.name ++ ")"
  | .option item => "Option(" ++ item.describe ++ ")"
  | .array item => "Array(" ++ item.describe ++ ")"
  | .list item => "List(" ++ item.describe ++ ")"
  | .tuple items => "Tuple([" ++ describeList items ++ "])"
  | .lambda arg ret => "Lambda(" ++ arg.describe ++ ", " ++ ret.describe ++ ")"
  | .delegate args ret => "Delegate([" ++ describeList args ++ "], " ++ ret.describe ++ ")"
  | .param name => "GenericParam(" ++ Text.quoted name ++ ")"
  | .declared entity generics =>
    "DeclaredType(EntityRef \x7b full_name: " ++ Text.quoted entity ++ " \x7d, [" ++
      describeList generics ++ "])"

/-- The forms of several types, with commas between them. -/
def describeList : List Ty → String
  | [] => ""
  | [ty] => ty.describe
  | ty :: rest => ty.describe ++ ", " ++ describeList rest

end

end Ty

end TypedLowering.Ir
