import TypedLowering.Dart.Tree
import TypedLowering.Ir.Declaration
import TypedLowering.Lowering.State

/-!
# Lowering types to Dart

Tuples are classes of the runtime library, up to seven items. An optional type is nullable, so an
option of an option is the same type again.
-/

namespace TypedLowering.Dart

/-- The prefix of a library of the runtime. -/
def runtimePrefix (file : SourceFile) (library : String) : Lower String :=
  .importWhole (file.settings.options.libraryPath library)

/-- The most items of a tuple. -/
def maxTupleArity : Nat := 7

/-- A lone argument of unit type is no argument. -/
def isUnitList : List Ir.Ty → Bool
  | [only] => only.isUnit
  | _ => false

mutual

/-- The type in Dart. -/
def lowerType (file : SourceFile) : Ir.Ty → Lower Ty
  | .any => pure .dynamic
  | .unit => pure .void
  | .boolean => pure .boolean
  | .char | .string => pure .string
  | .regex => pure (.named none "RegExp" [])
  | .number kind => pure (if kind.isInteger then .integer else .double)
  | .option item => do return (← lowerType file item).orNull
  | .array item | .list item => do return .list (← lowerType file item)
  | .tuple items => do
    if items.isEmpty || maxTupleArity < items.length then
      .fail (.unsupportedType (.tuple items) none)
    else
      let generics ← lowerTypes file items
      let library ← runtimePrefix file "Types.dart"
      return .named (some library) ("Tuple" ++ toString items.length) generics
  | .lambda arg ret => do
    let args ← if arg.isUnit then pure [] else do pure [← lowerType file arg]
    return .function args (← lowerType file ret)
  | .delegate args ret => do
    let args ← if isUnitList args then pure [] else lowerTypes file args
    return .function args (← lowerType file ret)
  | .param name => pure (.generic name)
  | .declared entity generics => do
    let entity ← .ofOption (.missingEntity entity) (file.settings.entity? entity)
    return .named none entity.displayName (← lowerTypes file generics)

/-- Lower types in order. -/
def lowerTypes (file : SourceFile) : List Ir.Ty → Lower (List Ty)
  | [] => pure []
  | ty :: tys => do
    let first ← lowerType file ty
    let rest ← lowerTypes file tys
    return first :: rest

end

/-- An identifier with its type. -/
def lowerIdent (file : SourceFile) (id : Ir.Ident) : Lower Ident := do
  return .own id.name (← lowerType file id.ty)

/-- Lower identifiers in order, each with its type. -/
def lowerIdents (file : SourceFile) : List Ir.Ident → Lower (List Ident)
  | [] => pure []
  | id :: ids => do
    let first ← lowerIdent file id
    let rest ← lowerIdents file ids
    return first :: rest

/-- A new local variable of that type. -/
def freshLocal (file : SourceFile) (candidate : String) (ty : Ir.Ty) : Lower Ident := do
  let name ← .allocateLocal candidate
  return .own name (← lowerType file ty)

mutual

/-- The type parameters that a type mentions. -/
def typeParams : Ir.Ty → List String
  | .param name => [name]
  | .option item | .array item | .list item => typeParams item
  | .tuple items | .declared _ items => typeParamsList items
  | .lambda arg ret => typeParams arg ++ typeParams ret
  | .delegate args ret => typeParamsList args ++ typeParams ret
  | .any | .unit | .boolean | .char | .string | .regex | .number _ => []

/-- The type parameters that a list of types mentions, in order. -/
def typeParamsList : List Ir.Ty → List String
  | [] => []
  | ty :: tys => typeParams ty ++ typeParamsList tys

end

/-- The names, each at its first place only. -/
def firstOccurrences (names : List String) : List String :=
  names.foldl (fun seen name => if name ∈ seen then seen else seen ++ [name]) []

/-- The type parameters of a function: those that its parameters and its result mention. -/
def functionGenerics (params : List Ir.Ident) (ret : Ir.Ty) : List String :=
  firstOccurrences (typeParamsList (params.map (·.ty)) ++ typeParams ret)

end TypedLowering.Dart
