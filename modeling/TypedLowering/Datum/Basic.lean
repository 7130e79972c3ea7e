import TypedLowering.Ir.Location
import TypedLowering.Named
import TypedLowering.Number.Binary64

/-!
# Plain data

The form in which trees, logs and errors are handed to tools that do not know their types: scalars,
lists, and fields with names. What is missing is `none`.
-/

namespace TypedLowering

/-- Plain data. -/
inductive Datum where
  | none
  | truth (value : Bool)
  | integer (value : Int)
  | number (value : Binary64)
  | text (value : String)
  | list (items : List Datum)
  | fields (entries : List (String × Datum))
  deriving Inhabited

/-- A type whose values have a form as plain data. -/
class ToDatum (α : Type) where
  toDatum : α → Datum

export ToDatum (toDatum)

instance : ToDatum Datum := ⟨id⟩
instance : ToDatum Bool := ⟨.truth⟩
instance : ToDatum Nat := ⟨fun n => .integer n⟩
instance : ToDatum String := ⟨.text⟩

instance {α : Type} [ToDatum α] : ToDatum (Option α) := ⟨fun
  | none => .none
  | some value => toDatum value⟩

instance {α : Type} [ToDatum α] : ToDatum (List α) := ⟨fun values => .list (values.map toDatum)⟩

namespace Datum

/-- An alternative with one content. -/
def one (name : String) (content : Datum) : Datum := .fields [(name, content)]

/-- An alternative with fields. -/
def variant (name : String) (entries : List (String × Datum)) : Datum := one name (.fields entries)

/-- A value that is handed over by its name alone. -/
def named {α : Type} [Named α] (value : α) : Datum := .text (Named.name value)

/-- A number of a target tree. Infinities and what is no number are missing. -/
def finite (value : Binary64) : Datum :=
  if value.isFinite then .number value else .none

end Datum

/-- Start and end of a location, and the name that it carries. -/
def Ir.Location.datum (l : Location) : Datum :=
  .list [toDatum l.start.line, toDatum l.start.column, toDatum l.stop.line, toDatum l.stop.column,
    toDatum l.identifier]

instance : ToDatum Ir.Location := ⟨Ir.Location.datum⟩

end TypedLowering
