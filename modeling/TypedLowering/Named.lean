/-!
# Names of alternatives

A type of finitely many alternatives can give each of them a name, by which texts and other tools
refer to it.
-/

namespace TypedLowering

/-- A type of finitely many values, each of which has a name of its own. -/
class Named (α : Type) where
  all : List α
  name : α → String

namespace Named

/-- The value of that name. -/
def ofName? {α : Type} [Named α] (name : String) : Option α :=
  (Named.all (α := α)).find? fun a => Named.name a == name

end Named

end TypedLowering
