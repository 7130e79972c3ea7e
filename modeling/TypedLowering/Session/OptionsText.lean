import TypedLowering.Named
import TypedLowering.Session.Basic
import TypedLowering.Text.Json

/-!
# Options as JSON

Options are an object with a field for each option, or an array with the options in order. What is
not given has its default value. Fields of other names are ignored, and a field may not come twice.
-/

namespace TypedLowering

open Text (Json)

instance : Named Language where
  all := [.javaScript, .dart]
  name
    | .javaScript => "JavaScript"
    | .dart => "Dart"

/-- A language by its name, or by an object whose only field has that name and is null. -/
def Language.ofJson? : Json → Option Language
  | .string (some name) => Named.ofName? name
  | .object [(some name, .null)] => Named.ofName? name
  | _ => none

/-- The value of an option that is a truth value. -/
def boolOfJson? : Json → Option Bool
  | .bool value => some value
  | _ => none

/-- The value of an option that is a text. -/
def stringOfJson? : Json → Option String
  | .string text => text
  | _ => none

namespace Options

/-- The names of the options, in order. -/
def fieldNames : List String := ["language", "debug_mode", "verbose", "library_dir"]

/-- The options with one of them set; a name that is no option changes nothing. -/
def set? (o : Options) (name : String) (json : Json) : Option Options :=
  if name = "language" then do return { o with language := ← Language.ofJson? json }
  else if name = "debug_mode" then do return { o with debugMode := ← boolOfJson? json }
  else if name = "verbose" then do return { o with verbose := ← boolOfJson? json }
  else if name = "library_dir" then do return { o with libraryDir := ← stringOfJson? json }
  else some o

/-- The options with the fields set, of which those in `seen` came before. -/
def setFields? (o : Options) (seen : List String) : List (Option String × Json) → Option Options
  | [] => some o
  | (key, json) :: rest => do
    let name ← key
    guard (¬(name ∈ fieldNames ∧ name ∈ seen))
    setFields? (← o.set? name json) (name :: seen) rest

/-- The options for a JSON value. -/
def ofJson? : Json → Option Options
  | .object fields => default.setFields? [] fields
  | .array items => do
    guard (items.length ≤ fieldNames.length)
    default.setFields? [] ((fieldNames.zip items).map fun (name, json) => (some name, json))
  | _ => none

/-- Reads options. -/
def parse (text : String) : Option Options := do ofJson? (← Json.parse text)

end Options

end TypedLowering
