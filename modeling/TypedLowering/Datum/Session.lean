import TypedLowering.Datum.Ir
import TypedLowering.Lowering.Error
import TypedLowering.Session.OptionsText

/-!
# Sessions as data

Options, logs, declared types, and the failures of lowering. A failure names its cause and keeps its
wording.
-/

namespace TypedLowering

open Datum (named)

instance : Named Severity where
  all := [.error, .warning, .info]
  name
    | .error => "error"
    | .warning => "warning"
    | .info => "info"

/-- The options as data. -/
def Options.datum (o : Options) : Datum :=
  .fields [("language", named o.language), ("debug_mode", .truth o.debugMode),
    ("verbose", .truth o.verbose), ("library_dir", .text o.libraryDir)]

instance : ToDatum Options := ⟨Options.datum⟩

/-- An entry of the log as data. -/
def LogEntry.datum (e : LogEntry) : Datum :=
  .fields [("severity", named e.severity), ("message", .text e.message), ("tag", toDatum e.tag),
    ("file", toDatum e.file), ("loc", toDatum e.loc)]

instance : ToDatum LogEntry := ⟨LogEntry.datum⟩

/-- What a session leaves behind beside its results. -/
def Journal.entries (j : Journal) : List (String × Datum) :=
  [("logs", toDatum j.log), ("watch", toDatum j.watched)]

/-- A field as its name, its type and whether it may be set. -/
def Field.datum (f : Field) : Datum := .list [.text f.name, f.ty.datum, .truth f.isMutable]

instance : ToDatum Field := ⟨Field.datum⟩

/-- A case as its name and its fields. -/
def UnionCase.datum (c : UnionCase) : Datum := .list [.text c.name, toDatum c.fields]

instance : ToDatum UnionCase := ⟨UnionCase.datum⟩

/-- A declared type as data. -/
def Entity.datum (e : Entity) : Datum :=
  .fields [("ref", .text e.fullName), ("display", .text e.displayName),
    ("fields", toDatum e.fields), ("cases", toDatum e.cases), ("public", .truth e.isPublic)]

instance : ToDatum Entity := ⟨Entity.datum⟩

namespace LowerError

/-- The name of the cause. -/
def cause : LowerError → String
  | .unsupported .. => "Unsupported"
  | .unsupportedType .. => "UnsupportedType"
  | .missingTarget _ => "MissingDecisionTarget"
  | .missingEntity _ => "MissingEntity"
  | .statementInExpression .. => "StatementInExpression"
  | .endless => "Endless"

/-- The entries that tell of a failure. -/
def entries (e : LowerError) : List (String × Datum) :=
  [("error", .text e.cause), ("message", .text e.message), ("loc", toDatum e.location)]

end LowerError

instance {α : Type} [ToDatum α] : ToDatum (Except LowerError α) := ⟨fun
  | .ok value => toDatum value
  | .error e => .fields e.entries⟩

instance {α : Type} [ToDatum α] : ToDatum (Except FileError α) := ⟨fun
  | .ok value => toDatum value
  | .error e =>
    .fields (e.error.entries ++ [("file", .text e.file), ("full", .text e.message)])⟩

end TypedLowering
