import TypedLowering.Ir.Expr

/-!
# Sessions

A session is one run of the compiler. Its settings are fixed: the options and what the front end
knows of the project. Its journal grows: the log, the warnings that were given, and the files whose
changes should start the compiler again.
-/

namespace TypedLowering

open Ir (Ty Ident Expr Location)

/-- The languages that the compiler writes. -/
inductive Language where
  | javaScript | dart
  deriving DecidableEq, Repr, Inhabited

/-- The options of the compiler. -/
structure Options where
  language : Language
  debugMode : Bool
  verbose : Bool
  /-- The path under which the runtime library is imported. -/
  libraryDir : String
  deriving DecidableEq, Repr, Inhabited

namespace Options

/-- The options that hold where nothing else is said. -/
def default : Options := ⟨.javaScript, false, false, "./lib"⟩

/-- The directory of the runtime library, without slashes at its end. -/
def libraryRoot (o : Options) : String :=
  String.ofList (o.libraryDir.toList.reverse.dropWhile (· == '/')).reverse

/-- The import path of a file of the runtime library. -/
def libraryPath (o : Options) (file : String) : String :=
  o.libraryRoot ++ "/" ++ file

end Options

/-- A field of a record or of a case of a union. -/
structure Field where
  name : String
  ty : Ty
  isMutable : Bool
  deriving Inhabited

/-- A case of a union. -/
structure UnionCase where
  name : String
  fields : List Field
  deriving Inhabited

/-- What a declared type is made of. -/
inductive EntityKind where
  | record (fields : List Field)
  | union (cases : List UnionCase)
  | plain
  deriving Inhabited

/-- What the front end knows of a declared type. -/
structure Entity where
  fullName : String
  displayName : String
  kind : EntityKind
  isPublic : Bool
  deriving Inhabited

namespace Entity

/-- The fields of a record; no other entity has any. -/
def fields (e : Entity) : List Field :=
  match e.kind with
  | .record fields => fields
  | _ => []

/-- The cases of a union; no other entity has any. -/
def cases (e : Entity) : List UnionCase :=
  match e.kind with
  | .union cases => cases
  | _ => []

end Entity

/-- An inline function: its parameters and its body. -/
structure InlineFunction where
  args : List Ident
  body : Expr
  deriving Inhabited

/-- What the front end knows of the project; each list goes from names to what they stand for. -/
structure Project where
  entities : List Entity
  inlines : List (String × InlineFunction)
  /-- The root module that a file declares. -/
  rootModules : List (String × String)
  /-- The path to which a file was lowered. -/
  outputs : List (String × String)
  deriving Inhabited

/-- The fixed part of a session. -/
structure Settings where
  options : Options
  project : Project
  /-- The inline functions that are ready for expansion. -/
  precompiled : List String
  deriving Inhabited

/-- The last value that a list of pairs gives to a name. -/
def lookupLast {α : Type} (entries : List (String × α)) (name : String) : Option α :=
  (entries.reverse.find? (·.1 == name)).map (·.2)

namespace Settings

/-- The declared type of that name. The last declaration of a name counts. -/
def entity? (s : Settings) (fullName : String) : Option Entity :=
  s.project.entities.reverse.find? (·.fullName == fullName)

/-- The inline function of that name. -/
def inline? (s : Settings) (fullName : String) : Option InlineFunction :=
  lookupLast s.project.inlines fullName

/-- The root module of a file. -/
def rootModule? (s : Settings) (file : String) : Option String :=
  lookupLast s.project.rootModules file

/-- Where the output of a file goes. -/
def output? (s : Settings) (file : String) : Option String :=
  lookupLast s.project.outputs file

/-- Whether the name is that of an inline function which is not ready yet. -/
def isPrecompiling (s : Settings) (fullName : String) : Bool :=
  (s.inline? fullName).isSome && !s.precompiled.contains fullName

end Settings

/-- How serious a log entry is. -/
inductive Severity where
  | error | warning | info
  deriving DecidableEq, Repr, Inhabited

/-- An entry of the log. -/
structure LogEntry where
  severity : Severity
  message : String
  tag : Option String
  file : Option String
  loc : Option Location
  deriving DecidableEq, Repr, Inhabited

/-- The growing part of a session. -/
structure Journal where
  log : List LogEntry
  /-- The messages of the warnings that are given once. -/
  warned : List String
  watched : List String
  deriving Inhabited

namespace Journal

/-- The journal of a session that has just begun. -/
def empty : Journal := ⟨[], [], []⟩

/-- The journal with one more entry at the end of its log. -/
def add (j : Journal) (entry : LogEntry) : Journal :=
  { j with log := j.log ++ [entry] }

/-- Logs a warning of `file`, unless one with the same message was given before. -/
def warnOnce (j : Journal) (file message : String) (loc : Option Location) : Journal :=
  if message ∈ j.warned then j
  else { j with warned := message :: j.warned }.add ⟨.warning, message, none, some file, loc⟩

/-- Notes that `file` depends on `path`, unless they are the same or it is noted already. -/
def watch (j : Journal) (file path : String) : Journal :=
  if path = file ∨ path ∈ j.watched then j else { j with watched := j.watched ++ [path] }

end Journal

/-- Something that is noted in the journal. -/
inductive Note where
  /-- A warning of a file, unless one with the same message was given before. -/
  | warning (file message : String) (loc : Option Location)
  | entry (entry : LogEntry)
  /-- A file depends on a path. -/
  | dependency (file path : String)

namespace Journal

/-- The journal with a note. -/
def note (j : Journal) : Note → Journal
  | .warning file message loc => j.warnOnce file message loc
  | .entry entry => j.add entry
  | .dependency file path => j.watch file path

/-- The journal with notes, one after the other. -/
def notes (j : Journal) (ns : List Note) : Journal :=
  ns.foldl note j

/-- What is done for a note while nobody else touches the journal, and the notes that come of it:
that the message of a warning is new is found out before the warning is logged. -/
def start (j : Journal) : Note → Journal × List Note
  | .warning file message loc =>
    if message ∈ j.warned then (j, [])
    else ({ j with warned := message :: j.warned },
      [.entry ⟨.warning, message, none, some file, loc⟩])
  | .entry entry => (j.add entry, [])
  | .dependency file path => (j.watch file path, [])

end Journal

/-- One run of the compiler. -/
structure Session where
  settings : Settings
  journal : Journal
  deriving Inhabited

namespace Session

/-- A session in which nothing happened yet. -/
def start (settings : Settings) : Session := ⟨settings, .empty⟩

/-- Makes an inline function ready for expansion. -/
def markPrecompiled (s : Session) (fullName : String) : Session :=
  { s with settings := { s.settings with precompiled := fullName :: s.settings.precompiled } }

end Session

/-- A file that is being compiled, with the settings of its session. -/
structure SourceFile where
  settings : Settings
  path : String
  deriving Inhabited

end TypedLowering
