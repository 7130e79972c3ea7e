import TypedLowering.Ir.Expr
import TypedLowering.Names.Scopes
import TypedLowering.Session.Basic

/-!
# Imports of a file

What is imported while a file is lowered, by module path in the order of first use. Asking for the
same selector of the same path again gives the alias of the first time. Aliases are root names.
-/

namespace TypedLowering

/-- What is imported from one path: the alias of the whole module, if that is imported, and the
imported members with their aliases. -/
structure ModuleImports where
  path : String
  whole : Option String
  members : List (String × String)
  deriving Inhabited

/-- The file name of a path, without directories, scheme and extension. A leading dot starts no
extension. -/
def pathStem (path : String) : String :=
  let file := (path.toList.reverse.takeWhile fun c => c != '/' && c != '\\' && c != ':').reverse
  match file with
  | '.' :: _ => String.ofList file
  | _ => String.ofList (file.takeWhile (· != '.'))

/-- The imports of a file, one entry for each path. -/
abbrev ImportTable := List ModuleImports

namespace ImportTable

/-- What is imported from a path so far. -/
def lookup (t : ImportTable) (path : String) : Option ModuleImports :=
  t.find? (·.path == path)

/-- Updates the entry of a path, a new one at the end if there was none. -/
def update (t : ImportTable) (path : String) (f : ModuleImports → ModuleImports) : ImportTable :=
  if t.any (·.path == path) then t.map fun m => if m.path == path then f m else m
  else t ++ [f ⟨path, none, []⟩]

/-- The alias of the whole module at `path`. -/
def importWhole (t : ImportTable) (names : Scopes) (path : String) :
    String × ImportTable × Scopes :=
  match (t.lookup path).bind (·.whole) with
  | some name => (name, t, names)
  | none =>
    let (name, names) := names.allocateRoot (pathStem path)
    (name, t.update path fun m => { m with whole := some name }, names)

/-- The alias of a member of the module at `path`. The selector `*` stands for the whole module, and
`default` is named after the path. -/
def importMember (t : ImportTable) (names : Scopes) (path selector : String) :
    String × ImportTable × Scopes :=
  if selector = "*" then t.importWhole names path
  else
    match (t.lookup path).bind fun m => m.members.find? (·.1 == selector) with
    | some (_, name) => (name, t, names)
    | none =>
      let candidate := if selector = "default" then pathStem path else selector
      let (name, names) := names.allocateRoot candidate
      (name, t.update path fun m => { m with members := m.members ++ [(selector, name)] }, names)

end ImportTable

/-- The rest of `selector` after `root` and a dot. -/
def selectorUnder? (root selector : String) : Option String :=
  let lead := root.toList ++ ['.']
  if lead.isPrefixOf selector.toList then some (String.ofList (selector.toList.drop lead.length))
  else none

/-- The module path and the selector that an import stands for in `file`.

Library imports live in the directory of the runtime library. Other files are imported where they
were lowered to, if that is known, and are watched from then on. The selector of a member loses the
name of the root module of its file. -/
def resolveImport (file : SourceFile) (journal : Journal) (ref : Ir.ImportRef) :
    (String × String) × Journal :=
  match ref.kind with
  | .library => ((file.settings.options.libraryPath ref.path, ref.selector), journal)
  | .user | .member =>
    let path := (file.settings.output? ref.path).getD ref.path
    let selector :=
      match ref.kind, file.settings.rootModule? ref.path with
      | .member, some root =>
        if root.isEmpty then ref.selector else (selectorUnder? root ref.selector).getD ref.selector
      | _, _ => ref.selector
    ((path, selector), journal.watch file.path ref.path)

end TypedLowering
