import TypedLowering.Ir.Expr

/-!
# Declarations

A file is an ordered list of declarations, together with the names that its root scope already
uses. Each declaration lists the names that its body uses.
-/

namespace TypedLowering.Ir

/-- A function or a value. A value keeps its initializer even when that is a lambda. -/
structure Member where
  name : String
  args : List Ident
  body : Expr
  isValue : Bool
  isPublic : Bool
  isMutable : Bool
  used : List String
  loc : Option Location

/-- An expression that is run when the file is loaded. -/
structure Action where
  body : Expr
  used : List String

/-- A class, described by an entity of the project. -/
structure ClassDecl where
  name : String
  entity : String
  constructor : Option Member
  members : List Member
  used : List String

/-- The declarations of a file. Modules hold further ones. -/
inductive Declaration where
  | module (name : String) (members : List Declaration)
  | action (action : Action)
  | member (member : Member)
  | classDecl (decl : ClassDecl)

/-- A declaration that is not a module. -/
inductive Leaf where
  | action (action : Action)
  | member (member : Member)
  | classDecl (decl : ClassDecl)

namespace Declaration

/-- The name of a declaration in messages. -/
def name : Declaration → String
  | .module name _ => name
  | .action _ => "<action>"
  | .member m => m.name
  | .classDecl c => c.name

mutual

/-- The declarations that stand in a declaration, modules flattened away. -/
def leaves : Declaration → List Leaf
  | .module _ members => leavesList members
  | .action a => [.action a]
  | .member m => [.member m]
  | .classDecl c => [.classDecl c]

/-- What is declared by a list of declarations, modules opened. -/
def leavesList : List Declaration → List Leaf
  | [] => []
  | d :: ds => d.leaves ++ leavesList ds

end

end Declaration

/-- One compilation unit. -/
structure File where
  declarations : List Declaration
  used : List String

end TypedLowering.Ir
