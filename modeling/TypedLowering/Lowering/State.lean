import TypedLowering.Imports
import TypedLowering.Lowering.Classification

/-!
# The state of lowering a file

Lowering allocates names, collects imports, writes to the journal of the session, and keeps track of
the exceptions that are being handled and of whether the loop of the current function is used. A
computation that fails keeps the changes it made before.
-/

namespace TypedLowering

/-- The state of lowering a file. -/
structure LowerState where
  names : Scopes
  imports : ImportTable
  journal : Journal
  /-- The parameters of the enclosing handlers, innermost first. -/
  caught : List String
  /-- Whether a self call of the innermost function became a jump. -/
  looped : Bool
  deriving Inhabited

/-- The state at the start of a file. -/
def LowerState.start (journal : Journal) (root reserved : List String) : LowerState :=
  { names := .ofRoot root reserved, imports := [], journal, caught := [], looped := false }

/-- A computation on the state that may fail. -/
def Lower (α : Type) := LowerState → Except LowerError α × LowerState

namespace Lower

variable {α β : Type}

instance : Monad Lower where
  pure a := fun s => (.ok a, s)
  bind m f := fun s =>
    match m s with
    | (.ok a, s) => f a s
    | (.error e, s) => (.error e, s)

/-- A value leaves the state as it is. -/
theorem pure_apply (a : α) (s : LowerState) : (pure a : Lower α) s = (.ok a, s) := rfl

/-- A step that succeeds hands its value and its state to the rest. -/
theorem bind_ok {m : Lower α} {f : α → Lower β} {s t : LowerState} {a : α} (h : m s = (.ok a, t)) :
    (m >>= f) s = f a t := by
  simp only [bind, h]

/-- A step that fails ends the computation, in the state that it left. -/
theorem bind_error {m : Lower α} {f : α → Lower β} {s t : LowerState} {e : LowerError}
    (h : m s = (.error e, t)) : (m >>= f) s = (.error e, t) := by
  simp only [bind, h]

instance : LawfulMonad Lower := LawfulMonad.mk' Lower
  (fun m => by
    funext s
    simp only [Functor.map]
    rcases m s with ⟨_ | _, _⟩ <;> rfl)
  (fun _ _ => rfl)
  (fun m f g => by
    funext s
    simp only [bind]
    rcases m s with ⟨_ | _, _⟩ <;> rfl)

/-- The computation that fails. -/
def fail (e : LowerError) : Lower α := fun s => (.error e, s)

/-- The result of a check that does not touch the state. -/
def ofExcept (r : Except LowerError α) : Lower α := fun s => (r, s)

/-- The value, or the failure if there is none. -/
def ofOption (e : LowerError) : Option α → Lower α
  | some a => pure a
  | none => fail e

/-- A value computed from the state. -/
def read (f : LowerState → α) : Lower α := fun s => (.ok (f s), s)

/-- Whether `e` has to be lowered to statements. -/
def isStatement (ctx : Context) (prefer : Bool) (e : Ir.Expr) : Lower Bool :=
  ofExcept (TypedLowering.isStatement ctx prefer e)

/-- A name for the open declaration, as close to the candidate as possible. -/
def allocateLocal (candidate : String) : Lower String := fun s =>
  let (name, names) := s.names.allocateLocal candidate
  (.ok name, { s with names })

/-- A name for the file, as close to the candidate as possible. -/
def allocateRoot (candidate : String) : Lower String := fun s =>
  let (name, names) := s.names.allocateRoot candidate
  (.ok name, { s with names })

/-- The names for the loop of a function. -/
def allocateTailCall (label : String) (params : List Ir.Ident) : Lower TailCall := fun s =>
  let (t, names) := TailCall.allocate s.names label params
  (.ok t, { s with names })

/-- The name under which a whole library is imported. -/
def importWhole (path : String) : Lower String := fun s =>
  let (name, imports, names) := s.imports.importWhole s.names path
  (.ok name, { s with imports, names })

/-- The name under which one member of a library is imported. -/
def importMember (path selector : String) : Lower String := fun s =>
  let (name, imports, names) := s.imports.importMember s.names path selector
  (.ok name, { s with imports, names })

/-- The path and the selector of an import, with the warnings that resolving it gives. -/
def resolveImport (file : SourceFile) (ref : Ir.ImportRef) : Lower (String × String) := fun s =>
  let (resolved, journal) := TypedLowering.resolveImport file s.journal ref
  (.ok resolved, { s with journal })

/-- Notes that a self call became a jump. -/
def markLooped : Lower Unit := fun s => (.ok (), { s with looped := true })

/-- Runs `m` for a new function and tells whether its loop is used. The note about the function
around it is kept. -/
def inFunction (m : Lower α) : Lower (α × Bool) := fun s =>
  match m { s with looped := false } with
  | (.ok a, t) => (.ok (a, t.looped), { t with looped := s.looped })
  | (.error e, t) => (.error e, { t with looped := s.looped })

/-- The parameter of the innermost handler. -/
def caught? : Lower (Option String) := read (·.caught.head?)

/-- Runs `m` inside a handler: the parameter is pushed, and the innermost one is popped after `m`,
also if `m` fails. -/
def inHandler (param : String) (m : Lower α) : Lower α := fun s =>
  let (r, t) := m { s with caught := param :: s.caught }
  (r, { t with caught := t.caught.tail })

/-- Runs `m` in the scope of a declaration that uses `used`. -/
def inDeclaration (used : List String) (m : Lower α) : Lower α := fun s =>
  let (parent, names) := s.names.enter used
  let (r, t) := m { s with names }
  (r, { t with names := t.names.leave parent })

end Lower

end TypedLowering
