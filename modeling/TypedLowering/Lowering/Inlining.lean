import TypedLowering.Ir.Renaming
import TypedLowering.Lowering.State

/-!
# Expansion of inline functions

A call of an inline function is replaced by its body, with a `let` that binds each parameter to its
argument. The parameters get names that are new to the caller, so an argument that mentions a local
of the caller with the same name still means that local.
-/

namespace TypedLowering

open Ir (Expr Ident)

/-- Gives each parameter a name that is new to the current declaration. -/
def freshParams (names : Scopes) : List Ident → List Ident × Scopes
  | [] => ([], names)
  | p :: ps =>
    let (name, names) := names.allocateLocal p.name
    let (rest, names) := freshParams names ps
    ({ p with name } :: rest, names)

/-- The pairs of a parameter's name and its new name, where they differ. -/
def paramRenaming (params fresh : List Ident) : Ir.Renaming :=
  ((params.zip fresh).filter fun (p, q) => p.name != q.name).map fun (p, q) => (p.name, q.name)

/-- Binds the parameters to the arguments around `body`, the first one outermost. -/
def bindParams (params : List Ident) (args : List Expr) (body : Expr) : Expr :=
  (params.zip args).foldr (fun (p, arg) body => .letIn p arg body) body

/-- The expansion of a call, if its callee is an inline function that is ready and takes that many
arguments. Otherwise the call is left alone; a call that comes too early is warned of once, and a
wrong number of arguments is logged. -/
def expandInline (file : SourceFile) (callee : Expr) (args : List Expr) : Lower (Option Expr) :=
  fun s =>
    match callee.uncast with
    | .imported ref _ loc =>
      match file.settings.inline? ref.selector with
      | none => (.ok none, s)
      | some inline =>
        if file.settings.isPrecompiling ref.selector then
          let message := "Inline function " ++ ref.selector ++ " is called before it is precompiled"
          (.ok none, { s with journal := s.journal.warnOnce file.path message loc })
        else if inline.args.length ≠ args.length then
          let message := "Inline function " ++ ref.selector ++ " expects " ++
            toString inline.args.length ++ " arguments, got " ++ toString args.length
          (.ok none,
            { s with journal := s.journal.add ⟨.info, message, some "inline",
              some file.path, loc⟩ })
        else
          let (fresh, names) := freshParams s.names inline.args
          let body := inline.body.rename (paramRenaming inline.args fresh)
          (.ok (some (bindParams fresh args body)), { s with names })
    | _ => (.ok none, s)

end TypedLowering
