import TypedLowering.Dart.Tree
import TypedLowering.Proofs.Control.Placement

/-!
# The control flow of Dart statements

Expressions, declarations and functions are leaves. A header is its statement without bodies. A case
of a Dart switch does not go on with the next one, so each case ends with a break of the switch.
-/

namespace TypedLowering.Dart

open Control (Flow Case)

/-- A handler without its body. -/
def handlerHead : Option CatchClause → Option CatchClause
  | none => none
  | some ⟨param, _⟩ => some ⟨param, []⟩

mutual

/-- The control flow of a statement. -/
def Stmt.flow : Stmt → Flow Stmt Expr
  | .expr expr => .step (.expr expr)
  | .ret value => .ret (.ret value)
  | .declare id kind value => .step (.declare id kind value)
  | .assign target value => .step (.assign target value)
  | .ifElse guard thenBody elseBody => .choose guard (flows thenBody) (flows elseBody)
  | .whileLoop guard body => .loop (.whileLoop guard []) (flows body)
  | .forLoop id start limit isUp body => .loop (.forLoop id start limit isUp []) (flows body)
  | .switch value cases default => .switch value (caseFlows cases ++ defaultFlows default)
  | .tryCatch body handler finalizer =>
    .protect (.tryCatch [] (handlerHead handler) none) (flows body) (handlerFlows handler)
      (finalizerFlows finalizer)
  | .throw error => .raise (.throw error)
  | .rethrow => .raise .rethrow
  | .breakTo label => .breakTo label
  | .continueTo label => .continueTo label
  | .labeled label body => .labeled label body.flow
  | .function func => .step (.function func)

/-- The control flow of a statement list. -/
def flows : List Stmt → List (Flow Stmt Expr)
  | [] => []
  | stmt :: stmts => stmt.flow :: flows stmts

/-- The flows of the handler of a `try` statement. -/
def handlerFlows : Option CatchClause → Option (List (Flow Stmt Expr))
  | none => none
  | some ⟨_, body⟩ => some (flows body)

/-- The flows of the final block of a `try` statement. -/
def finalizerFlows : Option (List Stmt) → Option (List (Flow Stmt Expr))
  | none => none
  | some stmts => some (flows stmts)

/-- The cases of a `switch`, each with a break at its end. -/
def caseFlows : List SwitchCase → List (Case Stmt Expr)
  | [] => []
  | ⟨guards, body⟩ :: cases => ⟨some guards, flows body ++ [.breakTo none]⟩ :: caseFlows cases

/-- The default case stands last. -/
def defaultFlows : Option (List Stmt) → List (Case Stmt Expr)
  | none => []
  | some body => [⟨none, flows body ++ [.breakTo none]⟩]

end

@[simp] theorem flows_nil : flows [] = [] := rfl

@[simp] theorem flows_cons (stmt : Stmt) (stmts : List Stmt) :
    flows (stmt :: stmts) = stmt.flow :: flows stmts := rfl

@[simp] theorem flows_append (as bs : List Stmt) : flows (as ++ bs) = flows as ++ flows bs := by
  induction as with
  | nil => rfl
  | cons a as ih => rw [List.cons_append, flows_cons, flows_cons, ih, List.cons_append]

theorem flows_eq_map (stmts : List Stmt) : flows stmts = stmts.map (·.flow) := by
  induction stmts with
  | nil => rfl
  | cons stmt stmts ih => rw [flows_cons, ih, List.map_cons]

theorem caseFlows_eq_map (cases : List SwitchCase) :
    caseFlows cases = cases.map fun c => ⟨some c.guards, flows c.body ++ [.breakTo none]⟩ := by
  induction cases with
  | nil => rfl
  | cons c cases ih =>
    obtain ⟨guards, body⟩ := c
    rw [caseFlows, ih, List.map_cons]

/-!
## Declarations

What a statement declares belongs to the block that it stands in, the counter of a loop to the loop,
and what a handler catches to the handler.
-/

/-- The variables and functions that a statement declares in its block. -/
def Stmt.introduced : Stmt → List String
  | .declare id _ _ => [id.name]
  | .function func => [func.name]
  | .labeled _ body => body.introduced
  | _ => []

/-- What the statements of a block declare. -/
def introduced (stmts : List Stmt) : List String :=
  stmts.flatMap Stmt.introduced

/-- What is declared by the statements, loops and handlers that code belongs to. -/
def scoping : Control.Scoping Stmt where
  declares := Stmt.introduced
  binds
    | .forLoop id _ _ _ _ => [id.name]
    | .tryCatch _ handler _ => handler.toList.map (·.param.name)
    | _ => []

/-!
## Stores of integers

A machine for statements that keep integers in variables. Assignments and declarations change the
store, a switch compares integers, and guards may come out either way.
-/

/-- The integer of each variable that has one. -/
abbrev Store := String → Option Int

namespace Store

/-- The store with another value for one variable. -/
def put (a : Store) (name : String) (value : Option Int) : Store :=
  fun x => if x = name then value else a x

/-- The integer that an expression is, if it is a constant or a variable. -/
def value (a : Store) : Expr → Option Int
  | .literal (.integer i) => some i
  | .ident ⟨name, _, none⟩ => a name
  | _ => none

/-- The store after an assignment or a declaration. Nothing else changes it. -/
def after (a : Store) : Stmt → Store
  | .assign (.ident ⟨name, _, none⟩) e => a.put name (a.value e)
  | .declare id _ (some e) => a.put id.name (a.value e)
  | _ => a

/-- Whether a test of a case is the integer of the subject. -/
def passes (a : Store) (subject : Expr) : Option (List Expr) → Bool
  | some [test] => a.value test = a.value subject
  | _ => false

/-- The machine with a store for each block. -/
def blockMachine : Control.Machine (Control.Depths × Stmt) (Control.Depths × Expr) where
  State := Control.BlockStore (Option Int)
  step code a ok b := ok = true ∧ b = a.update code.1 (after (a.seen code.1) code.2)
  test _ a r b := r.isSome ∧ b = a
  start _ a ok b := ok = true ∧ b = a
  next _ a r b := r.isSome ∧ b = a
  pick subject tests a r b := b = a ∧
    r = some (tests.findIdx? fun t => passes (a.seen subject.1) subject.2 (t.map (·.map (·.2))))
  catches _ a b := b = a
  pick_tests h := Control.exists_of_findIdx? rfl (Option.some.inj h.2).symm

end Store

end TypedLowering.Dart
