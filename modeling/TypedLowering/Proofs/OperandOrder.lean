import TypedLowering.Proofs.Control.World
import TypedLowering.Proofs.Dart.OperandOrder
import TypedLowering.Proofs.ReturnDiscipline

/-!
# Dart evaluates operands in order

The statements that an operand needs run before the operands in front of it are evaluated, so these
are saved in locals when they are not trivial. Thus the operands of an operation are performed in
the order in which the node has them, as are the arguments of a call that is expanded
(`operands_inOrder`). The place of an assignment, the bounds of a loop and the arguments of a self
call are not saved, and are only performed in order if what overtakes them does not interfere with
them (`overtaken_place_fails`). -/

namespace TypedLowering

open Control

/-- Wherever a node is lowered in Dart, its operands are performed in the order of its children. -/
theorem operands_inOrder (n : Nat) (ctx : Context) (e : Ir.Expr) (s t : LowerState) :
    e.operands.Sublist e.children ∧
    (∀ hoists code, (Dart.rules (n + 1)).expr ctx hoists e s = (.ok code, t) →
      e.isOperation = true →
      Dart.PerformsOperands (Dart.rules n) ctx hoists e s code ∨
        ∃ callee args isNew ty loc expanded u, e = .call callee none args isNew ty loc ∧
          expandInline ctx.file callee args s = (.ok (some expanded), u) ∧
          Dart.BindsInOrder (Dart.rules n) ctx.withoutTailCall args s code.before) ∧
    ∀ strategy stmts, (Dart.rules (n + 1)).stmts ctx strategy e s = (.ok stmts, t) →
      Dart.RunsInOrder (Dart.rules n) ctx strategy e s stmts :=
  ⟨e.operands_sublist, fun _ _ h he => Dart.exprRule_performsOperands he h,
    fun _ _ h => Dart.stmtsRule_runsInOrder (Dart.rules_deepens (Nat.le_refl n)) h⟩

/-! ## An operand that is saved -/

/-- A mutable local of Boolean type. -/
def mutableFlag (name : String) : Ir.Ident := { flag name with isMutable := true }

/-- The sequence `z <- w; z`, which needs statements. -/
def updatedFlag : Ir.Expr :=
  .sequence [.set (.ident (mutableFlag "z")) none (.ident (flag "w")) none,
    .ident (mutableFlag "z")]

/-- The call `h (x = y) (z <- w; z)`. -/
def savedCall : Ir.Expr :=
  .call (.ident (flag "h")) none
    [.binary .equal (.ident (flag "x")) (.ident (flag "y")) .boolean none, updatedFlag] false
    .boolean none

/-- The state in which the names of the call are in use. -/
def savedState : LowerState := .start .empty ["h", "x", "y", "z", "w"] []

/-- The variables of the call that are watched. -/
def savedNames : List String := ["x", "y", "z", "w"]

theorem savedNames_taken : ∀ x ∈ savedNames, savedState.names.IsTaken x :=
  fun _ hx => .inl (Scopes.mem_union.2 (.inr (List.mem_cons_of_mem _ hx)))

/-- What is given for the operands of the call. -/
theorem savedCall_gives {xs : List (Dart.Hoisted Dart.Expr)}
    (h : List.Forall₂ ((Dart.rules 7).Gives (.ofFile bareFile) true savedState) savedCall.operands
      xs) :
    ∃ tmp, ¬ savedState.names.IsTaken tmp ∧
      xs = [⟨[], .ident (.own "h" .boolean)⟩,
        ⟨[], .binary .equal (.ident (.own "x" .boolean)) (.ident (.own "y" .boolean))⟩,
        ⟨[.declare (.own tmp .boolean) .var none,
          .assign (.ident (.own "z" .boolean)) (.ident (.own "w" .boolean)),
          .assign (.ident (.own tmp .boolean)) (.ident (.own "z" .boolean))],
          .ident (.own tmp .boolean)⟩] := by
  obtain ⟨_, _, ⟨_, _, -, h₁⟩, htail, rfl⟩ := List.forall₂_cons_left_iff.1 h
  obtain ⟨_, _, ⟨_, _, -, h₂⟩, hlast, rfl⟩ := List.forall₂_cons_left_iff.1 htail
  obtain ⟨_, _, ⟨u, _, hu, h₃⟩, hnil, rfl⟩ := List.forall₂_cons_left_iff.1 hlast
  obtain rfl := List.forall₂_nil_left_iff.1 hnil
  obtain rfl := Except.ok.inj (congrArg Prod.fst h₁)
  obtain rfl := Except.ok.inj (congrArg Prod.fst h₂)
  obtain rfl := Except.ok.inj (congrArg Prod.fst h₃)
  exact ⟨_, mt (hu.taken _) (u.names.allocateLocal_not_isTaken "tmp"), rfl⟩

/-- The call is lowered, and its operands are performed in order. -/
theorem savedCall_inOrder :
    ∃ code t, (Dart.rules 8).expr (.ofFile bareFile) true savedCall savedState = (.ok code, t) ∧
      savedCall.isOperation = true ∧
      Runs.seq (Dart.runStmts (.trace savedNames) code.before)
          (code.value.run (.trace savedNames)) =
        World.notes savedNames
          [.read "x", .read "y", .read "w", .write "z", .read "z", .call] := by
  obtain ⟨code, t, h⟩ : ∃ code t,
    (Dart.rules 8).expr (.ofFile bareFile) true savedCall savedState = (.ok code, t) := ⟨_, _, rfl⟩
  refine ⟨code, t, h, rfl, ?_⟩
  obtain ⟨-, hexpr, -⟩ := operands_inOrder 7 (.ofFile bareFile) savedCall savedState t
  obtain ⟨values, xs, hxs, hvalue, hrun⟩ | ⟨_, _, _, _, _, _, _, he, hinline, -⟩ :=
    hexpr true code h rfl
  · obtain ⟨tmp, htmp, rfl⟩ := savedCall_gives hxs
    have hW := World.trace_overlooksFree savedNames_taken
    have hh : (World.trace savedNames).Overlooks "h" := World.trace_overlooks (by decide)
    have hcall : code.value.run (.trace savedNames) =
        .seq (.all (values.map (·.run _))) (World.does _ .call) := hvalue _ nofun
    have hundisturbed := hrun _ hW
      ⟨fun _ => Dart.run_own hh ▸ Dart.outlasts_exit_normal _, nofun, fun _ => trivial, trivial⟩
    have htmp := hW tmp htmp
    have hwrite := World.does_of_ignores htmp.write
    rw [hcall, ← Runs.seq_assoc, hundisturbed]
    simp (disch := decide) only [Dart.performAll_cons, Dart.performAll_nil, Dart.Hoisted.perform,
      Dart.run_own hh, Dart.run_own htmp, Dart.runStmts_cons, Dart.runStmts_nil, Dart.Stmt.run,
      Dart.run_binary, Dart.Expr.locate, Dart.run_ident_own, Dart.store_ident_own, hwrite,
      World.trace_read, World.trace_write, World.trace_call, World.exit_normal_eq_notes,
      World.notes_seq_notes]
    rfl
  · cases he
    cases hinline

/-! ## A place that is overtaken -/

/-- The assignment `f().[z <- w; z] <- x`. -/
def overtakenSet : Ir.Expr :=
  .setIndex (.call (.ident (flag "f")) none [] false (.array .boolean) none) updatedFlag
    (.ident (flag "x")) none

/-- The state in which the names of the assignment are in use. -/
def overtakenSetState : LowerState := .start .empty ["f", "x", "z", "w"] []

/-- The names of the assignment. -/
def overtakenNames : List String := ["f", "x", "z", "w"]

theorem overtakenNames_taken : ∀ x ∈ overtakenNames, overtakenSetState.names.IsTaken x :=
  fun _ hx => .inl (Scopes.mem_union.2 (.inr hx))

/-- The update that the index needs. -/
def updateStmts : List Dart.Stmt :=
  [.declare (.own "tmp" .boolean) .var none,
    .assign (.ident (.own "z" .boolean)) (.ident (.own "w" .boolean)),
    .assign (.ident (.own "tmp" .boolean)) (.ident (.own "z" .boolean))]

/-- The operands of the assignment. -/
def overtakenOperands : List (Dart.Hoisted Dart.Expr) :=
  [⟨[], .callWith (.ident (.own "f" .boolean)) []⟩, ⟨updateStmts, .ident (.own "tmp" .boolean)⟩,
    ⟨[], .ident (.own "x" .boolean)⟩]

/-- The statements that the assignment is lowered to: those of the index come first. -/
def overtakenStmts : List Dart.Stmt :=
  updateStmts ++ [.assign (.index (.callWith (.ident (.own "f" .boolean)) [])
    (.ident (.own "tmp" .boolean))) (.ident (.own "x" .boolean))]

/-- The statements of the index run before the object of the assignment is evaluated, which has
effects. -/
theorem overtaken_place_fails :
    (∃ t, (Dart.rules 8).stmts (.ofFile bareFile) .effect overtakenSet overtakenSetState =
      (.ok overtakenStmts, t)) ∧
    List.Forall₂ ((Dart.rules 7).Gives (.ofFile bareFile) true overtakenSetState)
      overtakenSet.operands overtakenOperands ∧
    ∃ W : World, W.OverlooksFree overtakenSetState.names ∧
      Dart.runStmts W overtakenStmts ≠
        .seq (Dart.performAll W overtakenOperands) (W.does (.store none)) := by
  refine ⟨⟨_, rfl⟩, .cons ⟨_, _, .refl _, rfl⟩ (.cons ⟨_, _, .refl _, rfl⟩
    (.cons ⟨_, _, .refl _, rfl⟩ .nil)), .trace overtakenNames,
    World.trace_overlooksFree overtakenNames_taken, fun h => ?_⟩
  have htmp : (World.trace overtakenNames).Overlooks "tmp" := World.trace_overlooks (by decide)
  have hwrite := World.does_of_ignores htmp.write
  have hstore : World.does (.trace overtakenNames) (.store none) =
      World.notes overtakenNames [.store none] := World.trace_does_of_isNoted rfl
  simp (disch := decide) only [overtakenStmts, overtakenOperands, updateStmts, List.cons_append,
    List.nil_append, Dart.performAll_cons, Dart.performAll_nil, Dart.Hoisted.perform,
    Dart.run_own htmp, Dart.runStmts_cons, Dart.runStmts_nil, Dart.Stmt.run, Dart.run_callWith,
    List.map_nil, Runs.all_nil, Dart.Expr.locate, Dart.store_index, Dart.run_ident_own,
    Dart.store_ident_own, hwrite, hstore, World.trace_read, World.trace_write, World.trace_call,
    World.exit_normal_eq_notes, World.notes_seq_notes] at h
  exact absurd (World.notes_injective h) (by decide)

end TypedLowering
