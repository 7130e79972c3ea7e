import TypedLowering.Proofs.Control.World
import TypedLowering.Proofs.JavaScript.StatementOrder
import TypedLowering.Proofs.ReturnDiscipline

/-!
# JavaScript evaluates children in order

Lowered code evaluates the children of each node in their order, and as often as the node is to
evaluate them, in expression position as well as with any strategy (`children_evaluatedInOrder`). A
few nodes do so only if some of their children have no effects: the limit of a counting loop comes
before its start, so a loop whose bounds both have effects is evaluated out of order
(`limitFirst_fails`).
-/

namespace TypedLowering

open Control

/-- Wherever a node is lowered in JavaScript, its children are evaluated in their order, in every
world that overlooks the names that lowering makes up. -/
theorem children_evaluatedInOrder (W : World) (n : Nat) (ctx : Context) (e : Ir.Expr)
    (s t : LowerState) (h : JavaScript.Suits W ctx e s) :
    e.evaluated.Sublist e.children ∧
    (∀ code, (JavaScript.rules n).expr ctx e s = (.ok code, t) →
      JavaScript.Evaluates W ctx.file ctx.targets .plain e (code.run W)) ∧
    ∀ strategy stmts, JavaScript.SilentPlace W strategy →
      (JavaScript.rules n).stmts ctx strategy e s = (.ok stmts, t) →
      JavaScript.Evaluates W ctx.file ctx.targets (JavaScript.delivery W ctx strategy) e
        (JavaScript.runStmts W stmts) :=
  ⟨e.evaluated_sublist, fun _ hcode => (JavaScript.rules_keepOrder W n).expr h hcode,
    fun _ _ hplace hstmts => (JavaScript.rules_keepOrder W n).stmts h hplace hstmts⟩

/-! ## An assignment in order -/

/-- Nothing is noticed of the names that lowering makes up for a file without declarations, if they
are not watched. -/
theorem unnoticed_of_bare {watched : List String} (h : ∀ x ∈ builtins, x ∉ watched) :
    JavaScript.Unnoticed (.trace watched) (.ofFile bareFile) where
  builtins x hx := World.trace_overlooks (h x hx)
  classes _ _ := by rintro ⟨⟩
  inlines := List.forall_mem_nil _
  targets := List.forall_mem_nil _
  loop _ := by rintro ⟨⟩

theorem open_start {watched names : List String} (h : ∀ x ∈ watched, x ∈ names) :
    Open (World.trace watched).Hides (.start .empty names []) where
  free x hx :=
    have hfree : x ∉ watched := fun hmem => hx (.inl (Scopes.mem_union.2 (.inr (h x hmem))))
    ⟨World.trace_overlooks hfree, trivial⟩
  aliases := List.forall_mem_nil _
  caught := List.forall_mem_nil _

/-- The assignment `f(x).flag <- (x = y)`. -/
def fieldUpdate : Ir.Expr :=
  .set (.call (.ident (flag "f")) none [.ident (flag "x")] false .boolean none) (some "flag")
    (.binary .equal (.ident (flag "x")) (.ident (flag "y")) .boolean none) none

/-- The names of the assignment. -/
def fieldUpdateNames : List String := ["f", "x", "y"]

/-- The state in which these names are in use. -/
def fieldUpdateState : LowerState := .start .empty fieldUpdateNames []

theorem orderly_ident {W : World} {arities : List Nat} (id : Ir.Ident) :
    (Ir.Expr.ident id).Orderly W arities :=
  .node trivial (by rintro _ _ _ ⟨⟩) (List.forall_mem_nil _)

theorem fieldUpdate_suits :
    JavaScript.Suits (.trace fieldUpdateNames) (.ofFile bareFile) fieldUpdate fieldUpdateState := by
  have hids : ∀ ids : List Ir.Ident, ∀ p ∈ ids.map fun id => (([] : List Nat), Ir.Expr.ident id),
      p.2.Orderly (World.trace fieldUpdateNames) p.1 :=
    fun ids => List.forall_mem_map.2 fun id _ => orderly_ident id
  have hplain : ∀ c ∈ [Ir.Expr.ident (flag "x"), .ident (flag "y")], c.IsPlain :=
    List.forall_mem_cons.2 ⟨Ir.Expr.isPlain_ident _,
      List.forall_mem_singleton.2 (Ir.Expr.isPlain_ident _)⟩
  have hobject : (Ir.Expr.call (.ident (flag "f")) none [.ident (flag "x")] false .boolean
      none).Orderly (World.trace fieldUpdateNames) [] :=
    .node (.inr (.inr (.inl (by decide)))) (by rintro _ _ _ ⟨⟩) (hids [flag "f", flag "x"])
  have hvalue : (Ir.Expr.binary .equal (.ident (flag "x")) (.ident (flag "y")) .boolean
      none).Orderly (World.trace fieldUpdateNames) [] :=
    .node trivial (by rintro _ _ _ ⟨⟩) (hids [flag "x", flag "y"])
  refine ⟨unnoticed_of_bare (by decide), .node (.inr ⟨?_, rfl⟩) (by rintro _ _ _ ⟨⟩) ?_,
    open_start fun _ hx => hx⟩
  · exact Ir.Expr.isPlain_iff.2 ⟨⟨by rintro _ _ ⟨⟩, by rintro _ _ _ ⟨⟩⟩, hplain⟩
  · exact List.forall_mem_cons.2 ⟨hobject, List.forall_mem_singleton.2 hvalue⟩

/-- The statement `f(x).flag = x === y`. -/
def fieldUpdateStmts : List JavaScript.Stmt :=
  [.expr (.assign (.member (.call (.ident "f") [.ident "x"]) "flag")
    (.binary .strictEquality (.ident "x") (.ident "y")))]

/-- The assignment is lowered, and its operands are evaluated in order. -/
theorem fieldUpdate_inOrder :
    ∃ t, (JavaScript.rules 8).stmts (.ofFile bareFile) .effect fieldUpdate fieldUpdateState =
        (.ok fieldUpdateStmts, t) ∧
      JavaScript.Suits (.trace fieldUpdateNames) (.ofFile bareFile) fieldUpdate fieldUpdateState ∧
      JavaScript.Evaluates (.trace fieldUpdateNames) bareFile [] .plain fieldUpdate
        (JavaScript.runStmts (.trace fieldUpdateNames) fieldUpdateStmts) ∧
      JavaScript.runStmts (.trace fieldUpdateNames) fieldUpdateStmts = World.notes fieldUpdateNames
        [.read "f", .read "x", .call, .read "x", .read "y", .store (some "flag")] := by
  obtain ⟨t, h⟩ : ∃ t, (JavaScript.rules 8).stmts (.ofFile bareFile) .effect fieldUpdate
    fieldUpdateState = (.ok fieldUpdateStmts, t) := ⟨_, rfl⟩
  obtain ⟨-, -, hstmts⟩ := children_evaluatedInOrder (.trace fieldUpdateNames) 8 (.ofFile bareFile)
    fieldUpdate fieldUpdateState t fieldUpdate_suits
  refine ⟨t, h, fieldUpdate_suits, hstmts .effect _ trivial h, ?_⟩
  have hstore : World.does (.trace fieldUpdateNames) (.store (some "flag")) =
      World.notes fieldUpdateNames [.store (some "flag")] := World.trace_does_of_isNoted rfl
  have hcall : (JavaScript.Expr.ident "f").isFunction = false := rfl
  simp (disch := decide) only [fieldUpdateStmts, JavaScript.runStmts_singleton,
    JavaScript.run_expr, JavaScript.run_assign, JavaScript.locate_member, JavaScript.store_member,
    JavaScript.run_call (.inl hcall), JavaScript.run_binary, JavaScript.run_ident, List.map_cons,
    List.map_nil, Runs.all_cons, Runs.all_nil, Runs.seq_exit_normal, hstore, World.trace_read,
    World.trace_call, World.notes_seq_notes]
  rfl

/-! ## A loop out of order -/

section
variable {W : World} {file : SourceFile} {ts : List Ir.Target} {k : JavaScript.Delivery W.State}
  {e : Ir.Expr} {p : Runs W.State}

/-- A strict node that is not expanded evaluates its children, if nothing is done with its value. -/
theorem strict_inv (h : JavaScript.Evaluates W file ts k e p) (hvalue : k.value = .exit .normal)
    (hloop : k.loop = none) (he : e.isStrict = true)
    (hexpands : ∀ callee args isNew ty loc expanded s t, e = .call callee none args isNew ty loc →
      expandInline file callee args s ≠ (.ok (some expanded), t)) :
    ∃ ps, JavaScript.EvaluatesAll W file ts e.evaluated ps ∧ p = JavaScript.combine W e ps := by
  induction h with
  | strict _ hlen hs => exact ⟨_, ⟨hlen, hs⟩, rfl⟩
  | delivered _ ih =>
    rw [hvalue, Runs.seq_exit_normal]
    exact ih rfl rfl he hexpands
  | expanded hexpanded => exact absurd hexpanded (hexpands _ _ _ _ _ _ _ _ rfl)
  | selfCall hself =>
    rw [hloop] at hself
    cases hself
  | _ => cases he

/-- The bounds of a counting loop are evaluated before the iterations, if nothing is done after it.
-/
theorem forLoop_inv {id : Ir.Ident} {start limit body : Ir.Expr} {isUp : Bool}
    {loc : Option Ir.Location}
    (h : JavaScript.Evaluates W file ts k (.forLoop id start limit body isUp loc) p)
    (hvalue : k.value = .exit .normal) (hunit : k.unit = .exit .normal) :
    ∃ q r b, JavaScript.Evaluates W file ts .plain start q ∧
      JavaScript.Evaluates W file ts .plain limit r ∧ JavaScript.Evaluates W file ts .plain body b ∧
      p = .seq q (.seq r (JavaScript.iterations W (.exit .normal) b)) := by
  generalize he : Ir.Expr.forLoop id start limit body isUp loc = e at h
  induction h with
  | strict hstrict =>
    subst he
    cases hstrict
  | delivered _ ih =>
    rw [hvalue, Runs.seq_exit_normal]
    exact ih rfl rfl he
  | forLoop hstart hlimit hbody =>
    cases he
    rw [hunit, Runs.seq_exit_normal]
    exact ⟨_, _, _, hstart, hlimit, hbody, rfl⟩
  | _ => cases he

theorem ident_inv {id : Ir.Ident} (hid : id.isThis = false)
    (h : JavaScript.Evaluates W file ts .plain (.ident id) p) : p = W.does (.read id.name) := by
  obtain ⟨_, -, rfl⟩ := strict_inv h rfl rfl rfl (by rintro _ _ _ _ _ _ _ _ ⟨⟩)
  rw [JavaScript.combine, if_neg (ne_true_of_eq_false hid)]

/-- Nobody notices that variables are evaluated that are not watched. -/
theorem all_overlooked (ids : List Ir.Ident) {ps : List (Runs W.State)}
    (hids : ∀ id ∈ ids, id.isThis = false ∧ W.Overlooks id.name)
    (h : JavaScript.EvaluatesAll W file ts (ids.map .ident) ps) : Runs.all ps = .exit .normal := by
  induction ids generalizing ps with
  | nil =>
    obtain rfl := List.eq_nil_of_length_eq_zero h.1
    exact Runs.all_nil
  | cons id ids ih =>
    obtain ⟨hid, hids⟩ := List.forall_mem_cons.1 hids
    obtain ⟨p, rest, rfl, hp, hrest⟩ := h.cons_inv
    rw [Runs.all_cons, ih hids hrest, ident_inv hid.1 hp, World.does_of_ignores hid.2.read,
      Runs.seq_exit_normal]

end

section
variable {watched : List String}

/-- A call with variables that are not watched reads the callee and calls. -/
theorem call_inv (callee : Ir.Ident) (args : List Ir.Ident) {file : SourceFile} {ty : Ir.Ty}
    {loc : Option Ir.Location} {p : Runs (World.trace watched).State}
    (hcallee : callee.isThis = false ∧ callee.name ∈ watched)
    (hargs : ∀ id ∈ args, id.isThis = false ∧ id.name ∉ watched)
    (h : JavaScript.Evaluates (.trace watched) file [] .plain
      (.call (.ident callee) none (args.map .ident) false ty loc) p) :
    p = World.notes watched [.read callee.name, .call] := by
  obtain ⟨_, hps, rfl⟩ := strict_inv h rfl rfl rfl (by rintro _ _ _ _ _ _ _ _ ⟨⟩ ⟨⟩)
  obtain ⟨_, rest, rfl, hp, hrest⟩ := hps.cons_inv
  have hrest := all_overlooked args
    (fun id hid => ⟨(hargs id hid).1, World.trace_overlooks (hargs id hid).2⟩) hrest
  obtain rfl := ident_inv hcallee.1 hp
  rw [JavaScript.combine, Runs.all_cons, hrest, Runs.seq_exit_normal, if_neg Bool.false_ne_true,
    World.trace_read hcallee.2, World.trace_call, World.notes_seq_notes]
  rfl

/-- The same for the code of a call. -/
theorem call_run {x : String} (args : List String) (hx : x ∈ watched)
    (hargs : ∀ y ∈ args, y ∉ watched) :
    (JavaScript.Expr.call (.ident x) (args.map .ident)).run (.trace watched) =
      World.notes watched [.read x, .call] := by
  have hcallee : (JavaScript.Expr.ident x).isFunction = false := rfl
  have hsilent : Runs.all ((args.map JavaScript.Expr.ident).map (·.run (.trace watched))) =
      .exit .normal := by
    induction args with
    | nil => rfl
    | cons y ys ih =>
      obtain ⟨hy, hys⟩ := List.forall_mem_cons.1 hargs
      rw [List.map_cons, List.map_cons, Runs.all_cons, ih hys,
        JavaScript.run_ident_of_overlooks (World.trace_overlooks hy), Runs.seq_exit_normal]
  rw [JavaScript.run_call (.inl hcallee), hsilent, Runs.exit_normal_seq, JavaScript.run_ident,
    World.trace_read hx, World.trace_call, World.notes_seq_notes]
  rfl

/-- The iterations of events only add to what happened. -/
theorem prefix_of_iterations {events a b : List Event} {x : Exit}
    (h : JavaScript.iterations (.trace watched) (.exit .normal) (World.notes watched events)
      a x b) : a <+: b := by
  induction h with
  | raised hnext => cases hnext.1
  | done hnext =>
    obtain ⟨_, ⟨-, rfl⟩, rfl⟩ := hnext
    exact List.prefix_rfl
  | again hnext hrun _ _ ih =>
    obtain ⟨_, ⟨-, rfl⟩, rfl⟩ := hnext
    obtain ⟨-, rfl⟩ := hrun
    exact (List.prefix_append _ _).trans ih
  | left hnext hrun _ =>
    obtain ⟨_, ⟨-, rfl⟩, rfl⟩ := hnext
    obtain ⟨-, rfl⟩ := hrun
    exact List.prefix_append _ _

end

/-- A local of integer type. -/
def counter (name : String) : Ir.Ident := { flag name with ty := .number .int32 }

/-- The loop `for i = f() to g() do f(i)`. -/
def boundedLoop : Ir.Expr :=
  .forLoop (counter "i") (.call (.ident (counter "f")) none [] false (.number .int32) none)
    (.call (.ident (counter "g")) none [] false (.number .int32) none)
    (.call (.ident (counter "f")) none [.ident (counter "i")] false .unit none) true none

/-- The state in which the names of the loop are in use. -/
def boundedLoopState : LowerState := .start .empty ["f", "g", "i"] []

/-- The functions that the loop calls. -/
def boundedLoopNames : List String := ["f", "g"]

/-- The statement `for (let i = f(); i <= limit; i += 1) f(i)`. -/
def loopToLimit : JavaScript.Stmt :=
  .of (.forLoop (some ⟨.let, [⟨"i", some (.call (.ident "f") [])⟩]⟩)
    (some (.binary .lessOrEqual (.ident "i") (.ident "limit")))
    (some (.binary .additionAssignment (.ident "i") (.number 1)))
    [.expr (.call (.ident "f") [.ident "i"])])

/-- The same after `const limit = g()`. -/
def boundedLoopStmts : List JavaScript.Stmt :=
  [.declare .const "limit" (some (.call (.ident "g") [])), loopToLimit]

theorem boundedLoop_run : JavaScript.runStmts (.trace boundedLoopNames) boundedLoopStmts =
    .seq (World.notes boundedLoopNames [.read "g", .call, .read "f", .call])
      (JavaScript.iterations (.trace boundedLoopNames) (.exit .normal)
        (World.notes boundedLoopNames [.read "f", .call])) := by
  have hi : (World.trace boundedLoopNames).Overlooks (counter "i").name :=
    World.trace_overlooks (by decide)
  have hlimit : (World.trace boundedLoopNames).Overlooks "limit" :=
    World.trace_overlooks (by decide)
  have hbody : JavaScript.runStmts (.trace boundedLoopNames)
      [.expr (.call (.ident "f") [.ident "i"])] =
      World.notes boundedLoopNames [.read "f", .call] := by
    rw [JavaScript.runStmts_singleton, JavaScript.run_expr]
    exact call_run ["i"] (by decide) (by decide)
  have hends : (World.notes boundedLoopNames [.read "f", .call]).Ends Exit.IsPlain :=
    fun _ _ _ hrun => .inl hrun.1
  have hloop : loopToLimit.run (.trace boundedLoopNames) [] = .seq _ _ :=
    JavaScript.forLoop_run hi (JavaScript.run_ident_of_overlooks hlimit) (.inl rfl) (.inl rfl)
      (hbody ▸ hends)
  have hcall : ∀ x ∈ boundedLoopNames, (JavaScript.Expr.call (.ident x) []).run
      (.trace boundedLoopNames) = World.notes boundedLoopNames [.read x, .call] :=
    fun x hx => call_run [] hx (List.forall_mem_nil _)
  rw [boundedLoopStmts, JavaScript.runStmts_cons, JavaScript.runStmts_singleton,
    JavaScript.run_declare, World.does_of_ignores hlimit.write, Runs.seq_exit_normal, hloop,
    hcall "g" (by decide), hcall "f" (by decide), hbody, ← Runs.seq_assoc, World.notes_seq_notes]
  rfl

/-- The limit of the loop is evaluated before its start. -/
theorem limitFirst_fails :
    (∃ t, (JavaScript.rules 8).stmts (.ofFile bareFile) .effect boundedLoop boundedLoopState =
      (.ok boundedLoopStmts, t)) ∧
    JavaScript.Unnoticed (.trace boundedLoopNames) (.ofFile bareFile) ∧
    Open (World.trace boundedLoopNames).Hides boundedLoopState ∧
    ¬ JavaScript.Evaluates (.trace boundedLoopNames) bareFile []
      (JavaScript.delivery (.trace boundedLoopNames) (.ofFile bareFile) .effect) boundedLoop
      (JavaScript.runStmts (.trace boundedLoopNames) boundedLoopStmts) := by
  refine ⟨⟨_, rfl⟩, unnoticed_of_bare (by decide), open_start (by decide), fun h => ?_⟩
  obtain ⟨_, _, _, hstart, hlimit, hbody, hrun⟩ := forLoop_inv h rfl rfl
  obtain rfl := call_inv (counter "f") [] (by decide) (by decide) hstart
  obtain rfl := call_inv (counter "g") [] (by decide) (by decide) hlimit
  obtain rfl := call_inv (counter "f") [counter "i"] (by decide) (by decide) hbody
  rw [boundedLoop_run, ← Runs.seq_assoc, World.notes_seq_notes] at hrun
  -- The run without iterations tells what comes before them.
  have hdone : JavaScript.runStmts (.trace boundedLoopNames) boundedLoopStmts []
      .normal [.read "g", .call, .read "f", .call] := by
    rw [boundedLoop_run]
    exact .inr ⟨_, ⟨rfl, rfl⟩, .done ⟨_, ⟨rfl, rfl⟩, rfl⟩⟩
  rw [boundedLoop_run, hrun] at hdone
  rcases hdone with ⟨-, hne⟩ | ⟨_, ⟨-, rfl⟩, hiterations⟩
  · exact hne rfl
  · exact absurd (prefix_of_iterations hiterations) (by decide)

end TypedLowering
