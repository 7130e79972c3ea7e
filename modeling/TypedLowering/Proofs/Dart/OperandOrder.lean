import TypedLowering.Proofs.Dart.Depth
import TypedLowering.Proofs.Dart.Evaluation
import TypedLowering.Proofs.Dart.Update
import TypedLowering.Proofs.Lowering.Outcome

/-!
# Operands in order

Operands are lowered from left to right, each to an expression with the statements that have to run
before it. The statements of all operands run first, so those of an operand overtake the operands in
front of it. These are saved in new locals, unless they are trivial. So all operands are performed
in order (`operands_run`) if no trivial one changes by being overtaken (`Undisturbed`).
-/

namespace TypedLowering.Dart

open Control Lower

/-- Performs an operand: the statements before it run, and it is evaluated. -/
def Hoisted.perform (W : World) (x : Hoisted Expr) : Runs W.State :=
  .seq (runStmts W x.before) (x.value.run W)

/-- Performs operands from left to right. -/
def performAll (W : World) (xs : List (Hoisted Expr)) : Runs W.State :=
  .all (xs.map (·.perform W))

/-- Whether code may as well come after all of the operands, up to the value of the last one that
needs statements. -/
def Outlasts (W : World) (p : Runs W.State) : List (Hoisted Expr) → Prop
  | [] => True
  | x :: xs => p.Commutes (runStmts W x.before) ∧
    ((∃ y ∈ xs, y.before ≠ []) → p.Commutes (x.value.run W)) ∧ Outlasts W p xs

/-- Whether it makes no difference that trivial operands are evaluated after the statements of the
operands behind them. -/
def Undisturbed (W : World) : List (Hoisted Expr) → Prop
  | [] => True
  | x :: xs => (x.value.isTrivial = true → Outlasts W (x.value.run W) xs) ∧ Undisturbed W xs

variable {W : World}

/-- No operands do nothing. -/
@[simp] theorem performAll_nil : performAll W [] = .exit .normal := rfl

/-- The first operand is performed before the others. -/
@[simp] theorem performAll_cons (x : Hoisted Expr) (xs : List (Hoisted Expr)) :
    performAll W (x :: xs) = .seq (x.perform W) (performAll W xs) := rfl

/-- What does nothing outlasts any operands. -/
theorem outlasts_exit_normal (xs : List (Hoisted Expr)) : Outlasts W (.exit .normal) xs := by
  induction xs with
  | nil => trivial
  | cons x xs ih =>
    exact ⟨(Runs.commutes_exit_normal _).symm, fun _ => (Runs.commutes_exit_normal _).symm, ih⟩

/-! ## Saved operands -/

/-- A variable that is not watched is evaluated without anyone noticing. -/
theorem run_own {x : String} {ty : Ty} (h : W.Overlooks x) :
    (Expr.ident (.own x ty)).run W = .exit .normal :=
  (run_ident_own x ty).trans (World.does_of_ignores h.read)

/-- The declaration of a name that the world overlooks only evaluates its value. -/
theorem run_declare {x : String} {ty : Ty} {kind : VarKind} {value : Expr} (h : W.Overlooks x) :
    (Stmt.declare (.own x ty) kind (some value)).run W [] = value.run W := by
  rw [Stmt.run]
  exact (congrArg _ (World.does_of_ignores h.write)).trans (Runs.seq_exit_normal _)

/-- A new local has a name that was not in use, and is in use afterwards. -/
theorem freshLocal_spec {file : SourceFile} {candidate : String} {ty : Ir.Ty} {id : Ident}
    {s t : LowerState} (h : freshLocal file candidate ty s = (.ok id, t)) :
    ∃ x ty', id = .own x ty' ∧ ¬ s.names.IsTaken x := by
  simp only [freshLocal, bind_eq_ok, pure_eq_ok] at h
  obtain ⟨x, _, hx, ty', _, -, rfl, -⟩ := h
  obtain rfl := Except.ok.inj (Prod.mk.inj hx).1
  exact ⟨_, ty', rfl, s.names.allocateLocal_not_isTaken candidate⟩

/-- What is not trivial is evaluated when it is saved, and the rest afterwards. That is the order of
the operands, if the trivial ones may be evaluated late. -/
theorem saveOperands_run {file : SourceFile} {done : List (Expr × Ir.Ty)}
    {saved : Hoisted (List (Expr × Ir.Ty))} {s t : LowerState}
    (h : saveOperands file done s = (.ok saved, t)) (hW : W.OverlooksFree s.names)
    (hdone : done.Pairwise fun d e =>
      d.1.isTrivial = true → (d.1.run W).Commutes (e.1.run W))
    {q : Runs W.State} (hq : ∀ d ∈ done, d.1.isTrivial = true → (d.1.run W).Commutes q) :
    Runs.seq (runStmts W saved.before) (.seq q (.all (saved.value.map (·.1.run W)))) =
      .seq (.all (done.map (·.1.run W))) q := by
  induction done generalizing saved s t q with
  | nil =>
    obtain ⟨rfl, -⟩ := pure_eq_ok.1 h
    rw [runStmts_nil, List.map_nil, Runs.all_nil, Runs.exit_normal_seq, Runs.seq_exit_normal,
      Runs.exit_normal_seq]
  | cons d done ih =>
    obtain ⟨value, ty⟩ := d
    obtain ⟨hd, hdone⟩ := List.pairwise_cons.1 hdone
    obtain ⟨hqd, hq⟩ := List.forall_mem_cons.1 hq
    rw [List.map_cons, Runs.all_cons]
    rw [saveOperands] at h
    split at h
    · rename_i htrivial
      simp only [bind_eq_ok, pure_eq_ok] at h
      obtain ⟨rest, _, hrest, rfl, -⟩ := h
      have hall : (value.run W).Commutes (.all (done.map (·.1.run W))) :=
        Runs.Commutes.all (List.forall_mem_map.2 fun e he => hd e he htrivial)
      -- The value goes behind `q`, and then in front of the others.
      have hseq := ih hrest hW hdone (q := .seq q (value.run W)) fun e he hetrivial =>
        (hq e he hetrivial).seq (hd e he htrivial).symm
      rw [List.map_cons, Runs.all_cons, ← Runs.seq_assoc q, hseq, ← hqd htrivial,
        ← Runs.seq_assoc, ← hall, Runs.seq_assoc]
    · simp only [bind_eq_ok, pure_eq_ok] at h
      obtain ⟨id, u, hid, rest, _, hrest, rfl, -⟩ := h
      obtain ⟨x, ty', rfl, hx⟩ := freshLocal_spec hid
      have hg : Grows s u := (below_freshLocal file "arg" ty).grows hid
      rw [runStmts_cons, run_declare (hW x hx), List.map_cons, Runs.all_cons, run_own (hW x hx),
        Runs.exit_normal_seq, Runs.seq_assoc, ih hrest (hW.grows hg) hdone hq, Runs.seq_assoc]

/-- Whether the second operand may stand for the first one from now on: it is the same, which is
trivial, or a local that is not watched. -/
def Saves (W : World) (d e : Expr × Ir.Ty) : Prop :=
  (e = d ∧ d.1.isTrivial = true) ∨ e.1.run W = .exit .normal

/-- Saved operands are trivial ones or locals, and saving them evaluates the others in order. -/
theorem saveOperands_spec {file : SourceFile} {done : List (Expr × Ir.Ty)}
    {saved : Hoisted (List (Expr × Ir.Ty))} {s t : LowerState}
    (h : saveOperands file done s = (.ok saved, t)) (hW : W.OverlooksFree s.names) :
    List.Forall₂ (Saves W) done saved.value := by
  induction done generalizing saved s t with
  | nil =>
    obtain ⟨rfl, -⟩ := pure_eq_ok.1 h
    exact .nil
  | cons d done ih =>
    obtain ⟨value, ty⟩ := d
    rw [saveOperands] at h
    split at h
    · rename_i htrivial
      simp only [bind_eq_ok, pure_eq_ok] at h
      obtain ⟨rest, _, hrest, rfl, -⟩ := h
      exact .cons (.inl ⟨rfl, htrivial⟩) (ih hrest hW)
    · simp only [bind_eq_ok, pure_eq_ok] at h
      obtain ⟨id, u, hid, rest, _, hrest, rfl, -⟩ := h
      obtain ⟨x, ty', rfl, hx⟩ := freshLocal_spec hid
      have hg : Grows s u := (below_freshLocal file "arg" ty).grows hid
      exact .cons (.inr (run_own (hW x hx))) (ih hrest (hW.grows hg))

/-- There are as many saved operands as operands. -/
theorem length_saveOperands {file : SourceFile} {done : List (Expr × Ir.Ty)}
    {saved : Hoisted (List (Expr × Ir.Ty))} {s t : LowerState}
    (h : saveOperands file done s = (.ok saved, t)) : saved.value.length = done.length := by
  induction done generalizing saved s t with
  | nil =>
    obtain ⟨rfl, -⟩ := pure_eq_ok.1 h
    rfl
  | cons d done ih =>
    obtain ⟨value, ty⟩ := d
    rw [saveOperands] at h
    split at h
    · simp only [bind_eq_ok, pure_eq_ok] at h
      obtain ⟨rest, _, hrest, rfl, -⟩ := h
      rw [List.length_cons, ih hrest, List.length_cons]
    · simp only [bind_eq_ok, pure_eq_ok] at h
      obtain ⟨id, u, -, rest, _, hrest, rfl, -⟩ := h
      rw [List.length_cons, ih hrest, List.length_cons]

/-- A saved operand is a trivial one of the operands, or is read without effects. -/
theorem exists_of_mem_saved {done saved : List (Expr × Ir.Ty)}
    (h : List.Forall₂ (Saves W) done saved) {e : Expr × Ir.Ty} (he : e ∈ saved) :
    (e ∈ done ∧ e.1.isTrivial = true) ∨ e.1.run W = .exit .normal := by
  induction h with
  | nil => cases he
  | cons hsave _ ih =>
    rcases List.mem_cons.1 he with rfl | he
    · rcases hsave with ⟨rfl, htrivial⟩ | hrun
      · exact .inl ⟨List.mem_cons_self, htrivial⟩
      · exact .inr hrun
    · exact (ih he).imp_left fun ⟨hmem, htrivial⟩ => ⟨List.mem_cons_of_mem _ hmem, htrivial⟩

/-- Saved operands commute where the trivial ones did. -/
theorem pairwise_saved {done saved : List (Expr × Ir.Ty)}
    (h : List.Forall₂ (Saves W) done saved)
    (hdone : done.Pairwise fun d e =>
      d.1.isTrivial = true → (d.1.run W).Commutes (e.1.run W)) :
    saved.Pairwise fun d e =>
      d.1.isTrivial = true → (d.1.run W).Commutes (e.1.run W) := by
  induction h with
  | nil => exact .nil
  | cons hsave hrest ih =>
    obtain ⟨hd, hdone⟩ := List.pairwise_cons.1 hdone
    refine .cons (fun e he _ => ?_) (ih hdone)
    rcases hsave with ⟨rfl, htrivial⟩ | hrun
    · rcases exists_of_mem_saved hrest he with ⟨hmem, -⟩ | hrun
      · exact hd e hmem htrivial
      · exact hrun ▸ Runs.commutes_exit_normal _
    · exact hrun ▸ (Runs.commutes_exit_normal _).symm

/-- Whether parts give an expression for a node, with the statements before it, in some state that
comes after `s`. -/
def Parts.Gives (r : Parts) (ctx : Context) (hoists : Bool) (s : LowerState) (e : Ir.Expr)
    (x : Hoisted Expr) : Prop :=
  ∃ u v, Grows s u ∧ r.expr ctx hoists e u = (.ok x, v)

variable {r : Parts} {ctx : Context} {hoists : Bool} {s t : LowerState}

/-- What a node is lowered to in a later state, it is lowered to after an earlier one. -/
theorem Parts.Gives.grows (hg : Grows s t) (e : Ir.Expr) (x : Hoisted Expr)
    (h : r.Gives ctx hoists t e x) : r.Gives ctx hoists s e x := by
  obtain ⟨u, v, hu, hx⟩ := h
  exact ⟨u, v, hg.trans hu, hx⟩

/-- The statements before all operands, and then the values, perform the operands in order. -/
theorem operandsAfter_run (hr : r.Deepens r) {done : List (Expr × Ir.Ty)} {es : List Ir.Expr}
    {code : Hoisted (List Expr)} (h : r.operandsAfter ctx hoists done es s = (.ok code, t)) :
    ∃ xs, List.Forall₂ (r.Gives ctx hoists s) es xs ∧
      ∀ W : World, W.OverlooksFree s.names → Undisturbed W xs →
        (∀ d ∈ done, d.1.isTrivial = true → Outlasts W (d.1.run W) xs) →
        ((∃ x ∈ xs, x.before ≠ []) → done.Pairwise fun d e =>
          d.1.isTrivial = true → (d.1.run W).Commutes (e.1.run W)) →
        Runs.seq (runStmts W code.before) (.all (code.value.map (·.run W))) =
          .seq (.all (done.map (·.1.run W))) (performAll W xs) := by
  induction es generalizing done s t code with
  | nil =>
    obtain ⟨rfl, -⟩ := pure_eq_ok.1 h
    refine ⟨[], .nil, fun W _ _ _ _ => ?_⟩
    rw [runStmts_nil, Runs.exit_normal_seq, performAll_nil, Runs.seq_exit_normal, List.map_map]
    rfl
  | cons e es ih =>
    simp only [Parts.operandsAfter, bind_eq_ok] at h
    obtain ⟨x, u, hx, h⟩ := h
    have hsu : Grows s u := (hr.expr ctx hoists e).grows hx
    split at h
    · rename_i hbefore
      simp only [bind_eq_ok, pure_eq_ok] at h
      obtain ⟨_, _, ⟨rfl, rfl⟩, rest, _, hrest, rfl, -⟩ := h
      obtain ⟨xs, hxs, hrun⟩ := ih hrest
      have hnil : x.before = [] := List.isEmpty_iff.1 hbefore
      refine ⟨x :: xs, .cons ⟨s, u, .refl s, hx⟩ (hxs.imp (Parts.Gives.grows hsu)),
        fun W hW hx hdone hpairwise => ?_⟩
      have hend := hrun W (hW.grows hsu) hx.2 ?_ ?_
      · rw [hnil, List.nil_append, List.nil_append, hend, List.map_append, Runs.all_append,
          Runs.seq_assoc, performAll_cons, Hoisted.perform, hnil, runStmts_nil,
          Runs.exit_normal_seq, List.map_singleton, Runs.all_cons, Runs.all_nil,
          Runs.seq_exit_normal]
      · intro d hd htrivial
        rcases List.mem_append.1 hd with hd | hd
        · exact (hdone d hd htrivial).2.2
        · obtain rfl := List.mem_singleton.1 hd
          exact hx.1 htrivial
      · intro hlater
        obtain ⟨y, hy, hne⟩ := hlater
        refine List.pairwise_append.2 ⟨hpairwise ⟨y, List.mem_cons_of_mem _ hy, hne⟩,
          List.pairwise_singleton _ _, fun d hd e he htrivial => ?_⟩
        obtain rfl := List.mem_singleton.1 he
        exact (hdone d hd htrivial).2.1 ⟨y, hy, hne⟩
    · rename_i hbefore
      have hne : x.before ≠ [] := fun hnil => hbefore (List.isEmpty_iff.2 hnil)
      simp only [bind_eq_ok, pure_eq_ok] at h
      obtain ⟨saved, v, hsaved, rest, _, hrest, rfl, -⟩ := h
      obtain ⟨xs, hxs, hrun⟩ := ih hrest
      have huv : Grows u v := (below_saveOperands ctx.file done).grows hsaved
      refine ⟨x :: xs, .cons ⟨s, u, .refl s, hx⟩ (hxs.imp (Parts.Gives.grows (hsu.trans huv))),
        fun W hW hx hdone hpairwise => ?_⟩
      have hsaves := saveOperands_spec hsaved (hW.grows hsu)
      have hpairwise := hpairwise ⟨x, List.mem_cons_self, hne⟩
      have hend := hrun W ((hW.grows hsu).grows huv) hx.2 ?_ ?_
      · have hsave := saveOperands_run hsaved (hW.grows hsu) hpairwise
          (q := runStmts W x.before) fun d hd htrivial => (hdone d hd htrivial).1
        rw [runStmts_append, runStmts_append, Runs.seq_assoc, hend, List.map_append,
          Runs.all_append, Runs.seq_assoc, Runs.seq_assoc, ← Runs.seq_assoc (runStmts W x.before),
          ← Runs.seq_assoc, hsave, Runs.seq_assoc, List.map_singleton, Runs.all_cons,
          Runs.all_nil, Runs.seq_exit_normal, performAll_cons, Hoisted.perform, Runs.seq_assoc]
      · intro d hd htrivial
        rcases List.mem_append.1 hd with hd | hd
        · rcases exists_of_mem_saved hsaves hd with ⟨hmem, -⟩ | hexit
          · exact (hdone d hmem htrivial).2.2
          · exact hexit ▸ outlasts_exit_normal xs
        · obtain rfl := List.mem_singleton.1 hd
          exact hx.1 htrivial
      · intro hlater
        refine List.pairwise_append.2 ⟨pairwise_saved hsaves hpairwise,
          List.pairwise_singleton _ _, fun d hd e he htrivial => ?_⟩
        obtain rfl := List.mem_singleton.1 he
        rcases exists_of_mem_saved hsaves hd with ⟨hmem, -⟩ | hexit
        · exact (hdone d hmem htrivial).2.1 hlater
        · exact hexit ▸ (Runs.commutes_exit_normal _).symm

/-- There are as many values as operands, those that are done included. -/
theorem length_operandsAfter {done : List (Expr × Ir.Ty)} {es : List Ir.Expr}
    {code : Hoisted (List Expr)} (h : r.operandsAfter ctx hoists done es s = (.ok code, t)) :
    code.value.length = done.length + es.length := by
  induction es generalizing done s t code with
  | nil =>
    obtain ⟨rfl, -⟩ := pure_eq_ok.1 h
    exact List.length_map ..
  | cons e es ih =>
    simp only [Parts.operandsAfter, bind_eq_ok] at h
    obtain ⟨x, u, hx, h⟩ := h
    have hnext : ∀ {saved : List (Expr × Ir.Ty)} {rest : Hoisted (List Expr)} {v w : LowerState},
        saved.length = done.length →
        r.operandsAfter ctx hoists (saved ++ [(x.value, e.type)]) es v = (.ok rest, w) →
        rest.value.length = done.length + (es.length + 1) := by
      intro saved rest v w hlen hrest
      rw [ih hrest, List.length_append, hlen, List.length_singleton]
      omega
    split at h
    · simp only [bind_eq_ok, pure_eq_ok] at h
      obtain ⟨_, _, ⟨rfl, rfl⟩, rest, _, hrest, rfl, -⟩ := h
      have hlen := hnext rfl hrest
      exact hlen
    · simp only [bind_eq_ok, pure_eq_ok] at h
      obtain ⟨saved, v, hsaved, rest, _, hrest, rfl, -⟩ := h
      have hlen := hnext (length_saveOperands hsaved) hrest
      exact hlen

/-- There is one value for each operand. -/
theorem length_operands {es : List Ir.Expr} {code : Hoisted (List Expr)}
    (h : r.operands ctx hoists es s = (.ok code, t)) : code.value.length = es.length :=
  (length_operandsAfter h).trans (Nat.zero_add _)

/-- The statements of all operands run first, and then the operands are evaluated; that performs
them in order. -/
theorem operands_run (hr : r.Deepens r) {es : List Ir.Expr} {code : Hoisted (List Expr)}
    (h : r.operands ctx hoists es s = (.ok code, t)) :
    ∃ xs, List.Forall₂ (r.Gives ctx hoists s) es xs ∧
      ∀ W : World, W.OverlooksFree s.names → Undisturbed W xs →
        Runs.seq (runStmts W code.before) (.all (code.value.map (·.run W))) = performAll W xs := by
  obtain ⟨xs, hxs, hrun⟩ := operandsAfter_run hr h
  refine ⟨xs, hxs, fun W hW hundisturbed => ?_⟩
  rw [hrun W hW hundisturbed nofun fun _ => .nil, List.map_nil, Runs.all_nil,
    Runs.exit_normal_seq]

end TypedLowering.Dart

/-!
## What nodes do with their operands

A node evaluates the values of its operands from left to right, each once, and does something of its
own with them (`combine`).
-/

namespace TypedLowering

namespace Ir.Expr

/-- The operands of a node, in the order of its children. A unit constant that is not passed on is
left out, and so is what is evaluated later, or only under a condition. -/
def operands : Expr → List Expr
  | .aggregate _ values _ => values
  | .call callee receiver args _ _ _ => callee :: (receiver.toList ++ discardUnitArg args)
  | .apply f args _ _ => f :: args
  | .binary _ left right _ _ => [left, right]
  | .emit _ args _ _ _ => args
  | .getIndex obj index _ _ => [obj, index]
  | .set target _ value _ => [target, value]
  | .setIndex target index value _ => [target, index, value]
  | .forLoop _ start limit _ _ _ => [start, limit]
  | _ => []

/-- Whether the operands of a node are lowered together, in an expression. -/
def isOperation : Expr → Bool
  | .aggregate .. | .call .. | .apply .. | .binary .. | .getIndex .. => true
  | .emit _ _ isStatement _ _ => !isStatement
  | _ => false

end Ir.Expr

/-- The operands are children, in the same order. -/
theorem Ir.Expr.operands_sublist (e : Ir.Expr) : e.operands.Sublist e.children := by
  cases e with
  | call callee receiver args =>
    exact ((List.Sublist.refl _).append (discardUnitArg_sublist args)).cons_cons callee
  | forLoop _ start limit body => exact ((List.nil_sublist [body]).cons_cons limit).cons_cons start
  | aggregate | apply | binary | emit | getIndex | set | setIndex => exact List.Sublist.refl _
  | _ => exact List.nil_sublist _

namespace Dart

open Control Lower

/-- What a node does in Dart, with its operands. Each argument that a function is applied to is
passed by a call of its own, the remainder is a method, and a power is a cast call. -/
def combine (W : World) : Ir.Expr → List (Runs W.State) → Runs W.State
  | .aggregate (.array _) _ _, values => .all values
  | .aggregate .., values | .call .., values => .seq (.all values) (W.does .call)
  | .apply .., f :: args => args.foldl (fun f arg => .seq f (.seq arg (W.does .call))) f
  | .binary .modulus .., [left, right] =>
    .seq left (.seq (W.does (.load (some "remainder"))) (.seq right (W.does .call)))
  | .binary .exponent .., values => .seq (.all values) (.seq (W.does .call) (W.does .check))
  | .binary .., values => .all values
  | .emit template .., values => .act (W.foreign template values) .normal
  | .getIndex .., values => .seq (.all values) (W.does (.load none))
  | _, values => .all values

/-- Whether no class is watched. -/
def OverlooksClasses (W : World) (file : SourceFile) : Prop :=
  ∀ fullName entity, file.settings.entity? fullName = some entity → W.Overlooks entity.displayName

variable {W : World} {r : Parts} {ctx : Context} {hoists : Bool} {s t : LowerState}

/-- A call evaluates its callee, then its arguments, and calls. -/
theorem run_callWith (callee : Expr) (args : List Expr) :
    (Expr.callWith callee args).run W =
      .seq (callee.run W) (.seq (.all (args.map (·.run W))) (W.does .call)) := by
  rw [Expr.callWith, Expr.run, runsOfNamed, runsOf_eq_map, Runs.all_nil, Runs.exit_normal_seq]

/-- Reading an imported name does nothing. -/
theorem run_imported (library name : String) (ty : Ty) :
    (Expr.ident (.imported library name ty)).run W = .exit .normal := by
  rw [Expr.run]
  rfl

/-- Naming a constructor does nothing. -/
theorem run_constructorOf {file : SourceFile} {entity : String} {callee : Expr}
    (h : constructorOf file entity s = (.ok callee, t)) (hW : OverlooksClasses W file) :
    callee.run W = .exit .normal := by
  simp only [constructorOf, bind_eq_ok, pure_eq_ok, ofOption_eq_ok] at h
  obtain ⟨e, _, ⟨he, -⟩, rfl, -⟩ := h
  exact run_own (hW entity e he)

/-- Naming the constructor of a tuple does nothing. -/
theorem run_tupleConstructor {file : SourceFile} {items : List Ir.Ty} {callee : Expr}
    {loc : Option Ir.Location}
    (h : tupleConstructor file (.tuple items) loc s = (.ok callee, t)) :
    callee.run W = .exit .normal := by
  simp only [tupleConstructor, bind_eq_ok] at h
  obtain ⟨ty, u, hty, h⟩ := h
  have hopen : Open (fun _ => True) s :=
    ⟨fun _ _ => ⟨trivial, trivial⟩, fun _ _ => trivial, fun _ _ => trivial⟩
  obtain ⟨-, library, name, generics, rfl, -⟩ := lowerType_tuple_ensures file items s ty u hopen hty
  obtain ⟨rfl, -⟩ := pure_eq_ok.1 h
  exact run_imported library name .dynamic

/-- A curried application calls with one argument after the other. -/
theorem run_applied (f : Expr) (args : List Expr) :
    (args.foldl (fun f arg => .callWith f [arg]) f).run W =
      (args.map (·.run W)).foldl (fun f arg => .seq f (.seq arg (W.does .call))) (f.run W) := by
  induction args generalizing f with
  | nil => rfl
  | cons arg args ih =>
    rw [List.foldl_cons, ih, List.map_cons, List.foldl_cons, run_callWith, List.map_singleton,
      Runs.all_cons, Runs.all_nil, Runs.seq_exit_normal]

/-- A binary operation evaluates its operands and then operates. -/
theorem run_binaryValue {file : SourceFile} {op : Ir.BinaryOp} {left right : Ir.Expr}
    {a b value : Expr} {ty : Ir.Ty} {loc : Option Ir.Location}
    (h : binaryValue file op a b ty s = (.ok value, t)) :
    value.run W = combine W (.binary op left right ty loc) [a.run W, b.run W] := by
  have hplain : ∀ op, (Expr.binary op a b).run W = .all [a.run W, b.run W] := fun op => by
    rw [run_binary, Runs.all_cons, Runs.all_cons, Runs.all_nil, Runs.seq_exit_normal]
  cases op with
  | modulus =>
    obtain ⟨rfl, -⟩ := pure_eq_ok.1 h
    rw [run_callWith, Expr.run, List.map_singleton, Runs.all_cons, Runs.all_nil,
      Runs.seq_exit_normal, Runs.seq_assoc]
    rfl
  | exponent =>
    simp only [binaryValue, bind_eq_ok, pure_eq_ok] at h
    obtain ⟨math, _, -, ty', _, -, rfl, -⟩ := h
    rw [Expr.run, run_callWith, run_imported, Runs.exit_normal_seq, Runs.seq_assoc]
    rfl
  | _ =>
    obtain ⟨rfl, -⟩ := pure_eq_ok.1 h
    exact hplain _

/-- The expression for a node has the statements of its operands before it, and does with their
values what the node does. -/
structure Combines (r : Parts) (ctx : Context) (hoists : Bool) (e : Ir.Expr) (s : LowerState)
    (code : Hoisted Expr) (all : Hoisted (List Expr)) : Prop where
  operands : ∃ u v, Grows s u ∧ r.operands ctx hoists e.operands u = (.ok all, v)
  before : code.before = all.before
  run : ∀ W, OverlooksClasses W ctx.file →
    code.value.run W = combine W e (all.value.map (·.run W))

/-- An array, a tuple, a record or a case of a union combines the values of its operands. -/
theorem aggregate_combines {kind : Ir.Aggregate} {values : List Ir.Expr}
    {loc : Option Ir.Location} {code : Hoisted Expr}
    (h : r.aggregate ctx hoists kind values loc s = (.ok code, t)) :
    ∃ all, Combines r ctx hoists (.aggregate kind values loc) s code all := by
  cases kind with
  | array ty =>
    simp only [Parts.aggregate, bind_eq_ok, pure_eq_ok] at h
    obtain ⟨all, u, hall, ty', _, -, rfl, -⟩ := h
    refine ⟨all, ⟨s, u, .refl s, hall⟩, rfl, fun W _ => ?_⟩
    rw [Expr.run, runsOf_eq_map]
    rfl
  | tuple =>
    simp only [Parts.aggregate, bind_eq_ok, pure_eq_ok] at h
    obtain ⟨callee, u, hcallee, all, v, hall, rfl, -⟩ := h
    have hg : Grows s u := (below_tupleConstructor _ _ _).grows hcallee
    refine ⟨all, ⟨u, v, hg, hall⟩, rfl, fun W _ => ?_⟩
    rw [run_callWith, run_tupleConstructor hcallee, Runs.exit_normal_seq]
    rfl
  | record entity =>
    simp only [Parts.aggregate, bind_eq_ok, pure_eq_ok] at h
    obtain ⟨callee, u, hcallee, all, v, hall, rfl, -⟩ := h
    have hg : Grows s u := (below_constructorOf _ _).grows hcallee
    refine ⟨all, ⟨u, v, hg, hall⟩, rfl, fun W hW => ?_⟩
    rw [run_callWith, run_constructorOf hcallee hW, Runs.exit_normal_seq]
    rfl
  | union tag entity =>
    simp only [Parts.aggregate, bind_eq_ok, pure_eq_ok] at h
    obtain ⟨callee, u, hcallee, all, v, hall, rfl, -⟩ := h
    have hg : Grows s u := (below_constructorOf _ _).grows hcallee
    refine ⟨all, ⟨u, v, hg, hall⟩, rfl, fun W hW => ?_⟩
    have htag : (Expr.integer tag).run W = .exit .normal := by rw [Expr.integer, Expr.run]
    rw [run_callWith, run_constructorOf hcallee hW, Runs.exit_normal_seq, List.map_cons,
      List.map_singleton, Runs.all_cons, Runs.all_cons, Runs.all_nil, Runs.seq_exit_normal, htag,
      Runs.exit_normal_seq, Expr.run, runsOf_eq_map]
    rfl
  | anonymous => exact absurd h fail_ne_ok

/-- Operands whose first one is called. -/
theorem exists_cons_of_operands {e : Ir.Expr} {es : List Ir.Expr} {all : Hoisted (List Expr)}
    (h : r.operands ctx hoists (e :: es) s = (.ok all, t)) :
    ∃ value values, all.value = value :: values := by
  have hlen := length_operands h
  cases hvalue : all.value with
  | nil =>
    rw [hvalue] at hlen
    cases hlen
  | cons value values => exact ⟨value, values, rfl⟩

/-- Two operands are lowered as the list of the two. -/
theorem operandPair_eq_ok {left right : Ir.Expr} {both : Hoisted (Expr × Expr)}
    (h : r.operandPair ctx hoists left right s = (.ok both, t)) :
    ∃ all, r.operands ctx hoists [left, right] s = (.ok all, t) ∧ both.before = all.before ∧
      all.value = [both.value.1, both.value.2] := by
  simp only [Parts.operandPair, bind_eq_ok] at h
  obtain ⟨all, u, hall, h⟩ := h
  have hlen := length_operands hall
  match hvalue : all.value, hlen with
  | [a, b], _ =>
    rw [hvalue] at h
    obtain ⟨rfl, rfl⟩ := pure_eq_ok.1 h
    exact ⟨all, hall, rfl, hvalue⟩

/-- An operation combines the values of its operands. -/
theorem exprCore_combines {e : Ir.Expr} (he : e.isOperation = true) {code : Hoisted Expr}
    (h : r.exprCore ctx hoists e s = (.ok code, t)) :
    ∃ all, Combines r ctx hoists e s code all := by
  cases e with
  | aggregate => exact aggregate_combines h
  | call callee receiver args isNew =>
    rw [Parts.exprCore] at h
    split at h
    · exact absurd h fail_ne_ok
    · simp only [Parts.call, bind_eq_ok] at h
      obtain ⟨all, u, hall, h⟩ := h
      obtain ⟨f, values, hvalue⟩ := exists_cons_of_operands hall
      rw [hvalue] at h
      obtain ⟨rfl, -⟩ := pure_eq_ok.1 h
      refine ⟨all, ⟨s, u, .refl s, hall⟩, rfl, fun W _ => ?_⟩
      rw [run_callWith, hvalue, List.map_cons, ← Runs.seq_assoc]
      rfl
  | apply f args =>
    simp only [Parts.exprCore, Parts.applied, bind_eq_ok] at h
    obtain ⟨all, u, hall, h⟩ := h
    obtain ⟨g, values, hvalue⟩ := exists_cons_of_operands hall
    rw [hvalue] at h
    obtain ⟨rfl, -⟩ := pure_eq_ok.1 h
    refine ⟨all, ⟨s, u, .refl s, hall⟩, rfl, fun W _ => ?_⟩
    rw [run_applied, hvalue, List.map_cons]
    rfl
  | binary op left right =>
    simp only [Parts.exprCore, bind_eq_ok, pure_eq_ok] at h
    obtain ⟨both, u, hboth, value, _, hvalue, rfl, -⟩ := h
    obtain ⟨all, hall, hbefore, hvalues⟩ := operandPair_eq_ok hboth
    refine ⟨all, ⟨s, u, .refl s, hall⟩, hbefore, fun W _ => ?_⟩
    rw [run_binaryValue hvalue, hvalues]
    rfl
  | emit template args =>
    simp only [Parts.exprCore, bind_eq_ok, pure_eq_ok] at h
    obtain ⟨all, u, hall, rfl, -⟩ := h
    refine ⟨all, ⟨s, u, .refl s, hall⟩, rfl, fun W _ => ?_⟩
    rw [Expr.run, runsOf_eq_map]
    rfl
  | getIndex obj index =>
    simp only [Parts.exprCore, bind_eq_ok, pure_eq_ok] at h
    obtain ⟨both, u, hboth, rfl, -⟩ := h
    obtain ⟨all, hall, hbefore, hvalues⟩ := operandPair_eq_ok hboth
    refine ⟨all, ⟨s, u, .refl s, hall⟩, hbefore, fun W _ => ?_⟩
    rw [Expr.run, hvalues, ← Runs.seq_assoc]
    show _ = Runs.seq (.all _) _
    rw [List.map_cons, List.map_singleton, Runs.all_cons, Runs.all_cons, Runs.all_nil,
      Runs.seq_exit_normal]
  | _ => cases he

/-! ## Expressions -/

/-- Whether the expression for a node, with the statements before it, performs the operands in order
and does with their values what the node does. -/
def PerformsOperands (r : Parts) (ctx : Context) (hoists : Bool) (e : Ir.Expr) (s : LowerState)
    (code : Hoisted Expr) : Prop :=
  ∃ (values : List Expr) (xs : List (Hoisted Expr)),
    List.Forall₂ (r.Gives ctx hoists s) e.operands xs ∧
    (∀ W, OverlooksClasses W ctx.file → code.value.run W = combine W e (values.map (·.run W))) ∧
    ∀ W : World, W.OverlooksFree s.names → Undisturbed W xs →
      Runs.seq (runStmts W code.before) (.all (values.map (·.run W))) = performAll W xs

/-- What combines the values of operands performs them in order. -/
theorem Combines.performsOperands (hr : r.Deepens r) {e : Ir.Expr} {code : Hoisted Expr}
    {all : Hoisted (List Expr)} (h : Combines r ctx hoists e s code all) :
    PerformsOperands r ctx hoists e s code := by
  obtain ⟨u, v, hg, hall⟩ := h.operands
  obtain ⟨xs, hxs, hrun⟩ := operands_run hr hall
  refine ⟨all.value, xs, hxs.imp (Parts.Gives.grows hg), h.run, fun W hW hundisturbed => ?_⟩
  rw [h.before]
  exact hrun W (hW.grows hg) hundisturbed

/-- Whether parts give statements that declare an identifier with a value, in some state that comes
after `s`. -/
def Parts.Declares (r : Parts) (ctx : Context) (s : LowerState) (b : Ir.Ident × Ir.Expr)
    (stmts : List Stmt) : Prop :=
  ∃ u v, Grows s u ∧ r.declare ctx b.1 b.2 u = (.ok stmts, v)

/-- A declaration in a later state is one after an earlier state. -/
theorem Parts.Declares.grows (hg : Grows s t) (b : Ir.Ident × Ir.Expr) (stmts : List Stmt)
    (h : r.Declares ctx t b stmts) : r.Declares ctx s b stmts := by
  obtain ⟨u, v, hu, hstmts⟩ := h
  exact ⟨u, v, hg.trans hu, hstmts⟩

/-- Whether the statements bind the arguments of a call to parameters, one after the other, before
anything else is done. -/
def BindsInOrder (r : Parts) (ctx : Context) (args : List Ir.Expr) (s : LowerState)
    (before : List Stmt) : Prop :=
  ∃ (params : List Ir.Ident) (parts : List (List Stmt)) (first rest : List Stmt),
    before = first ++ parts.flatten ++ rest ∧
    (∀ W, runStmts W first = .exit .normal) ∧ params.length = args.length ∧
    List.Forall₂ (r.Declares ctx s) (params.zip args) parts

/-- Arguments that are bound in order in a later state are so after an earlier one. -/
theorem BindsInOrder.grows {args : List Ir.Expr} {before : List Stmt} (hg : Grows s t)
    (h : BindsInOrder r ctx args t before) : BindsInOrder r ctx args s before := by
  obtain ⟨params, parts, first, rest, heq, hfirst, hlen, hparts⟩ := h
  exact ⟨params, parts, first, rest, heq, hfirst, hlen, hparts.imp (Parts.Declares.grows hg)⟩

variable {n : Nat} {e : Ir.Expr}

/-- The arguments of an expanded call are bound in order before its body. -/
theorem bindParams_bind {params : List Ir.Ident} {args : List Ir.Expr} {body : Ir.Expr}
    {strategy : Strategy Expr} {stmts : List Stmt}
    (h : (rules n).stmts ctx strategy (bindParams params args body) s = (.ok stmts, t)) :
    ∃ parts rest, stmts = parts.flatten ++ rest ∧
      List.Forall₂ ((rules n).Declares ctx s) (params.zip args) parts := by
  induction params generalizing n args s stmts with
  | nil => exact ⟨[], stmts, rfl, .nil⟩
  | cons p params ih =>
    cases args with
    | nil => exact ⟨[], stmts, rfl, .nil⟩
    | cons arg args =>
      cases n with
      | zero => exact absurd h fail_ne_ok
      | succ n =>
        replace h : (rules n).stmtsRule ctx strategy
          (.letIn p arg (bindParams params args body)) s = (.ok stmts, t) := h
        simp only [Parts.stmtsRule, bind_eq_ok, pure_eq_ok] at h
        obtain ⟨first, u, hfirst, others, v, hothers, rfl, rfl⟩ := h
        obtain ⟨parts, rest, rfl, hparts⟩ := ih hothers
        have hdeep : (rules n).Deepens (rules (n + 1)) := rules_deepens (Nat.le_succ n)
        have hsu : Grows s u := (hdeep.declare _ _ _).grows hfirst
        refine ⟨first :: parts, rest, (List.append_assoc ..).symm, .cons ?_ (hparts.imp ?_)⟩
        · exact ⟨s, u, .refl s, (hdeep.declare _ _ _ _ _ _ hfirst).1⟩
        · rintro b part ⟨u', v, hu', hpart⟩
          exact ⟨u', v, hsu.trans hu', (hdeep.declare _ _ _ _ _ _ hpart).1⟩

/-- The expression for a call that is expanded has statements before it that bind the arguments. -/
theorem bindParams_bindsInOrder {params : List Ir.Ident} {args : List Ir.Expr} {body : Ir.Expr}
    (hlen : params.length = args.length) {code : Hoisted Expr}
    (h : (rules n).expr ctx hoists (bindParams params args body) s = (.ok code, t)) :
    BindsInOrder (rules n) ctx.withoutTailCall args s code.before := by
  match params, args with
  | [], [] => exact ⟨[], [], [], code.before, rfl, fun _ => runStmts_nil, rfl, .nil⟩
  | p :: params, arg :: args =>
    cases n with
    | zero => exact absurd h fail_ne_ok
    | succ n =>
      replace h : (rules n).capture ctx hoists (bindParams (p :: params) (arg :: args) body) s =
        (.ok code, t) := h
      have hdeep : (rules n).Deepens (rules (n + 1)) := rules_deepens (Nat.le_succ n)
      rw [Parts.capture] at h
      split at h
      · exact absurd h fail_ne_ok
      · dsimp only at h
        split at h
        · simp only [bind_eq_ok, pure_eq_ok] at h
          obtain ⟨stmts, u, hstmts, rfl, -⟩ := h
          obtain ⟨parts, rest, heq, hparts⟩ := bindParams_bind ((hdeep.stmts _ _ _ _ _ _ hstmts).1)
          exact ⟨_, parts, [], rest, heq, fun _ => runStmts_nil, hlen, hparts⟩
        · simp only [bind_eq_ok, pure_eq_ok] at h
          obtain ⟨id, u, hid, stmts, v, hstmts, rfl, -⟩ := h
          have hg : Grows s u := (below_freshLocal ctx.file "tmp" _).grows hid
          obtain ⟨parts, rest, rfl, hparts⟩ := bindParams_bind ((hdeep.stmts _ _ _ _ _ _ hstmts).1)
          refine ⟨_, parts, [.declare id .var none], rest, rfl, fun W => ?_, hlen,
            hparts.imp (Parts.Declares.grows hg)⟩
          rw [runStmts_cons, Stmt.run, Runs.exit_normal_seq, runStmts_nil]

/-! ## Statements -/

/-- An operand as its statements and its value. -/
def Hoisted.step (W : World) (x : Hoisted Expr) : Runs W.State × Runs W.State :=
  (runStmts W x.before, x.value.run W)

/-- Whether it makes no difference that operands are evaluated after the statements of the operands
behind them. -/
def Unhindered (W : World) (xs : List (Hoisted Expr)) : Prop :=
  xs.Pairwise fun x y => (x.value.run W).Commutes (runStmts W y.before)

/-- If the statements of operands do not interfere with those that they overtake, they may run
first. -/
theorem hoisted_run {xs : List (Hoisted Expr)} (h : Unhindered W xs) :
    Runs.seq (runStmts W (xs.flatMap (·.before))) (.all (xs.map (·.value.run W))) =
      performAll W xs := by
  have hpairwise : (xs.map (·.step W)).Pairwise fun p q => p.2.Commutes q.1 :=
    List.pairwise_map.2 h
  have hsteps := Runs.all_fst_seq_all_snd hpairwise
  have hbefore : runStmts W (xs.flatMap (·.before)) =
    .all (xs.map fun x => runStmts W x.before) := by
    clear h hpairwise hsteps
    induction xs with
    | nil => rfl
    | cons x xs ih => rw [List.flatMap_cons, runStmts_append, ih, List.map_cons, Runs.all_cons]
  rw [List.map_map, List.map_map] at hsteps
  rw [hbefore]
  refine hsteps.trans ?_
  rw [Runs.steps, List.map_map]
  rfl

/-- The variable that is assigned is not read, and neither is the object that is not there. -/
def placeOf (target : Expr) : Option String → Expr
  | none => target
  | some name => .property target name

/-- The iterations of a counting loop, after the bounds were evaluated. -/
def iterations (W : World) (id : Ident) (body : List Stmt) : Runs W.State :=
  .seq (W.does (.write id.name)) (.iterate (Runs.guard W.decide (.exit .normal)) []
    (.seq (runStmts W body) (W.does (.write id.name))))

/-- An assignment evaluates its place, then its value, and stores it. -/
theorem assign_run (place value : Expr) :
    (Stmt.assign place value).run W [] =
      .seq (place.locate W) (.seq (value.run W) (place.store W)) := by
  rw [Stmt.run]

/-- An assignment evaluates the value, once the place is evaluated, and stores it. -/
def AssignsInOrder (r : Parts) (ctx : Context) (s : LowerState) (place : Expr) (value : Ir.Expr)
    (own : List Stmt) : Prop :=
  (∃ v, r.Gives ctx true s value v ∧ own = v.before ++ [.assign place v.value]) ∨
    ∃ u v, Grows s u ∧ r.stmts ctx (.assign place) value u = (.ok own, v)

/-- An assignment in order in a later state is one after an earlier state. -/
theorem AssignsInOrder.grows {place : Expr} {value : Ir.Expr} {own : List Stmt} (hg : Grows s t)
    (h : AssignsInOrder r ctx t place value own) : AssignsInOrder r ctx s place value own := by
  obtain ⟨v, hv, hown⟩ | ⟨u, v, hu, hown⟩ := h
  · exact .inl ⟨v, .grows hg value v hv, hown⟩
  · exact .inr ⟨u, v, hg.trans hu, hown⟩

/-- An assignment evaluates the parts of its place before the value. -/
theorem assignment_assignsInOrder {place : Expr} {value : Ir.Expr} {own : List Stmt}
    (h : r.assignment ctx place value s = (.ok own, t)) :
    AssignsInOrder r ctx s place value own := by
  simp only [Parts.assignment, bind_eq_ok, isStatement_eq_ok] at h
  obtain ⟨isStatement, u, ⟨-, rfl⟩, h⟩ := h
  cases isStatement with
  | true => exact .inr ⟨_, _, .refl s, h⟩
  | false =>
    simp only [Bool.false_eq_true, if_false, bind_eq_ok, pure_eq_ok] at h
    obtain ⟨v, w, hv, rfl, -⟩ := h
    exact .inl ⟨v, ⟨_, _, .refl s, hv⟩, rfl⟩

/-- The slots get the values in order. -/
theorem slotWrites_run {file : SourceFile} {slots : List (Ir.Ident × String)}
    {values : List Expr} {writes : List Stmt}
    (h : Parts.slotWrites file slots values s = (.ok writes, t))
    (hlen : values.length = slots.length)
    (hW : ∀ b ∈ slots, W.Overlooks b.1.name ∧ W.Overlooks b.2) :
    runStmts W writes = .all (values.map (·.run W)) := by
  induction slots generalizing values s t writes with
  | nil =>
    obtain rfl := List.eq_nil_of_length_eq_zero hlen
    obtain ⟨rfl, -⟩ := pure_eq_ok.1 h
    rfl
  | cons b slots ih =>
    cases values with
    | nil => cases hlen
    | cons value values =>
      obtain ⟨p, slot⟩ := b
      obtain ⟨⟨hp, hslot⟩, hW⟩ := List.forall_mem_cons.1 hW
      rw [Parts.slotWrites] at h
      split at h
      · rename_i hpasses
        obtain ⟨ty, rfl⟩ := isVariable_of_passesOn hpasses
        rw [List.map_cons, Runs.all_cons, run_own hp, Runs.exit_normal_seq]
        exact ih h (Nat.succ.inj hlen) hW
      · simp only [bind_eq_ok, pure_eq_ok] at h
        obtain ⟨ty, _, -, rest, _, hrest, rfl, -⟩ := h
        have hstore : (Expr.ident (.own slot ty)).store W = .exit .normal :=
          (store_ident_own slot ty).trans (World.does_of_ignores hslot.write)
        rw [runStmts_cons, assign_run, hstore, Runs.seq_exit_normal,
          ih hrest (Nat.succ.inj hlen) hW, List.map_cons, Runs.all_cons]
        exact congrArg (Runs.seq · _) (Runs.exit_normal_seq _)

/-- Whether statements with foreign code perform the arguments in order, and pass their values. -/
def EmitsInOrder (r : Parts) (ctx : Context) (strategy : Strategy Expr) (template : String)
    (args : List Ir.Expr) (s : LowerState) (stmts : List Stmt) : Prop :=
  ∃ (before : List Stmt) (values : List Expr) (xs : List (Hoisted Expr)),
    stmts = before ++ .expr (.emit template values) :: deliverUnit strategy ∧
    List.Forall₂ (r.Gives ctx true s) args xs ∧
    ∀ W : World, W.OverlooksFree s.names → Undisturbed W xs →
      Runs.seq (runStmts W before) (.all (values.map (·.run W))) = performAll W xs

/-- Whether statements perform the target of an assignment first, then the value, and then store it.
A value that is an expression is evaluated together with the place, which must not change by being
evaluated late; otherwise the place must have nothing to evaluate. -/
def SetsInOrder (r : Parts) (ctx : Context) (strategy : Strategy Expr) (target : Ir.Expr)
    (field : Option String) (value : Ir.Expr) (s : LowerState) (stmts : List Stmt) : Prop :=
  ∃ x own, r.Gives ctx true s target x ∧
    AssignsInOrder r ctx s (placeOf x.value field) value own ∧
    (∀ (W : World) (v : Hoisted Expr),
      own = v.before ++ [.assign (placeOf x.value field) v.value] →
      ((placeOf x.value field).locate W).Commutes (runStmts W v.before) →
      runStmts W stmts = .seq (.steps [(runStmts W x.before, (placeOf x.value field).locate W),
        v.step W]) (.seq ((placeOf x.value field).store W) (runStmts W (deliverUnit strategy)))) ∧
    ∀ W : World, (placeOf x.value field).locate W = .exit .normal →
      runStmts W stmts = .seq (.steps [(runStmts W x.before, (placeOf x.value field).locate W)])
        (.seq (runStmts W own) (runStmts W (deliverUnit strategy)))

/-- Whether statements perform the object of an assignment to an element first, then the index, then
the value, and then store it. -/
def SetsElementInOrder (r : Parts) (ctx : Context) (strategy : Strategy Expr)
    (target index value : Ir.Expr) (s : LowerState) (stmts : List Stmt) : Prop :=
  ∃ x y own, r.Gives ctx true s target x ∧ r.Gives ctx true s index y ∧
    AssignsInOrder r ctx s (.index x.value y.value) value own ∧
    (∀ (W : World) (v : Hoisted Expr),
      own = v.before ++ [.assign (.index x.value y.value) v.value] →
      Unhindered W [x, y, v] → runStmts W stmts = .seq (performAll W [x, y, v])
        (.seq (W.does (.store none)) (runStmts W (deliverUnit strategy)))) ∧
    ∀ W : World, x.value.run W = .exit .normal → y.value.run W = .exit .normal →
      runStmts W stmts =
        .seq (performAll W [x, y]) (.seq (runStmts W own) (runStmts W (deliverUnit strategy)))

/-- Whether statements perform the start of a counting loop first, then the limit, and then run the
iterations. -/
def CountsInOrder (r : Parts) (ctx : Context) (strategy : Strategy Expr) (id : Ir.Ident)
    (start limit body : Ir.Expr) (s : LowerState) (stmts : List Stmt) : Prop :=
  ∃ x y own place, r.Gives ctx true s start x ∧ r.Gives ctx true s limit y ∧
    (∃ u v, Grows s u ∧ r.stmts ctx .effect body u = (.ok own, v)) ∧ place.name = id.name ∧
    ∀ W : World, Unhindered W [x, y] → runStmts W stmts =
      .seq (performAll W [x, y]) (.seq (iterations W place own) (runStmts W (deliverUnit strategy)))

/-- Whether statements perform the arguments of a self call in order and go on with the loop, for
whoever watches neither the parameters nor the slots. -/
def JumpsInOrder (r : Parts) (ctx : Context) (loop : TailCall) (args : List Ir.Expr)
    (s : LowerState) (stmts : List Stmt) : Prop :=
  ∃ xs, List.Forall₂ (r.Gives ctx true s) args xs ∧
    ∀ W : World, (∀ b ∈ loop.bindings, W.Overlooks b.1.name ∧ W.Overlooks b.2) →
      Unhindered W xs →
      runStmts W stmts = .seq (performAll W xs) (.exit (.continued (some loop.label)))

/-- Whether statements are those of the expression for the node, and then what the strategy does
with its value. -/
def Delivers (r : Parts) (ctx : Context) (strategy : Strategy Expr) (e : Ir.Expr)
    (s : LowerState) (stmts : List Stmt) : Prop :=
  ∃ code, r.Gives ctx true s e code ∧ stmts = code.before ++ deliver strategy code.value

/-- Whether the statements for a node perform its operands in order, or leave that to the expression
for the node. -/
def RunsInOrder (r : Parts) (ctx : Context) (strategy : Strategy Expr) (e : Ir.Expr)
    (s : LowerState) (stmts : List Stmt) : Prop :=
  match e with
  | .emit template args true _ _ =>
    EmitsInOrder r ctx.withoutTailCall strategy template args s stmts
  | .set target field value _ =>
    SetsInOrder r ctx.withoutTailCall strategy target field value s stmts
  | .setIndex target index value _ =>
    SetsElementInOrder r ctx.withoutTailCall strategy target index value s stmts
  | .forLoop id start limit body _ _ =>
    CountsInOrder r ctx.withoutTailCall strategy id start limit body s stmts
  | .call callee receiver args isNew ty loc =>
    match ctx.selfTailCall? strategy callee receiver args isNew with
    | some loop => loop.params.length = loop.slots.length →
      JumpsInOrder r ctx.withoutTailCall loop (discardUnitArg args) s stmts
    | none =>
      Delivers r ctx.withoutTailCall strategy (.call callee receiver args isNew ty loc) s stmts
  | e => e.isOperation = true → Delivers r ctx.withoutTailCall strategy e s stmts

section
variable {strategy : Strategy Expr} {stmts : List Stmt} {loc : Option Ir.Location}

/-- A field is set in the order of target and value. -/
theorem set_setsInOrder (hr : r.Deepens r) {target value : Ir.Expr} {field : Option String}
    (h : r.stmtsRule ctx strategy (.set target field value loc) s = (.ok stmts, t)) :
    SetsInOrder r ctx.withoutTailCall strategy target field value s stmts := by
  simp only [Parts.stmtsRule, bind_eq_ok, pure_eq_ok] at h
  obtain ⟨x, u, hx, own, v, hown, rfl, -⟩ := h
  have hsu : Grows s u := (hr.expr _ _ _).grows hx
  refine ⟨x, own, ⟨_, _, .refl s, hx⟩, ?_, fun W v hv hcommutes => ?_, fun W hplace => ?_⟩
  · cases field <;> exact (assignment_assignsInOrder hown).grows hsu
  · have hpairwise : List.Pairwise (fun p q => p.2.Commutes q.1)
        [(runStmts W x.before, (placeOf x.value field).locate W), v.step W] :=
      .cons (List.forall_mem_singleton.2 hcommutes) (List.pairwise_singleton _ _)
    rw [← Runs.all_fst_seq_all_snd hpairwise, hv]
    simp only [runStmts_append, runStmts_cons, runStmts_nil, assign_run, Hoisted.step,
      List.map_cons, List.map_nil, Runs.all_cons, Runs.all_nil, Runs.seq_exit_normal,
      Runs.seq_assoc]
  · rw [runStmts_append, runStmts_append, Runs.steps_cons, Runs.steps_nil, hplace,
      Runs.seq_exit_normal, Runs.seq_exit_normal, Runs.seq_assoc]

/-- An element is set with the statements of target and index before the value. -/
theorem setIndex_setsElementInOrder (hr : r.Deepens r) {target index value : Ir.Expr}
    (h : r.stmtsRule ctx strategy (.setIndex target index value loc) s = (.ok stmts, t)) :
    SetsElementInOrder r ctx.withoutTailCall strategy target index value s stmts := by
  simp only [Parts.stmtsRule, bind_eq_ok, pure_eq_ok] at h
  obtain ⟨x, u, hx, y, v, hy, own, w, hown, rfl, -⟩ := h
  have hsu : Grows s u := (hr.expr _ _ _).grows hx
  have huv : Grows u v := (hr.expr _ _ _).grows hy
  refine ⟨x, y, own, ⟨_, _, .refl s, hx⟩, ⟨_, _, hsu, hy⟩,
    (assignment_assignsInOrder hown).grows (hsu.trans huv), fun W v hv hunhindered => ?_,
    fun W hobj hindex => ?_⟩
  · rw [← hoisted_run hunhindered, hv]
    simp only [runStmts_append, runStmts_cons, runStmts_nil, assign_run, Expr.locate, Expr.store,
      List.flatMap_cons, List.flatMap_nil, List.map_cons, List.map_nil, Runs.all_cons,
      Runs.all_nil, Runs.seq_exit_normal, Runs.seq_assoc, List.append_assoc]
  · simp only [runStmts_append, performAll_cons, performAll_nil, Hoisted.perform, hobj, hindex,
      Runs.seq_exit_normal, Runs.seq_assoc]

/-- A counting loop evaluates its start and its limit in the order that is stated. -/
theorem forLoop_countsInOrder (hr : r.Deepens r) {id : Ir.Ident}
    {start limit body : Ir.Expr} {isUp : Bool}
    (h : r.stmtsRule ctx strategy (.forLoop id start limit body isUp loc) s = (.ok stmts, t)) :
    CountsInOrder r ctx.withoutTailCall strategy id start limit body s stmts := by
  simp only [Parts.stmtsRule, Parts.forLoop, bind_eq_ok, pure_eq_ok] at h
  obtain ⟨_, _, ⟨x, u, hx, y, v, hy, own, w, hown, place, _, hplace, rfl, -⟩, rfl, -⟩ := h
  have hname : place.name = id.name := by
    simp only [lowerIdent, bind_eq_ok, pure_eq_ok] at hplace
    obtain ⟨ty, _, -, rfl, -⟩ := hplace
    rfl
  have hsu : Grows s u := (hr.expr _ _ _).grows hx
  have huv : Grows u v := (hr.expr _ _ _).grows hy
  refine ⟨x, y, own, place, ⟨_, _, .refl s, hx⟩, ⟨_, _, hsu, hy⟩, ⟨_, _, hsu.trans huv, hown⟩,
    hname, fun W hunhindered => ?_⟩
  rw [← hoisted_run hunhindered]
  simp only [runStmts_append, runStmts_cons, runStmts_nil, Stmt.run, iterations,
    List.flatMap_cons, List.flatMap_nil, List.map_cons, List.map_nil, Runs.all_cons,
    Runs.all_nil, Runs.seq_exit_normal, Runs.seq_assoc, List.append_assoc]

/-- The arguments of a self call are lowered one after the other. -/
theorem values_gives (hr : r.Deepens r) {args : List Ir.Expr} {all : Hoisted (List Expr)}
    (h : r.values ctx args s = (.ok all, t)) :
    ∃ xs, List.Forall₂ (r.Gives ctx true s) args xs ∧
      all = ⟨xs.flatMap (·.before), xs.map (·.value)⟩ := by
  induction args generalizing s t all with
  | nil =>
    obtain ⟨rfl, -⟩ := pure_eq_ok.1 h
    exact ⟨[], .nil, rfl⟩
  | cons arg args ih =>
    simp only [Parts.values, bind_eq_ok, pure_eq_ok] at h
    obtain ⟨x, u, hx, rest, _, hrest, rfl, -⟩ := h
    obtain ⟨xs, hxs, rfl⟩ := ih hrest
    have hsu : Grows s u := (hr.expr _ _ _).grows hx
    exact ⟨x :: xs, .cons ⟨s, u, .refl s, hx⟩ (hxs.imp (Parts.Gives.grows hsu)), rfl⟩

/-- A self tail call evaluates its arguments in order before any slot is written. -/
theorem tailCall_jumpsInOrder {loop : TailCall} {args : List Ir.Expr}
    (hlen : (discardUnitArg args).length = loop.bindings.length)
    (hr : r.Deepens r) (h : r.tailCall ctx loop args s = (.ok stmts, t)) :
    JumpsInOrder r ctx.withoutTailCall loop (discardUnitArg args) s stmts := by
  simp only [Parts.tailCall, bind_eq_ok, pure_eq_ok] at h
  obtain ⟨_, u, hu, all, v, hall, writes, w, hwrites, rfl, -⟩ := h
  obtain ⟨xs, hxs, rfl⟩ := values_gives hr hall
  have hsu : Grows s u := Below.markLooped.grows hu
  refine ⟨xs, hxs.imp (Parts.Gives.grows hsu), fun W hW hunhindered => ?_⟩
  have hcount : (xs.map (·.value)).length = loop.bindings.length := by
    rw [List.length_map, ← hxs.length_eq, hlen]
  rw [runStmts_append, runStmts_append, slotWrites_run hwrites hcount hW, List.map_map,
    ← hoisted_run hunhindered, runStmts_cons, runStmts_nil, Stmt.run, Runs.seq_exit_normal]
  rfl

/-- A value is delivered after the statements before it have run. -/
theorem delivered_runs (h : r.delivered ctx strategy e s = (.ok stmts, t)) :
    Delivers r ctx.withoutTailCall strategy e s stmts := by
  simp only [Parts.delivered, bind_eq_ok, pure_eq_ok] at h
  obtain ⟨code, u, hcode, rfl, -⟩ := h
  exact ⟨code, ⟨_, _, .refl s, hcode⟩, rfl⟩

/-- Statements perform the operands of their node in order. -/
theorem stmtsRule_runsInOrder (hr : r.Deepens r)
    (h : r.stmtsRule ctx strategy e s = (.ok stmts, t)) : RunsInOrder r ctx strategy e s stmts := by
  cases e with
  | emit template args isStatement =>
    cases isStatement with
    | false => exact fun _ => delivered_runs h
    | true =>
      simp only [Parts.stmtsRule, bind_eq_ok, pure_eq_ok] at h
      obtain ⟨all, u, hall, rfl, -⟩ := h
      obtain ⟨xs, hxs, hrun⟩ := operands_run hr hall
      exact ⟨all.before, all.value, xs, rfl, hxs, hrun⟩
  | set => exact set_setsInOrder hr h
  | setIndex => exact setIndex_setsElementInOrder hr h
  | forLoop => exact forLoop_countsInOrder hr h
  | call callee receiver args isNew =>
    rw [Parts.stmtsRule] at h
    rw [RunsInOrder]
    cases hloop : ctx.selfTailCall? strategy callee receiver args isNew with
    | none =>
      rw [hloop] at h
      exact delivered_runs h
    | some loop =>
      intro hslots
      have hrecognized := (Option.filter_eq_some_iff.1 hloop).2
      simp only [TailCall.recognizes, Bool.and_eq_true, beq_iff_eq] at hrecognized
      have hlen : (discardUnitArg args).length = loop.bindings.length := by
        rw [TailCall.bindings, List.length_zip, hslots, Nat.min_self, hrecognized.2]
      rw [hloop] at h
      exact tailCall_jumpsInOrder hlen hr h
  | aggregate | apply | binary | getIndex => exact fun _ => delivered_runs h
  | _ =>
    intro he
    cases he

end

/-! ## Operations -/

/-- Only calls are expanded. There is one parameter for each argument. -/
theorem expansion?_eq_some {expanded : Ir.Expr}
    (h : Parts.expansion? ctx e s = (.ok (some expanded), t)) :
    ∃ callee args isNew ty loc params body, e = .call callee none args isNew ty loc ∧
      params.length = args.length ∧ expanded = bindParams params args body := by
  cases e with
  | call callee receiver args isNew ty loc =>
    cases receiver with
    | some => cases h
    | none =>
      obtain ⟨_, fresh, hexpands⟩ := expandInline_expands h
      exact ⟨callee, args, isNew, ty, loc, fresh, _, rfl, hexpands.length, hexpands.eq⟩
  | _ => cases h

/-- An operation is not captured in a local. -/
theorem isCaptured_of_isOperation (he : e.isOperation = true) :
    Parts.isCaptured ctx e = pure false := by
  cases e with
  | emit _ _ isStatement =>
    cases isStatement with
    | false => rfl
    | true => cases he
  | aggregate | call | apply | binary | getIndex => rfl
  | _ => cases he

/-- Operands performed in order in a later state are so after an earlier one. -/
theorem PerformsOperands.grows {code : Hoisted Expr} (hg : Grows s t)
    (h : PerformsOperands r ctx hoists e t code) : PerformsOperands r ctx hoists e s code := by
  obtain ⟨values, xs, hxs, hvalue, hrun⟩ := h
  exact ⟨values, xs, hxs.imp (Parts.Gives.grows hg), hvalue, fun W hW => hrun W (hW.grows hg)⟩

/-- The expression for an operation performs its operands in order, or it is the expansion of a call
and binds the arguments in order. -/
theorem exprRule_performsOperands (he : e.isOperation = true) {code : Hoisted Expr}
    (h : (rules n).exprRule ctx hoists e s = (.ok code, t)) :
    PerformsOperands (rules n) ctx hoists e s code ∨
      ∃ callee args isNew ty loc expanded u, e = .call callee none args isNew ty loc ∧
        expandInline ctx.file callee args s = (.ok (some expanded), u) ∧
        BindsInOrder (rules n) ctx.withoutTailCall args s code.before := by
  simp only [Parts.exprRule, bind_eq_ok] at h
  obtain ⟨expanded, u, hexpanded, h⟩ := h
  have hg : Grows s u := (Parts.Deepens.below_expansion? ctx e).grows hexpanded
  cases expanded with
  | none =>
    simp only [bind_eq_ok, isCaptured_of_isOperation he, pure_eq_ok] at h
    obtain ⟨_, _, ⟨rfl, rfl⟩, h⟩ := h
    obtain ⟨all, hcombines⟩ := exprCore_combines he h
    exact .inl ((hcombines.performsOperands (rules_deepens (Nat.le_refl n))).grows hg)
  | some expanded =>
    obtain ⟨callee, args, isNew, ty, loc, params, body, rfl, hlen, rfl⟩ :=
      expansion?_eq_some hexpanded
    exact .inr ⟨callee, args, isNew, ty, loc, _, u, rfl, hexpanded,
      (bindParams_bindsInOrder hlen h).grows hg⟩

end Dart

end TypedLowering
