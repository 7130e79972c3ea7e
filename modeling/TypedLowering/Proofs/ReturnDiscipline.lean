import TypedLowering.Proofs.Dart.Function
import TypedLowering.Proofs.JavaScript.Function

/-!
# Returns and jumps keep to the strategy

Statements that have to return their value do so on every path, however ifs, switches and try
statements are nested, unless they raise or jump to the next iteration of the loop around. Other
statements never return, and those that store their value do not jump either
(`lowering_keepsStrategy`). So the loop that a function becomes is only continued by its jumps.
-/

namespace TypedLowering

open Control

variable {σ ε : Type}

/-- Every path ends in a return, by raising, or by a jump to the loop of the context. -/
def ReturnsOnEveryPath (ctx : Context) (fs : List (Flow σ ε)) : Prop :=
  ∀ (M : Machine σ ε) (a b : M.State) (x : Exit), runAll M fs a x b →
    x = .returned ∨ x = .raised ∨
      ∃ loop, ctx.tailCall = some loop ∧ x = .continued (some loop.label)

/-- No return stands in the statements, or further inside. -/
def NeverReturns (fs : List (Flow σ ε)) : Prop :=
  ∀ B ∈ blocks false fs, ∀ code, Flow.ret code ∉ B.flows

/-- No jump to the next iteration of a loop stands in the statements, or further inside. -/
def NeverContinues (fs : List (Flow σ ε)) : Prop :=
  ∀ B ∈ blocks false fs, ∀ label, Flow.continueTo label ∉ B.flows

/-- What a strategy promises about the statements that are lowered with it. -/
structure KeepsStrategy (ctx : Context) (strategy : Strategy ε) (fs : List (Flow σ ε)) : Prop where
  ret : strategy = .ret → ReturnsOnEveryPath ctx fs
  not_ret : strategy ≠ .ret → NeverReturns fs
  assign : ∀ place, strategy = .assign place → NeverContinues fs
  join : ∀ name, strategy = .join name → NeverContinues fs

/-- If the statements are a loop with a label, each of its iterations but the first one comes from a
jump to the label. -/
def LoopsByJumps (fs : List (Flow σ ε)) : Prop :=
  ∀ label header body, fs = [.labeled label (.loop header body)] →
    ∀ (M : Machine σ ε) (a b : M.State) (x : Exit), runAll M body a x b →
      x.goesOn [label] = true → x = .continued (some label)

section
variable {writes : SlotWrites σ ε} {ctx : Context} {strategy : Strategy ε} {e : Ir.Expr}
  {s t : LowerState} {fs : List (Flow σ ε)}

/-- The discipline of a lowered list, in the terms of its strategy. -/
theorem KeepsStrategy.of_obeys
    (h : Obeys strategy.returns (selfCalls writes strategy.isTail ctx e s t) fs) :
    KeepsStrategy ctx strategy fs := by
  have hnone : strategy.isTail = false → NeverContinues fs := fun htail B hB label => by
    rw [htail] at h
    exact (h.mono fun _ _ hJ => not_selfCalls_of_not_tail hJ).continueTo_not_mem hB label
  refine ⟨?_, fun hne B hB code hcode => ?_, ?_, ?_⟩
  · rintro rfl M a b x hr
    have hfits := h.exit M hr
    cases x with
    | normal => cases hfits
    | returned => exact .inl rfl
    | raised => exact .inr (.inl rfl)
    | broke => cases hfits
    | continued label =>
      obtain ⟨own, hJ⟩ := hfits
      obtain ⟨⟨loop, hloop, rfl⟩, -⟩ := selfCalls_label hJ
      exact .inr (.inr ⟨loop, hloop, rfl⟩)
  · have hreturns := h.allowed B hB _ hcode
    cases strategy with
    | ret => exact hne rfl
    | effect | assign | join => cases hreturns
  · rintro place rfl
    exact hnone rfl
  · rintro name rfl
    exact hnone rfl

/-- A labelled loop does not stand in a list that is in order. -/
theorem LoopsByJumps.of_obeys {ret : Bool} {J : Jumps σ ε} (h : Obeys ret J fs) :
    LoopsByJumps fs := by
  rintro label header body rfl
  cases h.allowed _ List.mem_cons_self _ List.mem_cons_self

/-- The loop over a body that is in order. -/
theorem LoopsByJumps.of_body {ret : Bool} {header : σ} {loop : TailCall}
    (h : Obeys ret (selfCalls writes true (ctx.withTailCall loop) e s t) fs) :
    LoopsByJumps [.labeled loop.label
      (.loop header (fs ++ if ret then [] else [.breakTo none]))] := by
  rintro label header' body heq M a b x hr hx
  obtain ⟨rfl, rfl, rfl⟩ := by simpa using heq
  obtain ⟨l, own, rfl, hJ⟩ := h.continued_of_goesOn hr hx
  obtain ⟨⟨loop', hloop, rfl⟩, -⟩ := selfCalls_label hJ
  obtain rfl := Option.some.inj hloop
  rfl

end

/-- Statements keep to their strategy, and functions that become loops are only continued by jumps,
to whatever depth they are lowered. -/
theorem lowering_keepsStrategy :
    (∀ n ctx strategy e s stmts t,
      (JavaScript.rules n).stmts ctx strategy e s = (.ok stmts, t) →
      KeepsStrategy ctx strategy (JavaScript.flows stmts)) ∧
    (∀ n ctx name params body s ps stmts t,
      (JavaScript.rules n).function ctx name params body s = (.ok (ps, stmts), t) →
      LoopsByJumps (JavaScript.flows stmts)) ∧
    (∀ n ctx strategy e s stmts t,
      (Dart.rules n).stmts ctx strategy e s = (.ok stmts, t) →
      KeepsStrategy ctx strategy (Dart.flows stmts)) ∧
    (∀ n ctx name params body s ps stmts ret t,
      (Dart.rules n).function ctx name params body s = (.ok (ps, stmts, ret), t) →
      LoopsByJumps (Dart.flows stmts)) := by
  refine ⟨fun n ctx strategy e s stmts t h => .of_obeys (JavaScript.rules_obey n h),
    fun n ctx name params body s ps stmts t h => ?_,
    fun n ctx strategy e s stmts t h => .of_obeys ((Dart.rules_obey n).stmts h),
    fun n ctx name params body s ps stmts ret t h => ?_⟩
  · rcases JavaScript.function_spec h with ⟨-, hobeys, -⟩ | ⟨loop, inner, hloop, rfl, -⟩
    · exact .of_obeys hobeys
    · obtain ⟨label, u, v, -, -, hinner⟩ := hloop.obeys
      rw [JavaScript.loopBody_eq]
      simp only [JavaScript.flows_cons, JavaScript.flows_nil, JavaScript.flow_of,
        JavaScript.StmtForm.flow, JavaScript.flows_iteration]
      exact .of_body hinner
  · rcases Dart.function_spec h with ⟨-, hobeys, -⟩ | ⟨loop, inner, tys, hloop, -, rfl, -⟩
    · exact .of_obeys hobeys
    · obtain ⟨label, s₁, u, v, -, -, -, hinner⟩ := hloop.obeys
      rw [Dart.loopBody_eq]
      simp only [Dart.flows_cons, Dart.flows_nil, Dart.Stmt.flow, Dart.flows_iteration]
      exact .of_body (hinner tys)

/-! ## A function of two parameters that swaps them -/

/-- A file of a project in which nothing is declared. -/
def bareFile : SourceFile := ⟨⟨.default, ⟨[], [], [], []⟩, []⟩, "main"⟩

/-- A local of Boolean type. -/
def flag (name : String) : Ir.Ident := ⟨name, .boolean, false, false, false, none⟩

/-- The body of `f a b = if a then f b a else b`. -/
def swapBody : Ir.Expr :=
  .ifThenElse (.ident (flag "a"))
    (.call (.ident (flag "f")) none [.ident (flag "b"), .ident (flag "a")] false .boolean none)
    (.ident (flag "b")) none

/-- The state at the start of a file that declares `f`. -/
def swapState : LowerState := .start .empty ["f", "a", "b"] []

/-- The function that swaps its parameters returns on each path that does not jump. -/
theorem swap_keepsStrategy :
    (∃ stmts t, (JavaScript.rules 8).stmts (.ofFile bareFile) .ret swapBody swapState =
        (.ok stmts, t) ∧ KeepsStrategy (.ofFile bareFile) .ret (JavaScript.flows stmts)) ∧
    (∃ ps stmts t, (JavaScript.rules 8).function (.ofFile bareFile) (some "f")
        [flag "a", flag "b"] swapBody swapState = (.ok (ps, stmts), t) ∧
      LoopsByJumps (JavaScript.flows stmts)) ∧
    (∃ stmts t, (Dart.rules 8).stmts (.ofFile bareFile) .ret swapBody swapState =
        (.ok stmts, t) ∧ KeepsStrategy (.ofFile bareFile) .ret (Dart.flows stmts)) ∧
    ∃ ps stmts ret t, (Dart.rules 8).function (.ofFile bareFile) (some "f")
        [flag "a", flag "b"] swapBody swapState = (.ok (ps, stmts, ret), t) ∧
      LoopsByJumps (Dart.flows stmts) := by
  obtain ⟨hjs, hjsLoop, hdart, hdartLoop⟩ := lowering_keepsStrategy
  exact ⟨⟨_, _, rfl, hjs 8 (.ofFile bareFile) .ret swapBody swapState _ _ rfl⟩,
    ⟨_, _, _, rfl, hjsLoop 8 (.ofFile bareFile) (some "f") [flag "a", flag "b"] swapBody swapState
      _ _ _ rfl⟩,
    ⟨_, _, rfl, hdart 8 (.ofFile bareFile) .ret swapBody swapState _ _ rfl⟩,
    ⟨_, _, _, _, rfl, hdartLoop 8 (.ofFile bareFile) (some "f") [flag "a", flag "b"] swapBody
      swapState _ _ _ _ rfl⟩⟩

end TypedLowering
