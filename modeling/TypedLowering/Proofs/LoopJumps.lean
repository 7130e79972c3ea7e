import TypedLowering.Proofs.Lowering.Slots
import TypedLowering.Proofs.ReturnDiscipline

/-!
# Functions as loops

A function is lowered as it stands, without jumps, or it becomes one loop with its name for a label.
Then its parameters are the slots, an iteration begins with the copies of the slots, and every jump
goes to the loop, from outside of other loops and of try statements, as the last thing that its
statement list does (`function_staysOrLoops`).
-/

namespace TypedLowering

open Control

variable {σ ε : Type}

/-- Every jump to the next iteration of a loop goes to the label. None stands inside a loop or a try
statement, and nothing but a break comes after one. -/
def JumpsOnlyTo (label : String) (fs : List (Flow σ ε)) : Prop :=
  ∀ B ∈ blocks false fs, ∀ pre target post, B.flows = pre ++ .continueTo target :: post →
    target = some label ∧ B.isGuarded = false ∧ (post = [] ∨ post = [.breakTo none])

/-- The jumps of a body whose jumps are self calls. -/
theorem JumpsOnlyTo.of_obeys {writes : SlotWrites σ ε} {ctx : Context} {loop : TailCall}
    {e : Ir.Expr} {s t : LowerState} {ret : Bool} {fs exit : List (Flow σ ε)}
    (h : Obeys ret (selfCalls writes true (ctx.withTailCall loop) e s t) fs)
    (hexit : exit = [] ∨ exit = [.breakTo none]) : JumpsOnlyTo loop.label (fs ++ exit) := by
  intro B hB pre target post he
  have hbody : Body ret (selfCalls writes true (ctx.withTailCall loop) e s t) (fs ++ exit) :=
    ⟨fs, exit, rfl, h, hexit⟩
  obtain ⟨hguarded, hpost, _, _, -, hJ⟩ := hbody.jump hB he
  obtain ⟨⟨loop', hloop, rfl⟩, -⟩ := selfCalls_label hJ
  obtain rfl := Option.some.inj hloop
  exact ⟨rfl, hguarded, hpost⟩

/-- The loop of a function: its label is the name, and its parameters, each with a slot, are those
that the function declares, but for a lone parameter of unit type. -/
structure IsLoopOf (name : Option String) (params : List Ir.Ident) (loop : TailCall) : Prop where
  name : name = some loop.label
  params : loop.params = declaredParams params ∨
    ∃ p, declaredParams params = [p] ∧ p.ty.isUnit = true ∧ loop.params = []
  slots : List.Forall₂ TailCall.IsSlot loop.params loop.slots

theorem IsLoopOf.of_allocate {label : String} {params : List Ir.Ident} {s t : LowerState}
    {loop : TailCall}
    (h : Lower.allocateTailCall label (declaredParams params) s = (.ok loop, t)) :
    IsLoopOf (some label) params loop := by
  obtain ⟨rfl, hparams, _, hslots, -⟩ := TailCall.allocateTailCall_spec h
  rw [← hparams] at hslots
  exact ⟨rfl, hparams ▸ declaredParams_declaredParams params, TailCall.allocateSlots_forall₂ hslots⟩

/-- The slots of a loop, read off its bindings. -/
theorem IsLoopOf.map_bindings {name : Option String} {params : List Ir.Ident} {loop : TailCall}
    (h : IsLoopOf name params loop) {α : Type} (f : String → α) :
    loop.bindings.map (fun b => f b.2) = loop.slots.map f := by
  have hsnd : loop.bindings.map Prod.snd = loop.slots :=
    List.map_snd_zip (Nat.le_of_eq h.slots.length_eq.symm)
  rw [← hsnd, List.map_map]
  rfl

namespace JavaScript

/-- A function that is lowered as it stands. -/
structure Stays (params : List Ir.Ident) (ps : List Param) (stmts : List Stmt) : Prop where
  params : ps = (declaredParams params).map fun p => ⟨p.name, false⟩
  jumps : NeverContinues (flows stmts)

/-- A function that became a loop. -/
structure Loops (name : Option String) (params : List Ir.Ident) (loop : TailCall)
    (ps : List Param) (stmts : List Stmt) : Prop where
  isLoop : IsLoopOf name params loop
  params : ps = loop.slots.map fun slot => ⟨slot, false⟩
  body : ∃ rest, JumpsOnlyTo loop.label (flows (copies loop ++ rest)) ∧
    stmts = [.of (.labeled loop.label
      (.of (.whileLoop (.literal (.bool true)) (copies loop ++ rest))))]

end JavaScript

namespace Dart

/-- A function that is lowered as it stands. -/
structure Stays (ctx : Context) (params : List Ir.Ident) (ps : List Ident) (stmts : List Stmt) :
    Prop where
  params : ∃ tys, List.Forall₂ (fun p => LowersTo ctx.file p.ty) (declaredParams params) tys ∧
    ps = List.zipWith (fun p ty => .own p.name ty) (declaredParams params) tys
  jumps : NeverContinues (flows stmts)

/-- A function that became a loop. -/
structure Loops (ctx : Context) (name : Option String) (params : List Ir.Ident) (loop : TailCall)
    (ps : List Ident) (stmts : List Stmt) : Prop where
  isLoop : IsLoopOf name params loop
  body : ∃ tys rest, List.Forall₂ (fun b => LowersTo ctx.file b.1.ty) loop.bindings tys ∧
    ps = List.zipWith (fun b ty => .own b.2 ty) loop.bindings tys ∧
    JumpsOnlyTo loop.label (flows (List.zipWith copy loop.bindings tys ++ rest)) ∧
    stmts = [.labeled loop.label (.whileLoop (.literal (.bool true))
      (List.zipWith copy loop.bindings tys ++ rest))]

end Dart

/-- A function stays as it is if none of its self calls becomes a jump, and otherwise it becomes a
loop. -/
theorem function_staysOrLoops :
    (∀ n ctx name params body s ps stmts t,
      (JavaScript.rules n).function ctx name params body s = (.ok (ps, stmts), t) →
      ((¬ ∃ loop inner, JavaScript.BecomesLoop n ctx name params body s loop inner) ∧
        JavaScript.Stays params ps stmts) ∨
      ∃ loop inner, JavaScript.BecomesLoop n ctx name params body s loop inner ∧
        JavaScript.Loops name params loop ps stmts) ∧
    ∀ n ctx name params body s ps stmts ret t,
      (Dart.rules n).function ctx name params body s = (.ok (ps, stmts, ret), t) →
      ((¬ ∃ loop inner, Dart.BecomesLoop n ctx name params body s loop inner) ∧
        Dart.Stays ctx params ps stmts) ∨
      ∃ loop inner, Dart.BecomesLoop n ctx name params body s loop inner ∧
        Dart.Loops ctx name params loop ps stmts := by
  have hexit : ∀ {σ ε : Type} (isUnit : Bool),
      (if !isUnit then [] else [(.breakTo none : Flow σ ε)]) = [] ∨
        (if !isUnit then [] else [(.breakTo none : Flow σ ε)]) = [.breakTo none] := by
    rintro σ ε (_ | _)
    · exact .inl rfl
    · exact .inr rfl
  constructor
  · intro n ctx name params body s ps stmts t h
    rcases JavaScript.function_spec h with ⟨hnot, hobeys, hps⟩ | ⟨loop, inner, hloop, rfl, rfl⟩
    · exact .inl ⟨hnot, hps, fun B hB label => hobeys.continueTo_not_mem hB label⟩
    · obtain ⟨label, u, v, rfl, hallocate, hinner⟩ := hloop.obeys
      have hof := IsLoopOf.of_allocate hallocate
      refine .inr ⟨loop, inner, hloop, hof,
        hof.map_bindings fun slot => (⟨slot, false⟩ : JavaScript.Param), _, ?_,
        (JavaScript.loopBody_eq ..).trans (by rw [JavaScript.iteration, List.append_assoc])⟩
      rw [← List.append_assoc, ← JavaScript.iteration, JavaScript.flows_iteration]
      exact .of_obeys hinner (hexit _)
  · intro n ctx name params body s ps stmts ret t h
    rcases Dart.function_spec h with ⟨hnot, hobeys, hps⟩ | ⟨loop, inner, tys, hloop, htys, rfl, rfl⟩
    · exact .inl ⟨hnot, hps, fun B hB label => hobeys.continueTo_not_mem hB label⟩
    · obtain ⟨label, s₁, u, v, rfl, -, hallocate, hinner⟩ := hloop.obeys
      refine .inr ⟨loop, inner, hloop, .of_allocate hallocate, tys, _, htys, rfl, ?_,
        (Dart.loopBody_eq ..).trans (by rw [Dart.iteration, List.append_assoc])⟩
      rw [← List.append_assoc, ← Dart.iteration, Dart.flows_iteration]
      exact .of_obeys (hinner tys) (hexit _)

/-- The function that swaps its parameters becomes a loop. -/
theorem swap_loops :
    (∃ ps stmts t loop, (JavaScript.rules 8).function (.ofFile bareFile) (some "f")
        [flag "a", flag "b"] swapBody swapState = (.ok (ps, stmts), t) ∧
      JavaScript.Loops (some "f") [flag "a", flag "b"] loop ps stmts) ∧
    ∃ ps stmts ret t loop, (Dart.rules 8).function (.ofFile bareFile) (some "f")
        [flag "a", flag "b"] swapBody swapState = (.ok (ps, stmts, ret), t) ∧
      Dart.Loops (.ofFile bareFile) (some "f") [flag "a", flag "b"] loop ps stmts := by
  obtain ⟨hjs, hdart⟩ := function_staysOrLoops
  constructor
  · rcases hjs 8 (.ofFile bareFile) (some "f") [flag "a", flag "b"] swapBody swapState _ _ _ rfl
      with ⟨-, hstays⟩ | ⟨loop, _, -, hloops⟩
    · exact absurd (congrArg (·.map (·.name)) hstays.params) (by decide)
    · exact ⟨_, _, _, loop, rfl, hloops⟩
  · rcases hdart 8 (.ofFile bareFile) (some "f") [flag "a", flag "b"] swapBody swapState _ _ _ _ rfl
      with ⟨-, hstays⟩ | ⟨loop, _, -, hloops⟩
    · obtain ⟨tys, -, hps⟩ := hstays.params
      cases tys with
      | nil => cases hps
      | cons ty tys =>
        have hname : "a_mut" = "a" :=
          congrArg Dart.Ident.name (List.cons.inj hps).1
        exact absurd hname (by decide)
    · exact ⟨_, _, _, _, loop, rfl, hloops⟩

end TypedLowering
