import TypedLowering.Proofs.Dart.Control

/-!
# Lowered functions

A function is lowered in one of two ways. If no self call becomes a jump, its body is that of the
source, without jumps. Otherwise (`BecomesLoop`) it is a loop over the body, and its parameters are
the slots (`function_spec`).
-/

namespace TypedLowering.Dart

open Control Lower

/-- The strategy of a function body returns unless the value has the unit type. -/
theorem returns_ofType {ε : Type} (isUnit : Bool) :
    (Strategy.ofType isUnit : Strategy ε).returns = !isUnit := by
  cases isUnit <;> rfl

/-- The copy of a slot with which an iteration begins. -/
def copy : Ir.Ident × String → Ty → Stmt
  | (p, slot), ty => .declare (.own p.name ty) .final (some (.ident (.own slot ty)))

/-- The body of a function that became a loop: the copies of the slots, the statements of the
source, and the break of a function that does not return its value. -/
def iteration (copies : List Stmt) (isUnit : Bool) (body : List Stmt) : List Stmt :=
  copies ++ body ++ if isUnit then [.breakTo none] else []

theorem loopBody_eq (loop : TailCall) (isUnit : Bool) (copies body : List Stmt) :
    Parts.loopBody loop (.ofType isUnit) copies body =
      [.labeled loop.label
        (.whileLoop (.literal (.bool true)) (iteration copies isUnit body))] := by
  cases isUnit <;> rfl

theorem flows_iteration (copies : List Stmt) (isUnit : Bool) (body : List Stmt) :
    flows (iteration copies isUnit body) =
      flows (copies ++ body) ++ if !isUnit then [] else [.breakTo none] := by
  cases isUnit <;> simp [iteration, Stmt.flow]

/-- The copies and the statements of the source obey as these do. -/
theorem copies_append_obey {ret : Bool} {J : Jumps Stmt Expr} {body : List Stmt}
    (slots : List (Ir.Ident × String)) (tys : List Ty) (h : Obeys ret J (flows body)) :
    Obeys ret J (flows (List.zipWith copy slots tys ++ body)) := by
  rw [flows_append]
  refine .append ?_ h
  induction slots generalizing tys with
  | nil => exact .nil
  | cons slot slots ih =>
    cases tys with
    | nil => exact .nil
    | cons ty tys => exact .cons (.step _) (ih tys)

variable {n : Nat} {file : SourceFile} {ctx : Context} {name : Option String}
  {params : List Ir.Ident} {body : Ir.Expr} {s t : LowerState} {ps : List Ident}
  {stmts : List Stmt} {ret : Ty}

/-- Whether a type is lowered to another one, at some point of the lowering. -/
def LowersTo (file : SourceFile) (ty : Ir.Ty) (ty' : Ty) : Prop :=
  ∃ s t, lowerType file ty s = (.ok ty', t)

/-- The slots become the parameters, and the copies are in the same order. -/
theorem loopParams_spec {slots : List (Ir.Ident × String)} {copies : List Stmt}
    (h : Parts.loopParams file slots s = (.ok (ps, copies), t)) :
    ∃ tys, List.Forall₂ (fun b => LowersTo file b.1.ty) slots tys ∧
      ps = List.zipWith (fun b ty => .own b.2 ty) slots tys ∧
      copies = List.zipWith copy slots tys := by
  induction slots generalizing s t ps copies with
  | nil =>
    obtain ⟨h, -⟩ := pure_eq_ok.1 h
    obtain ⟨rfl, rfl⟩ := Prod.mk.inj h
    exact ⟨[], .nil, rfl, rfl⟩
  | cons slot slots ih =>
    simp only [Parts.loopParams, bind_eq_ok, pure_eq_ok, Prod.mk.injEq] at h
    obtain ⟨ty, _, hty, ⟨ps, copies⟩, _, hrest, ⟨rfl, rfl⟩, -⟩ := h
    obtain ⟨tys, htys, rfl, rfl⟩ := ih hrest
    exact ⟨ty :: tys, .cons ⟨_, _, hty⟩ htys, rfl, rfl⟩

/-- Identifiers keep their names. -/
theorem lowerIdents_spec {ids : List Ir.Ident} (h : lowerIdents file ids s = (.ok ps, t)) :
    ∃ tys, List.Forall₂ (fun id => LowersTo file id.ty) ids tys ∧
      ps = List.zipWith (fun id ty => .own id.name ty) ids tys := by
  induction ids generalizing s t ps with
  | nil =>
    obtain ⟨rfl, -⟩ := pure_eq_ok.1 h
    exact ⟨[], .nil, rfl⟩
  | cons id ids ih =>
    simp only [lowerIdents, lowerIdent, bind_eq_ok, pure_eq_ok] at h
    obtain ⟨_, _, ⟨ty, _, hty, rfl, rfl⟩, ps, _, hrest, rfl, -⟩ := h
    obtain ⟨tys, htys, rfl⟩ := ih hrest
    exact ⟨ty :: tys, .cons ⟨_, _, hty⟩ htys, rfl⟩

/-- Whether a self call in the body becomes a jump: `loop` is allocated for the function, the body
is lowered to the statements `inner` with it, and then the note that the loop is used is set. -/
def BecomesLoop (n : Nat) (ctx : Context) (name : Option String) (params : List Ir.Ident)
    (body : Ir.Expr) (s : LowerState) (loop : TailCall) (inner : List Stmt) : Prop :=
  ∃ label ret s₁ u v, name = some label ∧ declaredParams params ≠ [] ∧
    lowerType ctx.file body.type s = (.ok ret, s₁) ∧
    allocateTailCall label (declaredParams params) s₁ = (.ok loop, u) ∧
    (rules n).stmts (ctx.withTailCall loop) (.ofType body.type.isUnit) body
      { u with looped := false } = (.ok inner, v) ∧ v.looped = true

/-- How a function is lowered. -/
theorem function_spec
    (h : (rules n).function ctx name params body s = (.ok (ps, stmts, ret), t)) :
    ((¬ ∃ loop inner, BecomesLoop n ctx name params body s loop inner) ∧
      Obeys (!body.type.isUnit) noJumps (flows stmts) ∧ ∃ tys,
        List.Forall₂ (fun p => LowersTo ctx.file p.ty) (declaredParams params) tys ∧
        ps = List.zipWith (fun p ty => .own p.name ty) (declaredParams params) tys) ∨
    ∃ loop inner tys, BecomesLoop n ctx name params body s loop inner ∧
      List.Forall₂ (fun b => LowersTo ctx.file b.1.ty) loop.bindings tys ∧
      stmts = Parts.loopBody loop (.ofType body.type.isUnit)
        (List.zipWith copy loop.bindings tys) inner ∧
      ps = List.zipWith (fun b ty => .own b.2 ty) loop.bindings tys := by
  have hplain : ∀ {ctx u v stmts},
      (rules n).stmts ctx (.ofType body.type.isUnit) body u = (.ok stmts, v) →
      (ctx.tailCall = none ∨ v.looped = false) →
      Obeys (!body.type.isUnit) noJumps (flows stmts) := by
    intro ctx u v stmts hstmts hnone
    rw [← returns_ofType (ε := Expr)]
    refine ((rules_obey n).stmts hstmts).mono fun _ _ hJ => ?_
    rcases hnone with hnone | hnone
    · exact not_selfCalls hnone hJ
    · exact Bool.false_ne_true (hnone.symm.trans (selfCalls_label hJ).2)
  cases name with
  | none =>
    simp only [Parts.function, bind_eq_ok, pure_eq_ok, Prod.mk.injEq] at h
    obtain ⟨_, _, -, _, _, hstmts, _, _, hids, ⟨rfl, rfl, -⟩, -⟩ := h
    refine .inl ⟨?_, hplain hstmts (.inl rfl), lowerIdents_spec hids⟩
    rintro ⟨_, _, _, _, _, _, _, ⟨⟩, -⟩
  | some label =>
    unfold Parts.function at h
    cases hps : declaredParams params with
    | nil =>
      simp only [hps, bind_eq_ok, pure_eq_ok, Prod.mk.injEq] at h
      obtain ⟨_, _, -, _, _, hstmts, _, _, hids, ⟨rfl, rfl, -⟩, -⟩ := h
      refine .inl ⟨?_, hplain hstmts (.inl rfl), lowerIdents_spec hids⟩
      rintro ⟨_, _, _, _, _, _, _, -, hne, -⟩
      exact hne hps
    | cons p rest =>
      simp only [hps, bind_eq_ok] at h
      obtain ⟨_, s₁, htype, loop, u, hloop, ⟨inner, looped⟩, w, hfunction, h⟩ := h
      obtain ⟨v, hinner, rfl, rfl⟩ := inFunction_eq_ok.1 hfunction
      dsimp only at h
      cases hlooped : v.looped with
      | false =>
        simp only [hlooped, Bool.false_eq_true, if_false, bind_eq_ok, pure_eq_ok,
          Prod.mk.injEq] at h
        obtain ⟨_, _, hids, ⟨rfl, rfl, -⟩, -⟩ := h
        refine .inl ⟨?_, hplain hinner (.inr hlooped), lowerIdents_spec hids⟩
        rintro ⟨loop', inner', label', _, _, u', v', ⟨⟩, -, htype', hloop', hinner', hlooped'⟩
        rw [htype, Prod.mk.injEq] at htype'
        obtain ⟨-, rfl⟩ := htype'
        rw [hps, hloop, Prod.mk.injEq, Except.ok.injEq] at hloop'
        obtain ⟨rfl, rfl⟩ := hloop'
        rw [hinner, Prod.mk.injEq] at hinner'
        rw [hinner'.2, hlooped'] at hlooped
        cases hlooped
      | true =>
        simp only [hlooped, if_true, bind_eq_ok, pure_eq_ok, Prod.mk.injEq] at h
        obtain ⟨⟨slots, copies⟩, _, hslots, ⟨rfl, rfl, -⟩, -⟩ := h
        obtain ⟨tys, htys, rfl, rfl⟩ := loopParams_spec hslots
        refine .inr ⟨loop, inner, tys, ⟨label, _, s₁, u, v, rfl, ?_, htype, hps ▸ hloop, hinner,
          hlooped⟩, htys, rfl, rfl⟩
        rw [hps]
        exact List.cons_ne_nil _ _

/-- The statements of the source in a loop: their jumps are self calls. -/
theorem BecomesLoop.obeys {loop : TailCall} {inner : List Stmt}
    (h : BecomesLoop n ctx name params body s loop inner) :
    ∃ label s₁ u v, name = some label ∧ Grows s s₁ ∧
      allocateTailCall label (declaredParams params) s₁ = (.ok loop, u) ∧
      ∀ tys, Obeys (!body.type.isUnit) (selfCalls writes true (ctx.withTailCall loop) body
        { u with looped := false } v) (flows (List.zipWith copy loop.bindings tys ++ inner)) := by
  obtain ⟨label, _, s₁, u, v, hname, -, htype, hloop, hinner, -⟩ := h
  have hobeys := (rules_obey n).stmts hinner
  rw [returns_ofType] at hobeys
  exact ⟨label, s₁, u, v, hname, (below_lowerType _ _).grows htype, hloop,
    fun tys => copies_append_obey _ tys (hobeys.mono fun _ _ hJ => ⟨rfl, hJ.2⟩)⟩

end TypedLowering.Dart
