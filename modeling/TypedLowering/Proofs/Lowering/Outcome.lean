import Mathlib.Data.List.Forall2
import TypedLowering.Lowering.Inlining
import TypedLowering.Proofs.Names.Fresh

/-!
# Opening successful computations

What a computation that succeeded did, step by step: a `do` block gave a result exactly if each of
its steps did, one from the state that the other left. What holds of all results of its steps holds
of its own (`Produces`).
-/

namespace TypedLowering.Lower

variable {α β : Type} {s t : LowerState}

/-- A result that is given leaves the state as it is. -/
@[simp] theorem pure_eq_ok {a b : α} : (pure a : Lower α) s = (.ok b, t) ↔ a = b ∧ s = t := by
  rw [pure_apply, Prod.mk.injEq, Except.ok.injEq]

/-- A sequence gives a result if both of its parts do, the second from the state of the first. -/
@[simp] theorem bind_eq_ok {m : Lower α} {f : α → Lower β} {b : β} :
    (m >>= f) s = (.ok b, t) ↔ ∃ a u, m s = (.ok a, u) ∧ f a u = (.ok b, t) := by
  refine ⟨fun h => ?_, fun ⟨a, u, hm, hf⟩ => by rwa [bind_ok hm]⟩
  rcases hm : m s with ⟨e | a, u⟩
  · rw [bind_error hm] at h
    cases h
  · rw [bind_ok hm] at h
    exact ⟨a, u, rfl, h⟩

/-- A failure gives no result. -/
@[simp] theorem fail_ne_ok {e : LowerError} {a : α} : ¬ (fail e : Lower α) s = (.ok a, t) :=
  nofun

/-- An outcome that is no failure is a result. -/
@[simp] theorem ofExcept_eq_ok {r : Except LowerError α} {a : α} :
    ofExcept r s = (.ok a, t) ↔ r = .ok a ∧ s = t := by
  rw [ofExcept, Prod.mk.injEq]

/-- A value that may be missing is a result if it is there. -/
@[simp] theorem ofOption_eq_ok {e : LowerError} {o : Option α} {a : α} :
    ofOption e o s = (.ok a, t) ↔ o = some a ∧ s = t := by
  cases o with
  | none => exact ⟨nofun, nofun⟩
  | some b => rw [ofOption, pure_eq_ok, Option.some.injEq]

/-- What is read off the state is the result. -/
@[simp] theorem read_eq_ok {f : LowerState → α} {a : α} :
    read f s = (.ok a, t) ↔ f s = a ∧ s = t := by
  rw [read, Prod.mk.injEq, Except.ok.injEq]

/-- Asking whether a node needs statements gives the answer of the classification. -/
@[simp] theorem isStatement_eq_ok {ctx : Context} {prefer : Bool} {e : Ir.Expr} {b : Bool} :
    isStatement ctx prefer e s = (.ok b, t) ↔
      TypedLowering.isStatement ctx prefer e = .ok b ∧ s = t :=
  ofExcept_eq_ok

/-- Marking the loop changes the mark and nothing else. -/
@[simp] theorem markLooped_eq_ok {u : Unit} :
    markLooped s = (.ok u, t) ↔ { s with looped := true } = t := by
  simp only [markLooped, Prod.mk.injEq, true_and]

/-- A function is lowered with a note of its own, and the note about the function around it is
kept. -/
theorem inFunction_eq_ok {m : Lower α} {a : α} {looped : Bool} :
    inFunction m s = (.ok (a, looped), t) ↔
      ∃ u, m { s with looped := false } = (.ok a, u) ∧ u.looped = looped ∧
        { u with looped := s.looped } = t := by
  rw [inFunction]
  rcases m { s with looped := false } with ⟨e | b, u⟩
  · exact ⟨nofun, nofun⟩
  · simp only [Prod.mk.injEq, Except.ok.injEq]
    constructor
    · rintro ⟨⟨rfl, rfl⟩, rfl⟩
      exact ⟨u, ⟨rfl, rfl⟩, rfl, rfl⟩
    · rintro ⟨_, ⟨rfl, rfl⟩, rfl, rfl⟩
      exact ⟨⟨rfl, rfl⟩, rfl⟩

/-- What is innermost when the handler is left is popped. -/
theorem inHandler_eq_ok {param : String} {m : Lower α} {a : α} :
    inHandler param m s = (.ok a, t) ↔
      ∃ u, m { s with caught := param :: s.caught } = (.ok a, u) ∧
        { u with caught := u.caught.tail } = t := by
  simp only [inHandler, Prod.mk.injEq]
  constructor
  · rintro ⟨ha, rfl⟩
    exact ⟨_, Prod.ext ha rfl, rfl⟩
  · rintro ⟨u, hm, rfl⟩
    rw [hm]
    exact ⟨rfl, rfl⟩

/-- A call is left alone, or its callee is an inline function that takes its arguments and it is
replaced by the body of this function with new parameters. -/
theorem expandInline_cases (file : SourceFile) (callee : Ir.Expr) (args : List Ir.Expr)
    (s : LowerState) :
    (∃ journal, expandInline file callee args s = (.ok none, { s with journal })) ∨
      ∃ ref inline fresh names, (∃ ty loc, callee.uncast = .imported ref ty loc) ∧
        file.settings.inline? ref.selector = some inline ∧ inline.args.length = args.length ∧
        freshParams s.names inline.args = (fresh, names) ∧
        expandInline file callee args s = (.ok (some (bindParams fresh args
          (inline.body.rename (paramRenaming inline.args fresh)))), { s with names }) := by
  unfold expandInline
  split
  · split
    · exact .inl ⟨_, rfl⟩
    · split
      · exact .inl ⟨_, rfl⟩
      · split
        · exact .inl ⟨_, rfl⟩
        · rename_i hlength
          exact .inr ⟨_, _, _, _, ⟨_, _, ‹_›⟩, ‹_›, Decidable.not_not.1 hlength, rfl, rfl⟩
  · exact .inl ⟨_, rfl⟩

/-! ## Results -/

/-- Whether all results of a computation are as stated. -/
def Produces (m : Lower α) (R : α → Prop) : Prop :=
  ∀ s a t, m s = (.ok a, t) → R a

namespace Produces

variable {m : Lower α} {R : α → Prop}

/-- Every result is a result. -/
theorem any (m : Lower α) : Produces m fun _ => True :=
  fun _ _ _ _ => trivial

/-- A result that is given is as stated. -/
theorem pure {a : α} (h : R a) : Produces (Pure.pure a) R := by
  intro s b t hb
  obtain ⟨rfl, -⟩ := pure_eq_ok.1 hb
  exact h

/-- The second of two computations may use what the first one produces. -/
theorem bind {f : α → Lower β} {S : β → Prop} (hm : Produces m R)
    (hf : ∀ a, R a → Produces (f a) S) : Produces (m >>= f) S := by
  intro s b t h
  obtain ⟨a, u, hma, hfa⟩ := bind_eq_ok.1 h
  exact hf a (hm s a u hma) u b t hfa

/-- A result that is given is handed on. -/
theorem pure_bind {a : α} {f : α → Lower β} {S : β → Prop} (h : Produces (f a) S) :
    Produces (Pure.pure a >>= f) S := by
  refine bind (pure (R := (· = a)) rfl) fun b hb => ?_
  rwa [hb]

/-- A failure produces nothing. -/
theorem fail (e : LowerError) : Produces (.fail e) R :=
  fun _ _ _ h => absurd h fail_ne_ok

/-- A value that may be missing is as stated if it is there. -/
theorem ofOption (e : LowerError) {o : Option α} (h : ∀ a, o = some a → R a) :
    Produces (.ofOption e o) R :=
  fun _ a _ ha => h a (ofOption_eq_ok.1 ha).1

/-- A choice may use its condition. -/
theorem ite {c : Prop} [Decidable c] {n : Lower α} (hm : c → Produces m R)
    (hn : ¬ c → Produces n R) : Produces (if c then m else n) R := by
  split
  · exact hm ‹_›
  · exact hn ‹_›

/-- A function produces what its body does. -/
theorem inFunction (h : Produces m R) : Produces (.inFunction m) fun r => R r.1 := by
  rintro s ⟨a, looped⟩ t hm
  obtain ⟨u, hma, -, -⟩ := inFunction_eq_ok.1 hm
  exact h _ a u hma

/-- A declaration produces what is lowered in it. -/
theorem inDeclaration (used : List String) (h : Produces m R) :
    Produces (.inDeclaration used m) R := by
  intro s a t ha
  exact h { s with names := (s.names.enter used).2 } a _ (Prod.ext (Prod.mk.inj ha).1 rfl)

end Produces

end TypedLowering.Lower

/-!
## Expanded calls

A call that is expanded has an imported callee, and the inline function takes its arguments, one for
each parameter. The parameters get new names.
-/

namespace TypedLowering

open Ir (Expr Ident)

/-- Parameters that differ from others at most in their names, which are new, and the names that are
in use together with them. -/
structure FreshParams (names : Scopes) (params fresh : List Ident) (names' : Scopes) : Prop where
  renamed : List.Forall₂ (fun p q => q = { p with name := q.name }) params fresh
  distinct : (fresh.map (·.name)).Nodup
  isNew : ∀ x ∈ fresh.map (·.name), x ∉ names.reserved ∧ ¬names.IsTaken x
  unchanged : names' = { names with current := names'.current }
  current : ∀ x, x ∈ names'.current ↔ x ∈ fresh.map (·.name) ∨ x ∈ names.current

/-- The parameters of an expansion get new names that differ. -/
theorem freshParams_spec {names names' : Scopes} {params fresh : List Ident}
    (h : freshParams names params = (fresh, names')) : FreshParams names params fresh names' := by
  induction params generalizing names fresh names' with
  | nil =>
    cases h
    exact ⟨.nil, List.nodup_nil, nofun, rfl, fun x => by simp⟩
  | cons p ps ih =>
    have hps : FreshParams (names.allocateLocal p.name).2 ps _ _ := ih rfl
    have hnew := names.allocateLocal_not_isTaken p.name
    obtain ⟨rfl, rfl⟩ := Prod.mk.inj h
    refine ⟨.cons rfl hps.renamed, List.nodup_cons.2 ⟨fun hmem => ?_, hps.distinct⟩, ?_,
      hps.unchanged, fun x => (hps.current x).trans ?_⟩
    · exact (hps.isNew _ hmem).2 (Scopes.allocateLocal_isTaken.2 (.inr rfl))
    · refine List.forall_mem_cons.2
        ⟨⟨names.allocateLocal_not_reserved p.name, hnew⟩, fun x hx => ?_⟩
      obtain ⟨hx, htaken⟩ := hps.isNew x hx
      exact ⟨hx, mt (fun h => Scopes.allocateLocal_isTaken.2 (.inl h)) htaken⟩
    · rw [List.map_cons, List.mem_cons, Scopes.allocateLocal, Scopes.mem_insert, or_left_comm,
        or_assoc]

/-- Names that are taken stay taken. -/
theorem FreshParams.isTaken {names names' : Scopes} {params fresh : List Ident}
    (h : FreshParams names params fresh names') (x : String) (hx : names.IsTaken x) :
    names'.IsTaken x := by
  refine hx.imp (fun hx => ?_) fun hx => (h.current x).2 (.inr hx)
  rw [h.unchanged]
  exact hx

/-- A call is expanded to the body of an inline function that takes its arguments. -/
structure Expands (file : SourceFile) (callee : Expr) (args : List Expr) (s : LowerState)
    (expanded : Expr) (inline : InlineFunction) (fresh : List Ident) : Prop where
  isImported : ∃ ref ty loc, callee.uncast = .imported ref ty loc
  isInline : ∃ name, file.settings.inline? name = some inline
  isFresh : ∃ names, freshParams s.names inline.args = (fresh, names)
  length : fresh.length = args.length
  eq : expanded = bindParams fresh args (inline.body.rename (paramRenaming inline.args fresh))

/-- A call that is expanded is one of an inline function with as many arguments as parameters. -/
theorem expandInline_expands {file : SourceFile} {callee expanded : Expr} {args : List Expr}
    {s t : LowerState} (h : expandInline file callee args s = (.ok (some expanded), t)) :
    ∃ inline fresh, Expands file callee args s expanded inline fresh := by
  rcases Lower.expandInline_cases file callee args s with
    ⟨_, heq⟩ | ⟨ref, inline, fresh, names, ⟨ty, loc, hcallee⟩, hinline, hlength, hfresh, heq⟩
  · rw [heq] at h
    cases h
  · rw [heq] at h
    cases h
    exact ⟨inline, fresh, ⟨ref, ty, loc, hcallee⟩, ⟨_, hinline⟩, ⟨names, hfresh⟩,
      (freshParams_spec hfresh).renamed.length_eq.symm.trans hlength, rfl⟩

end TypedLowering
