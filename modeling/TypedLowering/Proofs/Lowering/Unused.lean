import TypedLowering.Proofs.Lowering.Growth
import TypedLowering.Proofs.Lowering.Outcome

/-!
# Names that do not come up

A name that is in use besides (`withTaken`) makes no difference to what is allocated, as long as it
is not the name that would have been allocated.
-/

namespace TypedLowering

namespace Names

variable {taken : List String} {x name : String}

/-- A name that was not chosen does not change the choice when it is taken. -/
theorem preventConflicts_append_singleton (hx : preventConflicts taken name ≠ x) :
    preventConflicts (taken ++ [x]) name = preventConflicts taken name := by
  obtain ⟨k, heq, hfree, htaken⟩ := preventConflicts_first taken name
  rw [heq] at hx ⊢
  have hfree : candidate name k ∉ taken ++ [x] :=
    List.mem_append.not.2 (not_or.2 ⟨hfree, fun h => hx (List.mem_singleton.1 h)⟩)
  exact preventConflicts_eq hfree fun i hi => List.mem_append_left _ (htaken i hi)

end Names

namespace Scopes

/-- The scopes with one more name in use. -/
def withTaken (s : Scopes) (x : String) : Scopes :=
  { s with current := s.current ++ [x] }

variable {s : Scopes} {x candidate : String}

/-- One more name is in use. -/
@[simp] theorem withTaken_isTaken {y : String} :
    (s.withTaken x).IsTaken y ↔ s.IsTaken y ∨ y = x := by
  rw [IsTaken, withTaken, List.mem_append, List.mem_singleton, ← or_assoc]
  rfl

/-- A name is inserted in front of one that stands last. -/
theorem insert_append_singleton {name : String} (names : List String) (h : name ≠ x) :
    insert name (names ++ [x]) = insert name names ++ [x] := by
  by_cases hname : name ∈ names
  · rw [insert, insert, if_pos hname, if_pos (List.mem_append_left _ hname)]
  · rw [insert, insert, if_neg hname, if_neg, List.cons_append]
    exact List.mem_append.not.2 (not_or.2 ⟨hname, fun hmem => h (List.mem_singleton.1 hmem)⟩)

/-- A local name is allocated as before if it is not the name in use besides. -/
theorem allocateLocal_withTaken (h : (s.allocateLocal candidate).1 ≠ x) :
    (s.withTaken x).allocateLocal candidate =
      ((s.allocateLocal candidate).1, (s.allocateLocal candidate).2.withTaken x) := by
  have hname : ((s.withTaken x).allocateLocal candidate).1 = (s.allocateLocal candidate).1 := by
    show Names.preventConflicts (s.reserved ++ s.root ++ (s.current ++ [x])) _ = _
    rw [← List.append_assoc]
    exact Names.preventConflicts_append_singleton h
  refine Prod.ext hname ?_
  show Scopes.mk _ _ (insert ((s.withTaken x).allocateLocal candidate).1 _) _ = _
  rw [hname]
  exact congrArg (Scopes.mk _ _ · _) (insert_append_singleton s.current h)

/-- A root name is allocated as before if it is not the name in use besides. -/
theorem allocateRoot_withTaken (h : (s.allocateRoot candidate).1 ≠ x) :
    (s.withTaken x).allocateRoot candidate =
      ((s.allocateRoot candidate).1, (s.allocateRoot candidate).2.withTaken x) := by
  have hname : ((s.withTaken x).allocateRoot candidate).1 = (s.allocateRoot candidate).1 := by
    show Names.preventConflicts (s.reserved ++ s.root ++ s.closed ++ (s.current ++ [x])) _ = _
    rw [← List.append_assoc]
    exact Names.preventConflicts_append_singleton h
  refine Prod.ext hname ?_
  show Scopes.mk (insert ((s.withTaken x).allocateRoot candidate).1 _) _ _ _ = _
  rw [hname]
  rfl

/-- A local name that was allocated was not the one that is free afterwards. -/
theorem allocateLocal_ne (h : ¬ (s.allocateLocal candidate).2.IsTaken x) :
    (s.allocateLocal candidate).1 ≠ x :=
  fun heq => h (allocateLocal_isTaken.2 (.inr heq.symm))

/-- A name that is not in use afterwards was not allocated. -/
theorem allocateRoot_ne (h : ¬ (s.allocateRoot candidate).2.IsTaken x) :
    (s.allocateRoot candidate).1 ≠ x :=
  fun heq => h (allocateRoot_isTaken.2 (.inr heq.symm))

end Scopes

/-! ## Allocations of lowering -/

variable {names names' : Scopes} {x : String}

namespace ImportTable

variable {t t' : ImportTable} {path selector name : String}

/-- A library is imported as before if its alias is not the name in use besides. -/
theorem importWhole_withTaken (h : t.importWhole names path = (name, t', names'))
    (hx : ¬ names'.IsTaken x) :
    t.importWhole (names.withTaken x) path = (name, t', names'.withTaken x) := by
  rw [importWhole] at h ⊢
  cases hfound : (t.lookup path).bind (·.whole) with
  | some known =>
    simp only [hfound] at h ⊢
    obtain ⟨rfl, rfl, rfl⟩ := h
    rfl
  | none =>
    simp only [hfound] at h ⊢
    obtain ⟨rfl, rfl, rfl⟩ := h
    rw [Scopes.allocateRoot_withTaken (Scopes.allocateRoot_ne hx)]

/-- A member is imported as before if its alias is not the name in use besides. -/
theorem importMember_withTaken (h : t.importMember names path selector = (name, t', names'))
    (hx : ¬ names'.IsTaken x) :
    t.importMember (names.withTaken x) path selector = (name, t', names'.withTaken x) := by
  rw [importMember] at h ⊢
  split at h
  · rename_i hstar
    rw [if_pos hstar]
    exact importWhole_withTaken h hx
  · rename_i hstar
    rw [if_neg hstar]
    cases hfound : (t.lookup path).bind fun m => m.members.find? (·.1 == selector) with
    | some known =>
      simp only [hfound] at h ⊢
      obtain ⟨rfl, rfl, rfl⟩ := h
      rfl
    | none =>
      simp only [hfound] at h ⊢
      obtain ⟨rfl, rfl, rfl⟩ := h
      rw [Scopes.allocateRoot_withTaken (Scopes.allocateRoot_ne hx)]

end ImportTable

/-- Slots are allocated as before if none is the name in use besides. -/
theorem TailCall.allocateSlots_withTaken {params : List Ir.Ident} {slots : List String}
    (h : allocateSlots names params = (slots, names')) (hx : ¬ names'.IsTaken x) :
    allocateSlots (names.withTaken x) params = (slots, names'.withTaken x) := by
  induction params generalizing names slots names' with
  | nil =>
    obtain ⟨rfl, rfl⟩ := h
    rfl
  | cons p ps ih =>
    obtain ⟨rfl, rfl⟩ := h
    have hslots : allocateSlots (names.allocateLocal (p.name ++ "_mut")).2 ps = (_, _) := rfl
    have hfirst := Scopes.allocateLocal_ne (mt ((allocateSlots_isTaken hslots).1 x) hx)
    rw [allocateSlots, Scopes.allocateLocal_withTaken hfirst]
    exact congrArg (fun r : List String × Scopes => (_ :: r.1, r.2)) (ih hslots hx)

/-- Parameters are renamed as before if no new name is the name in use besides. -/
theorem freshParams_withTaken {params fresh : List Ir.Ident}
    (h : freshParams names params = (fresh, names')) (hx : ¬ names'.IsTaken x) :
    freshParams (names.withTaken x) params = (fresh, names'.withTaken x) := by
  induction params generalizing names fresh names' with
  | nil =>
    obtain ⟨rfl, rfl⟩ := h
    rfl
  | cons p ps ih =>
    obtain ⟨rfl, rfl⟩ := h
    have hps : freshParams (names.allocateLocal p.name).2 ps = (_, _) := rfl
    have hfirst := Scopes.allocateLocal_ne (mt ((freshParams_spec hps).isTaken x) hx)
    rw [freshParams, Scopes.allocateLocal_withTaken hfirst]
    exact congrArg (fun r : List Ir.Ident × Scopes => (_ :: r.1, r.2)) (ih hps hx)

/-- The state with one more name in use. -/
def LowerState.withTaken (s : LowerState) (x : String) : LowerState :=
  { s with names := s.names.withTaken x }

/-- A call is expanded as before if no new name is the name in use besides. -/
theorem Lower.expandInline_withTaken {file : SourceFile} {callee : Ir.Expr} {args : List Ir.Expr}
    {s t : LowerState} {e : Option Ir.Expr} (h : expandInline file callee args s = (.ok e, t))
    (hx : ¬ t.names.IsTaken x) :
    expandInline file callee args (s.withTaken x) = (.ok e, t.withTaken x) := by
  unfold expandInline at h ⊢
  split at h
  · split at h
    · obtain ⟨rfl, rfl⟩ := h
      rfl
    · split at h
      · rename_i hpending
        obtain ⟨rfl, rfl⟩ := h
        rw [if_pos hpending]
        rfl
      · rename_i hpending
        rw [if_neg hpending]
        split at h
        · rename_i hlength
          obtain ⟨rfl, rfl⟩ := h
          rw [if_pos hlength]
          rfl
        · rename_i hlength
          obtain ⟨rfl, rfl⟩ := h
          rw [if_neg hlength, LowerState.withTaken, freshParams_withTaken rfl hx]
          rfl
  · obtain ⟨rfl, rfl⟩ := h
    rfl

end TypedLowering
