import TypedLowering.Proofs.Lowering.Outcome
import TypedLowering.Proofs.Names.Fresh

/-!
# The state only grows

Lowering takes names and collects imports, and never gives any back: `Grows` says so of two states.
A name that is taken stays taken, and no alias that comes later is called like it.
-/

namespace TypedLowering

namespace ModuleImports

/-- The local names of what is imported from the path. -/
def aliases (m : ModuleImports) : List String :=
  m.whole.toList ++ m.members.map (·.2)

end ModuleImports

namespace ImportTable

/-- The local names of all imports. -/
def aliases (t : ImportTable) : List String :=
  t.flatMap ModuleImports.aliases

theorem mem_aliases_of_lookup {t : ImportTable} {path x : String} {m : ModuleImports}
    (hm : t.lookup path = some m) (hx : x ∈ m.aliases) : x ∈ t.aliases :=
  List.mem_flatMap.2 ⟨m, List.mem_of_find?_eq_some hm, hx⟩

/-- An update that adds one name adds no other name to the table. -/
theorem mem_aliases_update {t : ImportTable} {path name x : String}
    {f : ModuleImports → ModuleImports}
    (hf : ∀ m : ModuleImports, x ∈ (f m).aliases → x ∈ m.aliases ∨ x = name)
    (hx : x ∈ (t.update path f).aliases) : x ∈ t.aliases ∨ x = name := by
  rw [update] at hx
  split at hx
  · obtain ⟨m', hm', hx⟩ := List.mem_flatMap.1 hx
    obtain ⟨m, hm, rfl⟩ := List.mem_map.1 hm'
    split at hx
    · exact (hf m hx).imp_left fun hx => List.mem_flatMap.2 ⟨m, hm, hx⟩
    · exact .inl (List.mem_flatMap.2 ⟨m, hm, hx⟩)
  · rw [aliases, List.flatMap_append, List.mem_append] at hx
    refine hx.imp_right fun hx => ?_
    rw [List.flatMap_singleton] at hx
    exact (hf _ hx).resolve_left List.not_mem_nil

/-- The alias of a whole module is one of the aliases from before, or it is new, and then it is
taken as a root name. -/
theorem importWhole_spec {t t' : ImportTable} {names names' : Scopes} {path name : String}
    (h : t.importWhole names path = (name, t', names')) :
    (name ∈ t.aliases ∧ t' = t ∧ names' = names) ∨
      ∃ candidate, names.allocateRoot candidate = (name, names') ∧
        ∀ x ∈ t'.aliases, x ∈ t.aliases ∨ x = name := by
  rw [importWhole] at h
  split at h
  · rename_i known hfound
    obtain ⟨m, hm, hwhole⟩ := Option.bind_eq_some_iff.1 hfound
    obtain ⟨rfl, rfl, rfl⟩ := h
    refine .inl ⟨mem_aliases_of_lookup hm ?_, rfl, rfl⟩
    rw [ModuleImports.aliases, hwhole]
    exact List.mem_append_left _ List.mem_cons_self
  · obtain ⟨rfl, rfl, rfl⟩ := h
    refine .inr ⟨pathStem path, rfl, fun x => mem_aliases_update fun m hx => ?_⟩
    rcases List.mem_append.1 hx with hx | hx
    · exact .inr (List.mem_singleton.1 hx)
    · exact .inl (List.mem_append_right _ hx)

/-- The same of the alias of a member. -/
theorem importMember_spec {t t' : ImportTable} {names names' : Scopes}
    {path selector name : String} (h : t.importMember names path selector = (name, t', names')) :
    (name ∈ t.aliases ∧ t' = t ∧ names' = names) ∨
      ∃ candidate, names.allocateRoot candidate = (name, names') ∧
        ∀ x ∈ t'.aliases, x ∈ t.aliases ∨ x = name := by
  rw [importMember] at h
  split at h
  · exact importWhole_spec h
  · split at h
    · rename_i known hfound
      obtain ⟨m, hm, hmember⟩ := Option.bind_eq_some_iff.1 hfound
      obtain ⟨rfl, rfl, rfl⟩ := h
      refine .inl ⟨mem_aliases_of_lookup hm (List.mem_append_right _ ?_), rfl, rfl⟩
      exact List.mem_map.2 ⟨_, List.mem_of_find?_eq_some hmember, rfl⟩
    · obtain ⟨rfl, rfl, rfl⟩ := h
      refine .inr ⟨_, rfl, fun x => mem_aliases_update fun m hx => ?_⟩
      rw [ModuleImports.aliases, List.map_append, ← List.append_assoc, List.mem_append] at hx
      exact hx.imp_right List.mem_singleton.1

end ImportTable

/-! ## Growth -/

/-- What lowering may do to the state. -/
structure Grows (s t : LowerState) : Prop where
  looped : s.looped = true → t.looped = true
  caught : t.caught = s.caught
  taken : ∀ x, s.names.IsTaken x → t.names.IsTaken x
  /-- An alias that is added was not taken. -/
  aliases : ∀ x ∈ t.imports.aliases, x ∈ s.imports.aliases ∨ ¬ s.names.IsTaken x
  rooted : (∀ x ∈ s.imports.aliases, x ∈ s.names.root) → ∀ x ∈ t.imports.aliases, x ∈ t.names.root

namespace Grows

variable {s t u : LowerState}

theorem refl (s : LowerState) : Grows s s :=
  ⟨id, rfl, fun _ => id, fun _ => .inl, id⟩

theorem trans (h : Grows s t) (h' : Grows t u) : Grows s u where
  looped := h'.looped ∘ h.looped
  caught := h'.caught.trans h.caught
  taken x := h'.taken x ∘ h.taken x
  aliases x hx := by
    rcases h'.aliases x hx with hx | hx
    · exact h.aliases x hx
    · exact .inr (mt (h.taken x) hx)
  rooted := h'.rooted ∘ h.rooted

/-- Taking names. -/
theorem of_names {names : Scopes} (htaken : ∀ x, s.names.IsTaken x → names.IsTaken x)
    (hroot : ∀ x ∈ s.names.root, x ∈ names.root) : Grows s { s with names } :=
  ⟨id, rfl, htaken, fun _ => .inl, fun h x hx => hroot x (h x hx)⟩

theorem of_looped : Grows s { s with looped := true } :=
  ⟨fun _ => rfl, rfl, fun _ => id, fun _ => .inl, id⟩

theorem of_allocateLocal (candidate : String) :
    Grows s { s with names := (s.names.allocateLocal candidate).2 } :=
  of_names (fun _ hx => Scopes.allocateLocal_isTaken.2 (.inl hx)) fun _ => id

/-- An import that is there already, or one with a new alias. -/
theorem of_import {imports : ImportTable} {names : Scopes} {name : String}
    (h : (name ∈ s.imports.aliases ∧ imports = s.imports ∧ names = s.names) ∨
      ∃ candidate, s.names.allocateRoot candidate = (name, names) ∧
        ∀ x ∈ imports.aliases, x ∈ s.imports.aliases ∨ x = name) :
    Grows s { s with imports, names } := by
  rcases h with ⟨-, rfl, rfl⟩ | ⟨candidate, hnew, halias⟩
  · exact refl s
  · obtain ⟨rfl, rfl⟩ : name = (s.names.allocateRoot candidate).1 ∧
        names = (s.names.allocateRoot candidate).2 := by rw [hnew]; exact ⟨rfl, rfl⟩
    refine ⟨id, rfl, fun x hx => Scopes.allocateRoot_isTaken.2 (.inl hx), fun x hx => ?_,
      fun hs x hx => ?_⟩
    · refine (halias x hx).imp_right ?_
      rintro rfl
      exact s.names.allocateRoot_not_isTaken candidate
    · exact Scopes.mem_insert.2 ((halias x hx).symm.imp_right (hs x))

end Grows

/-- The slots of a loop grow the scopes. -/
theorem TailCall.allocateSlots_isTaken {names names' : Scopes} {params : List Ir.Ident}
    {slots : List String} (h : allocateSlots names params = (slots, names')) :
    (∀ x, names.IsTaken x → names'.IsTaken x) ∧ names'.root = names.root := by
  induction params generalizing names slots names' with
  | nil =>
    obtain ⟨rfl, rfl⟩ := h
    exact ⟨fun _ => id, rfl⟩
  | cons p ps ih =>
    obtain ⟨rfl, rfl⟩ := h
    have hslots : allocateSlots (names.allocateLocal (p.name ++ "_mut")).2 ps = (_, _) := rfl
    obtain ⟨htaken, hroot⟩ := ih hslots
    exact ⟨fun x hx => htaken x (Scopes.allocateLocal_isTaken.2 (.inl hx)), hroot⟩

end TypedLowering
