import Mathlib.Data.List.Nodup
import Mathlib.Data.List.Perm.Subperm
import Mathlib.Data.Nat.Find
import Mathlib.Tactic.Tauto
import Std.Data.String.ToNat
import TypedLowering.Names.Scopes

/-!
# New names are new

A search for a free name tries the name itself and then its variants. These differ, so one of them
is free, and the search ends at the first that is (`preventConflicts_first`). An allocated name is
in none of the scopes that it is allocated against, and it is in use from then on.
-/

namespace TypedLowering

namespace Names

/-- Different variants of a name differ. -/
theorem suffixed_injective (name : String) : Function.Injective (suffixed name) := by
  intro m n h
  have hrepr : toString m = toString n := by
    have htoList := congrArg String.toList h
    simp only [suffixed, String.toList_append, List.append_assoc,
      List.append_cancel_left_eq] at htoList
    exact String.toList_injective htoList
  exact Nat.repr_injective hrepr

/-- A variant is longer than the name. -/
theorem suffixed_ne (name : String) (n : Nat) : suffixed name n ≠ name := by
  intro h
  have hlength := congrArg String.length h
  have hone : "_".length = 1 := rfl
  rw [suffixed, String.length_append, String.length_append, hone] at hlength
  omega

/-- The names that are tried for a name: the name itself, and then its variants. -/
def candidate (name : String) : Nat → String
  | 0 => name
  | n + 1 => suffixed name (n + 1)

theorem candidate_of_pos (name : String) {n : Nat} (h : 1 ≤ n) :
    candidate name n = suffixed name n := by
  obtain ⟨n, rfl⟩ := Nat.exists_eq_add_of_le' h
  rfl

theorem candidate_injective (name : String) : Function.Injective (candidate name) := by
  intro m n h
  cases m with
  | zero =>
    cases n with
    | zero => rfl
    | succ n => exact absurd h.symm (suffixed_ne name _)
  | succ m =>
    cases n with
    | zero => exact absurd h (suffixed_ne name _)
    | succ n => exact suffixed_injective name h

section
variable {taken : List String} {name : String} {k : Nat}

/-- There are at least as many taken names as candidates in a row that are taken. -/
theorem le_length_of_taken (htaken : ∀ i < k, candidate name i ∈ taken) : k ≤ taken.length := by
  have hnodup : ((List.range k).map (candidate name)).Nodup :=
    List.nodup_range.map (candidate_injective name)
  have hsub : (List.range k).map (candidate name) ⊆ taken := by
    intro x hx
    obtain ⟨i, hi, rfl⟩ := List.mem_map.1 hx
    exact htaken i (List.mem_range.1 hi)
  have hlength := (List.subperm_of_subset hnodup hsub).length_le
  rwa [List.length_map, List.length_range] at hlength

/-- With enough tries the first free variant is found. -/
theorem firstFree_eq {tries n : Nat} (hfree : suffixed name k ∉ taken)
    (htaken : ∀ i, n ≤ i → i < k → suffixed name i ∈ taken) (hn : n ≤ k) (hk : k ≤ n + tries) :
    firstFree taken name tries n = suffixed name k := by
  induction tries generalizing n with
  | zero =>
    obtain rfl : n = k := Nat.le_antisymm hn hk
    rfl
  | succ tries ih =>
    rw [firstFree]
    split
    · rename_i hmem
      have hne : n ≠ k := fun h => hfree (h ▸ hmem)
      exact ih (fun i hi => htaken i (by omega)) (by omega) (by omega)
    · rename_i hmem
      obtain rfl : n = k := by
        by_contra hne
        exact hmem (htaken n (Nat.le_refl n) (by omega))
      rfl

/-- The chosen name is the first free candidate. -/
theorem preventConflicts_eq (hfree : candidate name k ∉ taken)
    (htaken : ∀ i < k, candidate name i ∈ taken) :
    preventConflicts taken name = candidate name k := by
  rw [preventConflicts]
  cases k with
  | zero => exact if_neg hfree
  | succ k =>
    have hname : name ∈ taken := htaken 0 (Nat.succ_pos k)
    have hbound := le_length_of_taken htaken
    rw [if_pos hname]
    refine firstFree_eq hfree (fun i hi hik => ?_) (Nat.le_add_left 1 k) (by omega)
    exact candidate_of_pos name hi ▸ htaken i hik

/-- One of the candidates is the first that is free, and it is chosen. -/
theorem preventConflicts_first (taken : List String) (name : String) :
    ∃ k, preventConflicts taken name = candidate name k ∧ candidate name k ∉ taken ∧
      ∀ i < k, candidate name i ∈ taken := by
  have hsome : ∃ k, candidate name k ∉ taken := by
    by_contra hall
    have hall : ∀ k, candidate name k ∈ taken := fun k => not_not.1 fun hk => hall ⟨k, hk⟩
    exact absurd (le_length_of_taken (k := taken.length + 1) fun i _ => hall i) (by omega)
  have htaken : ∀ i < Nat.find hsome, candidate name i ∈ taken := fun i hi =>
    not_not.1 (Nat.find_min hsome hi)
  exact ⟨_, preventConflicts_eq (Nat.find_spec hsome) htaken, Nat.find_spec hsome, htaken⟩

/-- The chosen name is not taken. -/
theorem preventConflicts_not_mem (taken : List String) (name : String) :
    preventConflicts taken name ∉ taken := by
  obtain ⟨k, heq, hfree, -⟩ := preventConflicts_first taken name
  rwa [heq]

end

end Names

namespace Scopes

@[simp] theorem mem_insert {x name : String} {names : List String} :
    x ∈ insert name names ↔ x = name ∨ x ∈ names := by
  rw [insert]
  split
  · rename_i h
    constructor
    · exact .inr
    · rintro (rfl | hx)
      · exact h
      · exact hx
  · exact List.mem_cons

@[simp] theorem mem_union {x : String} {names more : List String} :
    x ∈ union names more ↔ x ∈ names ∨ x ∈ more := by
  induction more generalizing names with
  | nil => simp [union]
  | cons m more ih =>
    have hcons : union names (m :: more) = union (insert m names) more := rfl
    rw [hcons, ih, mem_insert, List.mem_cons]
    constructor
    · rintro ((h | h) | h)
      · exact .inr (.inl h)
      · exact .inl h
      · exact .inr (.inr h)
    · rintro (h | h | h)
      · exact .inl (.inr h)
      · exact .inl (.inl h)
      · exact .inr h

/-- Whether a name is taken for the declaration being lowered. -/
def IsTaken (s : Scopes) (name : String) : Prop :=
  name ∈ s.root ∨ name ∈ s.current

/-- A new local name is not taken. -/
theorem allocateLocal_not_isTaken (s : Scopes) (candidate : String) :
    ¬ s.IsTaken (s.allocateLocal candidate).1 := by
  have h := Names.preventConflicts_not_mem (s.reserved ++ s.root ++ s.current)
    (Names.sanitize candidate)
  simp only [List.mem_append, not_or] at h
  rintro (hroot | hcurrent)
  · exact h.1.2 hroot
  · exact h.2 hcurrent

/-- A new local name is not reserved. -/
theorem allocateLocal_not_reserved (s : Scopes) (candidate : String) :
    (s.allocateLocal candidate).1 ∉ s.reserved := fun h =>
  Names.preventConflicts_not_mem (s.reserved ++ s.root ++ s.current) (Names.sanitize candidate)
    (List.mem_append_left _ (List.mem_append_left _ h))

/-- A new local name is taken from then on. -/
theorem allocateLocal_isTaken {s : Scopes} {candidate x : String} :
    (s.allocateLocal candidate).2.IsTaken x ↔ s.IsTaken x ∨ x = (s.allocateLocal candidate).1 := by
  simp only [IsTaken, allocateLocal, mem_insert]
  tauto

/-- A new root name is in no scope. -/
theorem allocateRoot_isUsed (s : Scopes) (candidate : String) :
    s.isUsed (s.allocateRoot candidate).1 = false := by
  have h := Names.preventConflicts_not_mem (s.reserved ++ s.root ++ s.closed ++ s.current)
    (Names.sanitize candidate)
  simp only [List.mem_append, not_or] at h
  simp only [isUsed, allocateRoot, Bool.or_eq_false_iff]
  exact ⟨⟨decide_eq_false h.1.1.2, decide_eq_false h.1.2⟩, decide_eq_false h.2⟩

theorem allocateRoot_not_isTaken (s : Scopes) (candidate : String) :
    ¬ s.IsTaken (s.allocateRoot candidate).1 := by
  have hused := s.allocateRoot_isUsed candidate
  simp only [isUsed, Bool.or_eq_false_iff, decide_eq_false_iff_not] at hused
  exact not_or.2 ⟨hused.1.1, hused.2⟩

theorem allocateRoot_isTaken {s : Scopes} {candidate x : String} :
    (s.allocateRoot candidate).2.IsTaken x ↔ s.IsTaken x ∨ x = (s.allocateRoot candidate).1 := by
  simp only [IsTaken, allocateRoot, mem_insert]
  tauto

end Scopes

end TypedLowering
