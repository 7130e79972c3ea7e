import Mathlib.Data.Set.Card
import Mathlib.Order.Bounds.Basic
import TypedLowering.Proofs.Names.Fresh

/-!
# The least free variant

A search for a free name tries the candidates in order, as often as it takes (`Search`). If only
finitely many names are taken, it ends: it tries at most one name more than are taken, and finds the
name itself or its least free variant (`preventConflicts_isLeast`).
-/

namespace TypedLowering

namespace Names

/-- A search for a free name, from the `n`-th candidate on: the names that it tries, and the one
that it finds. It has no bound of its own. -/
inductive Search (conflicts : String → Prop) (name : String) : Nat → List String → String → Prop
  | free {n : Nat} (hfree : ¬ conflicts (candidate name n)) :
    Search conflicts name n [candidate name n] (candidate name n)
  | taken {n : Nat} {tried : List String} {found : String} (htaken : conflicts (candidate name n))
    (hsearch : Search conflicts name (n + 1) tried found) :
    Search conflicts name n (candidate name n :: tried) found

/-- A search that starts before the first free candidate tries everything up to it. -/
theorem Search.upTo {conflicts : String → Prop} {name : String} {k n tries : Nat}
    (hfree : ¬ conflicts (candidate name k)) (htaken : ∀ i < k, conflicts (candidate name i))
    (hk : n + tries = k) :
    Search conflicts name n ((List.range' n (tries + 1)).map (candidate name))
      (candidate name k) := by
  induction tries generalizing n with
  | zero =>
    obtain rfl : n = k := hk
    exact .free hfree
  | succ tries ih =>
    rw [List.range'_succ, List.map_cons]
    exact .taken (htaken n (by omega)) (ih (by omega))

/-- If finitely many names are taken, a search for a free one ends after trying at most one name
more than are taken. It finds the name itself if that is free, and else the least variant that is
free. This is the name that is chosen against any list of the taken names. -/
theorem preventConflicts_isLeast (name : String) {conflicts : String → Prop}
    (hfinite : {x | conflicts x}.Finite) :
    ∃ tried found, Search conflicts name 0 tried found ∧
      tried.length ≤ {x | conflicts x}.ncard + 1 ∧
      (∀ taken : List String, (∀ x, x ∈ taken ↔ conflicts x) →
        preventConflicts taken name = found) ∧
      ¬ conflicts found ∧ (¬ conflicts name → found = name) ∧
      (conflicts name → ∃ n, found = suffixed name n ∧
        IsLeast {n | 1 ≤ n ∧ ¬ conflicts (suffixed name n)} n) := by
  have hlist : ∀ x, x ∈ hfinite.toFinset.toList ↔ conflicts x := by simp
  obtain ⟨k, -, hfree, htaken⟩ := preventConflicts_first hfinite.toFinset.toList name
  have hcount := le_length_of_taken htaken
  rw [Finset.length_toList, ← Set.ncard_eq_toFinset_card _ hfinite] at hcount
  rw [hlist] at hfree
  replace htaken : ∀ i < k, conflicts (candidate name i) := fun i hi => (hlist _).1 (htaken i hi)
  refine ⟨_, _, Search.upTo hfree htaken (Nat.zero_add k), ?_, fun taken htable => ?_, hfree,
    fun hname => ?_, fun hname => ?_⟩
  · rw [List.length_map, List.length_range']
    exact Nat.succ_le_succ hcount
  · exact preventConflicts_eq (mt (htable _).1 hfree) fun i hi => (htable _).2 (htaken i hi)
  · cases k with
    | zero => rfl
    | succ k => exact absurd (htaken 0 (Nat.succ_pos k)) hname
  · have hk : 1 ≤ k := Nat.one_le_iff_ne_zero.2 fun h => hfree (h ▸ hname)
    rw [candidate_of_pos name hk] at hfree ⊢
    refine ⟨k, rfl, ⟨hk, hfree⟩, fun n hn => ?_⟩
    by_contra hlt
    exact hn.2 (candidate_of_pos name hn.1 ▸ htaken n (Nat.lt_of_not_le hlt))

/-- The taken names may leave gaps: the variants 1 and 3 are taken, and the second is found. -/
theorem gap_isFound :
    let conflicts : String → Prop := (· ∈ ["x_3", "x", "x_1", "y"])
    {x | conflicts x}.Finite ∧ ∃ tried found, Search conflicts "x" 0 tried found ∧
      tried.length ≤ {x | conflicts x}.ncard + 1 ∧
      preventConflicts ["x_3", "x", "x_1", "y"] "x" = found ∧ found = "x_2" ∧
      IsLeast {n | 1 ≤ n ∧ ¬ conflicts (suffixed "x" n)} 2 := by
  intro conflicts
  have hfinite : {x | conflicts x}.Finite := List.finite_toSet ["x_3", "x", "x_1", "y"]
  obtain ⟨tried, found, hsearch, htried, hchosen, hfree, -, hleast⟩ :=
    preventConflicts_isLeast "x" hfinite
  have hfound := hchosen _ fun _ => Iff.rfl
  obtain ⟨n, hn, hleast⟩ := hleast (by decide : "x" ∈ ["x_3", "x", "x_1", "y"])
  have htwo : found = suffixed "x" 2 := by rw [← hfound]; decide +kernel
  obtain rfl : n = 2 := suffixed_injective "x" (hn.symm.trans htwo)
  exact ⟨hfinite, tried, found, hsearch, htried, hfound, by rw [htwo]; decide +kernel, hleast⟩

end Names

end TypedLowering
