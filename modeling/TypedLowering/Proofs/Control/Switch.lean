import TypedLowering.Proofs.Control.Compound
import TypedLowering.Proofs.Control.Flow

/-!
# Switches behind a selection

Code that branches, stores in each branch which case is meant, and then switches runs like code that
has the case in the branch (`Selects.run_eq`).
-/

namespace TypedLowering.Control

variable {σ ε : Type}

namespace Runs

variable {S : Type}

/-- What follows a branch follows both ways. -/
theorem branch_seq (test : S → Option Bool → S → Prop) (p q r : Runs S) :
    seq (branch test p q) r = branch test (seq p r) (seq q r) := by
  funext a x b
  refine propext ⟨?_, ?_⟩
  · rintro (⟨⟨ht, rfl⟩ | ⟨m, ht, hp⟩ | ⟨m, ht, hq⟩, hx⟩ |
      ⟨n, ⟨-, hx⟩ | ⟨m, ht, hp⟩ | ⟨m, ht, hq⟩, hr⟩)
    · exact .inl ⟨ht, rfl⟩
    · exact .inr (.inl ⟨m, ht, .inl ⟨hp, hx⟩⟩)
    · exact .inr (.inr ⟨m, ht, .inl ⟨hq, hx⟩⟩)
    · cases hx
    · exact .inr (.inl ⟨m, ht, .inr ⟨n, hp, hr⟩⟩)
    · exact .inr (.inr ⟨m, ht, .inr ⟨n, hq, hr⟩⟩)
  · rintro (⟨ht, rfl⟩ | ⟨m, ht, ⟨hp, hx⟩ | ⟨n, hp, hr⟩⟩ | ⟨m, ht, ⟨hq, hx⟩ | ⟨n, hq, hr⟩⟩)
    · exact .inl ⟨.inl ⟨ht, rfl⟩, nofun⟩
    · exact .inl ⟨.inr (.inl ⟨m, ht, hp⟩), hx⟩
    · exact .inr ⟨n, .inr (.inl ⟨m, ht, hp⟩), hr⟩
    · exact .inl ⟨.inr (.inr ⟨m, ht, hq⟩), hx⟩
    · exact .inr ⟨n, .inr (.inr ⟨m, ht, hq⟩), hr⟩

/-- Leaving makes no difference to code that never breaks. -/
theorem exitBy_leave {p : Runs S} (h : ∀ a x b, p a x b → x.leave = x) : exitBy .leave p = p := by
  funext a x b
  refine propext ⟨?_, fun hp => ⟨x, hp, (h a x b hp).symm⟩⟩
  rintro ⟨y, hp, rfl⟩
  rwa [h a y b hp]

/-- A break at the end only ends the code. -/
theorem exitBy_leave_seq_break {p : Runs S} (h : ∀ a x b, p a x b → x.leave = x) :
    exitBy .leave (seq p (exit (.broke none))) = p := by
  funext a x b
  refine propext ⟨?_, fun hp => ?_⟩
  · rintro ⟨y, ⟨hp, -⟩ | ⟨m, hp, rfl, rfl⟩, rfl⟩
    · rwa [h a y b hp]
    · exact hp
  · by_cases hx : x = .normal
    · subst hx
      exact ⟨.broke none, .inr ⟨b, hp, rfl, rfl⟩, rfl⟩
    · exact ⟨x, .inl ⟨hp, hx⟩, (h a x b hp).symm⟩

end Runs

theorem Exit.Fits.leave_eq {ret : Bool} {J : Jumps σ ε} {x : Exit} (h : x.Fits ret J) :
    x.leave = x := by
  cases x with
  | broke => cases h
  | normal | returned | raised | continued => rfl

variable {M : Machine σ ε}

/-- A case whose body ends with a break, or has no end, runs alone. -/
theorem exitBy_leave_runFrom {ret : Bool} {J : Jumps σ ε} {cases : List (Case σ ε)} {i : Nat}
    {tests : Option (List ε)} {fs exit : List (Flow σ ε)}
    (hcase : cases[i]? = some ⟨tests, fs ++ exit⟩) (h : Obeys ret J fs)
    (hexit : exit = [.breakTo none] ∨ (ret = true ∧ exit = [])) :
    Runs.exitBy .leave (runFrom M cases i) = runAll M fs := by
  have hleave : ∀ a x b, runAll M fs a x b → x.leave = x := fun _ _ _ hr => (h.exit M hr).leave_eq
  obtain ⟨hi, hget⟩ := List.getElem?_eq_some_iff.1 hcase
  rw [runFrom_eq, List.drop_eq_getElem_cons hi, hget, List.flatMap_cons, runAll_append]
  rcases hexit with rfl | ⟨rfl, rfl⟩
  · rw [runAll_append, runAll_singleton, Runs.seq_of_not_normal, Flow.run,
      Runs.exitBy_leave_seq_break hleave]
    rintro a b (⟨-, hx⟩ | ⟨m, -, hx, -⟩)
    · exact hx rfl
    · cases hx
  · have hnot : ∀ a b, ¬ runAll M fs a .normal b := fun a b hr => Bool.noConfusion (h.exit M hr)
    rw [List.append_nil, Runs.seq_of_not_normal hnot, Runs.exitBy_leave hleave]

/-- A switch whose subject was stored right before runs the case that is meant, and only that. -/
theorem runAll_store_switch {ret : Bool} {J : Jumps σ ε} {store : σ} {subject : ε}
    {cases : List (Case σ ε)} {found : Option Nat} {i : Nat} {tests : Option (List ε)}
    {fs exit : List (Flow σ ε)}
    (hpick : ∀ {a m}, M.step store a true m → ∀ r b,
      M.pick subject (cases.map (·.tests)) m r b ↔ r = some found ∧ b = m)
    (hland : landing (cases.map (·.tests)) found = some i)
    (hcase : cases[i]? = some ⟨tests, fs ++ exit⟩) (h : Obeys ret J fs)
    (hexit : exit = [.breakTo none] ∨ (ret = true ∧ exit = [])) :
    runAll M [.step store, .switch subject cases] = runAll M (.step store :: fs) := by
  have hselect : ∀ {a m}, M.step store a true m →
      (Flow.switch subject cases).run M [] m = runAll M fs m := by
    intro a m hstep
    rw [← exitBy_leave_runFrom hcase h hexit]
    funext x b
    refine propext ⟨?_, fun hr => ⟨some found, m, (hpick hstep _ _).2 ⟨rfl, rfl⟩, ?_⟩⟩
    · rintro ⟨r, n, hp, hr⟩
      obtain ⟨rfl, rfl⟩ := (hpick hstep r n).1 hp
      simpa only [hland] using hr
    · simpa only [hland] using hr
  rw [runAll_cons, runAll_singleton, runAll_cons]
  funext a x b
  refine propext (or_congr_right (exists_congr fun m => and_congr_right fun hstep => ?_))
  rcases hstep with ⟨hstep, -⟩ | ⟨-, hx⟩
  · rw [hselect hstep]
  · cases hx

/-! ## Cases with numbers -/

/-- The numbers of that many cases; the last one is the default case, without a number. -/
def caseNumbers (count : Nat) : List (Option Nat) :=
  (List.range count).map fun i => if i + 1 < count then some i else none

/-- If different cases have different keys, the case with the key of `i` is the one of `i`, and if
`i` is the last there is none. Either way the switch goes to `i`. -/
theorem landing_caseNumbers {κ : Type} [DecidableEq κ] {key : Nat → κ} {count i : Nat}
    (hi : i < count) (hkey : ∀ j < count, key j = key i → j = i) (tests : Nat → List ε) :
    landing ((caseNumbers count).map (·.map tests))
      ((caseNumbers count).findIdx? fun k => k.map key = some (key i)) = some i := by
  by_cases hlast : i + 1 < count
  · have hfound : ((caseNumbers count).findIdx? fun k => k.map key = some (key i)) = some i := by
      rw [List.findIdx?_eq_some_iff_getElem]
      refine ⟨by simpa [caseNumbers] using hi, by simp [caseNumbers, hlast], fun j hj => ?_⟩
      have hne : key j ≠ key i := fun heq => Nat.ne_of_lt hj (hkey j (Nat.lt_trans hj hi) heq)
      have hj' : j + 1 < count := Nat.lt_trans (Nat.succ_lt_succ hj) hlast
      simpa [caseNumbers, hj'] using hne
    rw [hfound]
    rfl
  · have hfound : ((caseNumbers count).findIdx? fun k => k.map key = some (key i)) = none := by
      rw [List.findIdx?_eq_none_iff]
      intro k hk
      obtain ⟨j, hj, rfl⟩ := List.mem_map.1 hk
      by_cases hj' : j + 1 < count
      · have hne : key j ≠ key i := fun heq => by
          have := hkey j (List.mem_range.1 hj) heq
          omega
        simpa [hj'] using hne
      · simp [hj']
    rw [hfound, landing, List.findIdx?_eq_some_iff_getElem]
    refine ⟨by simpa [caseNumbers] using hi, by simp [caseNumbers, hlast], fun j hj => ?_⟩
    have hj' : j + 1 < count := by omega
    simp [caseNumbers, hj']

/-! ## Code that selects -/

/-- Code that branches and ends each branch by code of one kind, and the code that has other ends in
the same places. -/
inductive Selects (ends : List (Flow σ ε) → List (Flow σ ε) → Prop) :
    List (Flow σ ε) → List (Flow σ ε) → Prop
  | ends {fs gs : List (Flow σ ε)} : ends fs gs → Selects ends fs gs
  | choose {guard : ε} {fs gs fs' gs' : List (Flow σ ε)} : Selects ends fs fs' →
      Selects ends gs gs' → Selects ends [.choose guard fs gs] [.choose guard fs' gs']
  | after (first : List (Flow σ ε)) {fs gs : List (Flow σ ε)} : Selects ends fs gs →
      Selects ends (first ++ fs) (first ++ gs)

/-- If the ends run so with what comes next, the whole code does. -/
theorem Selects.run_eq {ends : List (Flow σ ε) → List (Flow σ ε) → Prop}
    {last fs gs : List (Flow σ ε)} (h : Selects ends fs gs)
    (hends : ∀ fs gs, ends fs gs → runAll M (fs ++ last) = runAll M gs) :
    runAll M (fs ++ last) = runAll M gs := by
  induction h with
  | ends h => exact hends _ _ h
  | choose _ _ ihthen ihelse =>
    rw [runAll_append, runAll_singleton, runAll_singleton, Flow.run, Flow.run, Runs.branch_seq,
      ← runAll_append, ← runAll_append, ihthen, ihelse]
  | after first _ ih => rw [List.append_assoc, runAll_append, ih, ← runAll_append]

end TypedLowering.Control
