import Mathlib.Order.Basic
import TypedLowering.Proofs.Control.Assignment

/-!
# Variables of blocks

A variable belongs to the block that declares it, and hides the one of the same name around. A
placed flow (`Flow.placed`) tells with each piece of code how many of the blocks around declare a
name, so that a name stands for one variable there. A machine for placed code can keep the variables
of blocks apart; one that looks at the code alone has one store for all of them.

Code whose names stand for the same variables in two places does the same in both
(`Machine.IsPlaced`). So flows in which each name stands for one variable run as if there were no
places (`Machine.IsPlaced.runAll_eq`). What can be said of all runs of flows can be said of their
runs in a place (`runAll_placed_le`).
-/

namespace TypedLowering

/-- Whether a use means the same variables in two places, where blocks around declare the names so
often. -/
def Use.Agrees (inTemplate : String → String → Prop) (d d' : String → Nat) (u : Use) : Prop :=
  ∀ x, u.Mentions inTemplate x → d x = d' x

/-- Depths agree on a name that they give the same depth. -/
theorem Use.Agrees.name {inTemplate : String → String → Prop} {d d' : String → Nat} {x : String}
    (h : d x = d' x) : Use.Agrees inTemplate d d' (.name x) := by
  rintro _ rfl
  exact h

/-- Depths agree on a binder that they give the same depth. -/
theorem Use.Agrees.binder {inTemplate : String → String → Prop} {d d' : String → Nat} {x : String}
    (h : d x = d' x) : Use.Agrees inTemplate d d' (.binder x) := by
  rintro _ rfl
  exact h

namespace Control

variable {σ ε : Type}

/-! ## Places -/

/-- How many of the blocks around a place declare a name. -/
abbrev Depths := String → Nat

/-- In a block that declares these names. -/
def Depths.enter (d : Depths) (names : List String) : Depths :=
  fun x => if x ∈ names then d x + 1 else d x

/-- A block that declares a name is one more around it. -/
theorem Depths.enter_of_mem (d : Depths) {names : List String} {x : String} (h : x ∈ names) :
    d.enter names x = d x + 1 :=
  if_pos h

/-- A block that does not declare a name is not counted. -/
theorem Depths.enter_of_not_mem (d : Depths) {names : List String} {x : String} (h : x ∉ names) :
    d.enter names x = d x :=
  if_neg h

/-- The value of each variable, told by its name and by how many blocks around declare it. -/
abbrev BlockStore (V : Type) := String → Nat → V

/-- What can be seen of the variables in a place. -/
def BlockStore.seen {V : Type} (a : BlockStore V) (d : Depths) : String → V :=
  fun x => a x (d x)

/-- The variables after those that can be seen in a place got new values. -/
def BlockStore.update {V : Type} (a : BlockStore V) (d : Depths) (values : String → V) :
    BlockStore V :=
  fun x k => if k = d x then values x else a x k

namespace BlockStore

variable {V : Type} {a : BlockStore V} {d d' : Depths} {values values' : String → V} {x : String}

/-- A variable whose value has not changed. -/
theorem update_of_eq (h : values x = a.seen d x) : a.update d values x = a x := by
  funext k
  by_cases hk : k = d x
  · rw [update, if_pos hk, h, seen, hk]
  · rw [update, if_neg hk]

/-- A change of one variable, which is the same in both places. -/
theorem update_congr (hd : d x = d' x) (hx : values x = values' x)
    (h : ∀ y, y ≠ x → values y = a.seen d y) (h' : ∀ y, y ≠ x → values' y = a.seen d' y) :
    a.update d values = a.update d' values' := by
  funext y
  by_cases hy : y = x
  · subst hy
    funext k
    rw [update, update, hd, hx]
  · rw [update_of_eq (h y hy), update_of_eq (h' y hy)]

end BlockStore

/-- What code declares: in the block where it stands and, as a header, for what it heads. -/
structure Scoping (σ : Type) where
  declares : σ → List String
  binds : σ → List String

variable (S : Scoping σ)

/-- What a statement declares in its block. -/
def Flow.declares : Flow σ ε → List String
  | .step code => S.declares code
  | .labeled _ body => body.declares
  | _ => []

/-- What the statements of a block declare. -/
def declared (fs : List (Flow σ ε)) : List String :=
  fs.flatMap (Flow.declares S)

mutual

/-- A flow in its place. -/
def Flow.placed (d : Depths) : Flow σ ε → Flow (Depths × σ) (Depths × ε)
  | .step code => .step (d, code)
  | .ret code => .ret (d, code)
  | .raise code => .raise (d, code)
  | .breakTo label => .breakTo label
  | .continueTo label => .continueTo label
  | .block body => .block (placedAll (d.enter (declared S body)) body)
  | .choose guard thenFlows elseFlows =>
    .choose (d, guard) (placedAll (d.enter (declared S thenFlows)) thenFlows)
      (placedAll (d.enter (declared S elseFlows)) elseFlows)
  | .loop header body =>
    .loop (d.enter (S.binds header), header)
      (placedAll ((d.enter (S.binds header)).enter (declared S body)) body)
  | .switch subject cases => .switch (d, subject) (placedCases d cases)
  | .protect header body handler finalizer =>
    .protect (d.enter (S.binds header), header) (placedAll (d.enter (declared S body)) body)
      (placedOption (d.enter (S.binds header)) handler) (placedOption d finalizer)
  | .labeled label body => .labeled label (body.placed d)

/-- Flows in a block, whose declarations count already. -/
def placedAll (d : Depths) : List (Flow σ ε) → List (Flow (Depths × σ) (Depths × ε))
  | [] => []
  | f :: fs => f.placed d :: placedAll d fs

/-- A block that may be missing, in its place. -/
def placedOption (d : Depths) : Option (List (Flow σ ε)) →
    Option (List (Flow (Depths × σ) (Depths × ε)))
  | none => none
  | some fs => some (placedAll (d.enter (declared S fs)) fs)

/-- Each case is a block. -/
def placedCases (d : Depths) : List (Case σ ε) → List (Case (Depths × σ) (Depths × ε))
  | [] => []
  | ⟨tests, body⟩ :: cases =>
    ⟨tests.map (·.map (d, ·)), placedAll (d.enter (declared S body)) body⟩ :: placedCases d cases

end

/-- The flows of a block, in a place around which names have these depths. -/
def placedBlock (d : Depths) (fs : List (Flow σ ε)) : List (Flow (Depths × σ) (Depths × ε)) :=
  placedAll S (d.enter (declared S fs)) fs

/-- The flows of two parts are placed each by itself. -/
@[simp] theorem placedAll_append (d : Depths) (fs gs : List (Flow σ ε)) :
    placedAll S d (fs ++ gs) = placedAll S d fs ++ placedAll S d gs := by
  induction fs with
  | nil => rfl
  | cons f fs ih => rw [List.cons_append, placedAll, ih, placedAll, List.cons_append]

/-- The tests of cases in their place. -/
def placedTests (d : Depths) (tests : List (Option (List ε))) : List (Option (List (Depths × ε))) :=
  tests.map (·.map (·.map (d, ·)))

/-- A block that may be missing is placed as a block. -/
theorem placedOption_eq_map (d : Depths) (o : Option (List (Flow σ ε))) :
    placedOption S d o = o.map (placedBlock S d) := by
  cases o <;> rfl

/-- Each case is placed, with its body as a block. -/
theorem placedCases_eq_map (d : Depths) (cases : List (Case σ ε)) :
    placedCases S d cases =
      cases.map fun c => ⟨c.tests.map (·.map (d, ·)), placedBlock S d c.body⟩ := by
  induction cases with
  | nil => rfl
  | cons c cases ih =>
    obtain ⟨tests, body⟩ := c
    rw [placedCases, ih, List.map_cons]
    rfl

/-- The tests of placed cases are the placed tests. -/
theorem tests_placedCases (d : Depths) (cases : List (Case σ ε)) :
    (placedCases S d cases).map (·.tests) = placedTests d (cases.map (·.tests)) := by
  rw [placedCases_eq_map, placedTests, List.map_map, List.map_map]
  rfl

/-- A switch goes to the same case in any place. -/
theorem landing_placedTests (d : Depths) (tests : List (Option (List ε))) (found : Option Nat) :
    landing (placedTests d tests) found = landing tests found := by
  cases found with
  | some i => rfl
  | none =>
    rw [landing, landing, placedTests, List.findIdx?_map]
    congr 1
    funext t
    cases t <;> rfl

/-- Which of the cases is the first to pass does not depend on the place of their tests. -/
theorem findIdx?_placedTests (d : Depths) (tests : List (Option (List ε)))
    (p : Option (List ε) → Bool) :
    ((placedTests d tests).findIdx? fun t => p (t.map (·.map (·.2)))) = tests.findIdx? p := by
  rw [placedTests, List.findIdx?_map]
  congr 1
  funext t
  cases t with
  | none => rfl
  | some ts =>
    simp only [Function.comp_apply, Option.map_some, List.map_map, Function.comp_def, List.map_id']

/-- Tests that agree on a list find the same item. -/
theorem findIdx?_congr {α : Type} {l : List α} {p q : α → Bool} (h : ∀ x ∈ l, p x = q x) :
    l.findIdx? p = l.findIdx? q := by
  induction l with
  | nil => rfl
  | cons x l ih =>
    obtain ⟨hx, hl⟩ := List.forall_mem_cons.1 h
    rw [List.findIdx?_cons, List.findIdx?_cons, hx, ih hl]

/-- The machine for code in one place. -/
def Machine.inPlace (M : Machine (Depths × σ) (Depths × ε)) (d : Depths) : Machine σ ε where
  State := M.State
  step code := M.step (d, code)
  test e := M.test (d, e)
  start code := M.start (d, code)
  next code := M.next (d, code)
  pick subject tests := M.pick (d, subject) (placedTests d tests)
  catches code := M.catches (d, code)
  pick_tests h := by
    obtain ⟨ts, hts⟩ := M.pick_tests h
    rw [placedTests, List.getElem?_map] at hts
    obtain ⟨t, ht, hsome⟩ := Option.map_eq_some_iff.1 hts
    obtain ⟨ts, rfl, -⟩ := Option.map_eq_some_iff.1 hsome
    exact ⟨ts, ht⟩

/-! ## Names that stand for one variable -/

/-- Whether code does the same where its names stand for the same variables. -/
structure Machine.IsPlaced (M : Machine (Depths × σ) (Depths × ε)) (L : Language σ ε)
    (inTemplate : String → String → Prop) : Prop where
  step : ∀ {P d d'}, (∀ u, P u → Use.Agrees inTemplate d d' u) → ∀ {code}, L.CodeUses P code →
    M.step (d, code) = M.step (d', code)
  test : ∀ {P d d'}, (∀ u, P u → Use.Agrees inTemplate d d' u) → ∀ {e}, L.ExprUses P e →
    M.test (d, e) = M.test (d', e)
  start : ∀ {P d d'}, (∀ u, P u → Use.Agrees inTemplate d d' u) → ∀ {code}, L.CodeUses P code →
    M.start (d, code) = M.start (d', code)
  next : ∀ {P d d'}, (∀ u, P u → Use.Agrees inTemplate d d' u) → ∀ {code}, L.CodeUses P code →
    M.next (d, code) = M.next (d', code)
  pick : ∀ {P d d'}, (∀ u, P u → Use.Agrees inTemplate d d' u) → ∀ {e tests}, L.ExprUses P e →
    (∀ t ∈ tests, ∀ ts ∈ t, ∀ e ∈ ts, L.ExprUses P e) →
    M.pick (d, e) (placedTests d tests) = M.pick (d', e) (placedTests d' tests)
  catches : ∀ {P d d'}, (∀ u, P u → Use.Agrees inTemplate d d' u) → ∀ {code}, L.CodeUses P code →
    M.catches (d, code) = M.catches (d', code)

/-- Whether the names in code of a kind stand for the variables that these depths tell. -/
def Language.placed (L : Language σ ε) (inTemplate : String → String → Prop) (e : Depths) :
    Language (Depths × σ) (Depths × ε) where
  IsVariable x c := L.IsVariable x c.2
  Assigns x value c := L.Assigns x value.2 c.2
  ExprUses P c := L.ExprUses (fun u => P u ∧ Use.Agrees inTemplate c.1 e u) c.2
  CodeUses P c := L.CodeUses (fun u => P u ∧ Use.Agrees inTemplate c.1 e u) c.2

/-- Whether each name stands for one variable wherever it occurs, that which these depths tell. -/
def StandFor (S : Scoping σ) (L : Language σ ε) (inTemplate : String → String → Prop) (e d : Depths)
    (fs : List (Flow σ ε)) : Prop :=
  FlowsUse (L.placed inTemplate e) (fun _ => True) (placedBlock S d fs)

namespace Machine.IsPlaced

variable {S : Scoping σ} {M : Machine (Depths × σ) (Depths × ε)} {L : Language σ ε}
  {inTemplate : String → String → Prop} {P : Use → Prop} {e : Depths}

mutual

/-- A flow whose names stand for one variable each runs as if there were no places. -/
theorem run_eq (h : M.IsPlaced L inTemplate) {d : Depths} {f : Flow σ ε}
    (hf : (f.placed S d).AllUses (L.placed inTemplate e) P) (labels : List String) :
    (f.placed S d).run M labels = f.run (M.inPlace e) labels := by
  cases f with
  | step code | ret code | raise code =>
    rw [Flow.placed, Flow.run, Flow.run, h.step (fun _ => And.right) hf]
    rfl
  | breakTo | continueTo => rfl
  | block body => exact h.runAll_eq hf
  | choose guard thenFlows elseFlows =>
    rw [Flow.placed] at hf
    rw [Flow.placed, Flow.run, Flow.run, h.test (fun _ => And.right) hf.1, h.runAll_eq hf.2.1,
      h.runAll_eq hf.2.2]
    rfl
  | loop header body =>
    rw [Flow.placed] at hf
    rw [Flow.placed, Flow.run, Flow.run, h.start (fun _ => And.right) hf.1,
      h.next (fun _ => And.right) hf.1, h.runAll_eq hf.2]
    rfl
  | switch subject cases =>
    rw [Flow.placed] at hf
    have htests := Machine.Keeps.tests_of_casesUse hf.2
    rw [tests_placedCases] at htests
    have hpick : M.pick (d, subject) (placedTests d (cases.map (·.tests))) =
        M.pick (e, subject) (placedTests e (cases.map (·.tests))) :=
      h.pick (fun _ => And.right) hf.1 ?_
    · have hcases := funext (h.runFrom_eq hf.2)
      rw [Flow.placed, Flow.run, Flow.run, tests_placedCases]
      funext a x b
      simp only [Runs.select, landing_placedTests, hcases, hpick]
      rfl
    · intro t ht ts hts e he
      exact htests _ (List.mem_map_of_mem ht) _ (by rw [Option.mem_def.1 hts]; rfl) _
        (List.mem_map_of_mem he)
  | protect header body handler finalizer =>
    rw [Flow.placed] at hf
    rw [Flow.placed, Flow.run, Flow.run, h.catches (fun _ => And.right) hf.1, h.runAll_eq hf.2.1,
      h.runOption_eq hf.2.2.1, h.runOption_eq hf.2.2.2]
    rfl
  | labeled label body =>
    have hbody : (body.placed S d).AllUses (L.placed inTemplate e) P := hf
    rw [Flow.placed, Flow.run, Flow.run, h.run_eq hbody]
    rfl

/-- Flows whose names stand for the same variables as at `e` run as flows without places there. -/
theorem runAll_eq (h : M.IsPlaced L inTemplate) {d : Depths} {fs : List (Flow σ ε)}
    (hfs : FlowsUse (L.placed inTemplate e) P (placedAll S d fs)) :
    runAll M (placedAll S d fs) = runAll (M.inPlace e) fs := by
  cases fs with
  | nil => rfl
  | cons f fs =>
    rw [placedAll, runAll_cons, runAll_cons, h.run_eq hfs.1, h.runAll_eq hfs.2]
    rfl

/-- A block that may be missing runs as it does without places. -/
theorem runOption_eq (h : M.IsPlaced L inTemplate) {d : Depths} {o : Option (List (Flow σ ε))}
    (ho : OptionUses (L.placed inTemplate e) P (placedOption S d o)) :
    runOption M (placedOption S d o) = runOption (M.inPlace e) o := by
  cases o with
  | none => rfl
  | some fs =>
    rw [placedOption, runOption, runOption, h.runAll_eq ho]
    rfl

/-- Cases run, from any case on, as they do without places. -/
theorem runFrom_eq (h : M.IsPlaced L inTemplate) {d : Depths} {cases : List (Case σ ε)}
    (hcases : CasesUse (L.placed inTemplate e) P (placedCases S d cases)) (i : Nat) :
    runFrom M (placedCases S d cases) i = runFrom (M.inPlace e) cases i := by
  cases cases with
  | nil => rfl
  | cons c cases =>
    obtain ⟨tests, body⟩ := c
    cases i with
    | zero =>
      rw [placedCases, runFrom, runFrom, h.runAll_eq hcases.2.1, h.runFrom_eq hcases.2.2]
      rfl
    | succ i => exact h.runFrom_eq hcases.2.2 i

end

end Machine.IsPlaced

/-- Whether flows run alike in any place, on machines of a kind, if each name stands for one
variable in them. -/
def RunAlike (S : Scoping σ) (L : Language σ ε) (Works : Machine σ ε → Prop)
    (fs gs : List (Flow σ ε)) : Prop :=
  ∀ (M : Machine (Depths × σ) (Depths × ε)) (inTemplate : String → String → Prop) (e d : Depths),
    M.IsPlaced L inTemplate → Works (M.inPlace e) →
      StandFor S L inTemplate e d fs → StandFor S L inTemplate e d gs →
        runAll M (placedBlock S d fs) = runAll M (placedBlock S d gs)

/-- Flows that run alike without places do so in any place. -/
theorem RunAlike.of_runAll {S : Scoping σ} {L : Language σ ε} {Works : Machine σ ε → Prop}
    {fs gs : List (Flow σ ε)} (h : ∀ M, Works M → runAll M fs = runAll M gs) :
    RunAlike S L Works fs gs := by
  intro M inTemplate e d hM hworks hfs hgs
  rw [placedBlock, placedBlock, hM.runAll_eq hfs, hM.runAll_eq hgs]
  exact h _ hworks

/-! ## Runs without places -/

namespace Runs

variable {S : Type} {p p' q q' : Runs S}

/-- An action that may do more has more runs. -/
theorem act_mono {act act' : S → Bool → S → Prop} (h : ∀ a ok b, act a ok b → act' a ok b)
    (done : Exit) : Runs.act act done ≤ Runs.act act' done :=
  fun a _ b => Or.imp (And.imp_left (h a true b)) (And.imp_left (h a false b))

/-- A sequence of parts with more runs has more runs. -/
theorem seq_mono (hp : p ≤ p') (hq : q ≤ q') : seq p q ≤ seq p' q' :=
  fun a x b => Or.imp (And.imp_left (hp a x b))
    fun ⟨m, hm, hrest⟩ => ⟨m, hp a _ m hm, hq m x b hrest⟩

/-- A run that ends otherwise has more runs if the run has. -/
theorem exitBy_mono (f : Exit → Exit) (hp : p ≤ p') : exitBy f p ≤ exitBy f p' :=
  fun a _ b ⟨y, hrun, hx⟩ => ⟨y, hp a y b hrun, hx⟩

/-- A branch with more runs in its parts has more runs. -/
theorem branch_mono {test test' : S → Option Bool → S → Prop}
    (h : ∀ a r b, test a r b → test' a r b) (hp : p ≤ p') (hq : q ≤ q') :
    branch test p q ≤ branch test' p' q' := by
  rintro a x b (⟨htest, hx⟩ | ⟨m, htest, hrun⟩ | ⟨m, htest, hrun⟩)
  · exact .inl ⟨h _ _ _ htest, hx⟩
  · exact .inr (.inl ⟨m, h _ _ _ htest, hp _ _ _ hrun⟩)
  · exact .inr (.inr ⟨m, h _ _ _ htest, hq _ _ _ hrun⟩)

/-- A loop with more runs in its body has more runs. -/
theorem iterate_mono {next next' : S → Option Bool → S → Prop}
    (h : ∀ a r b, next a r b → next' a r b) (labels : List String) (hp : p ≤ p') :
    iterate next labels p ≤ iterate next' labels p' := by
  intro a x b hrun
  induction hrun with
  | raised hnext => exact .raised (h _ _ _ hnext)
  | done hnext => exact .done (h _ _ _ hnext)
  | again hnext hbody hgo _ ih => exact .again (h _ _ _ hnext) (hp _ _ _ hbody) hgo ih
  | left hnext hbody hgo => exact .left (h _ _ _ hnext) (hp _ _ _ hbody) hgo

/-- A handled body with more runs in its parts has more runs. -/
theorem handled_mono {catches catches' : S → S → Prop} (h : ∀ a b, catches a b → catches' a b)
    (hp : p ≤ p') {handler handler' : Option (Runs S)}
    (hhandler : Option.Rel (· ≤ ·) handler handler') :
    handled catches p handler ≤ handled catches' p' handler' := by
  cases hhandler with
  | none => exact hp
  | some hq =>
    rintro a x b (⟨hrun, hx⟩ | ⟨m, n, hrun, hcatch, hrest⟩)
    · exact .inl ⟨hp _ _ _ hrun, hx⟩
    · exact .inr ⟨m, n, hp _ _ _ hrun, h _ _ hcatch, hq _ _ _ hrest⟩

/-- A finalized body with more runs in its parts has more runs. -/
theorem finalized_mono (hp : p ≤ p') {finalizer finalizer' : Option (Runs S)}
    (hfinalizer : Option.Rel (· ≤ ·) finalizer finalizer') :
    finalized p finalizer ≤ finalized p' finalizer' := by
  cases hfinalizer with
  | none => exact hp
  | some hq =>
    rintro a x b ⟨y, m, z, hrun, hrest, hx⟩
    exact ⟨y, m, z, hp _ _ _ hrun, hq _ _ _ hrest, hx⟩

end Runs

/-- The machine that does with code what it may do with it in some place. -/
def Machine.unplaced (M : Machine (Depths × σ) (Depths × ε)) : Machine σ ε where
  State := M.State
  step code a ok b := ∃ d, (M.inPlace d).step code a ok b
  test e a r b := ∃ d, (M.inPlace d).test e a r b
  start code a ok b := ∃ d, (M.inPlace d).start code a ok b
  next code a r b := ∃ d, (M.inPlace d).next code a r b
  pick subject tests a r b := ∃ d, (M.inPlace d).pick subject tests a r b
  catches code a b := ∃ d, (M.inPlace d).catches code a b
  pick_tests h := h.elim fun d => (M.inPlace d).pick_tests

section
variable (S : Scoping σ) (M : Machine (Depths × σ) (Depths × ε))

mutual

/-- A placed flow runs in one of the ways in which the flow may run in some places. -/
theorem Flow.run_placed_le : (d : Depths) → (f : Flow σ ε) → (labels : List String) →
    (f.placed S d).run M labels ≤ f.run M.unplaced labels
  | d, .step _, _ | d, .ret _, _ | d, .raise _, _ => Runs.act_mono (fun _ _ _ h => ⟨d, h⟩) _
  | _, .breakTo _, _ | _, .continueTo _, _ => le_refl _
  | _, .block body, _ => runAll_placed_le _ body
  | d, .choose _ thenFlows elseFlows, _ =>
    Runs.branch_mono (fun _ _ _ h => ⟨d, h⟩) (runAll_placed_le _ thenFlows)
      (runAll_placed_le _ elseFlows)
  | _, .loop _ body, labels =>
    Runs.seq_mono (Runs.act_mono (fun _ _ _ h => ⟨_, h⟩) _)
      (Runs.iterate_mono (fun _ _ _ h => ⟨_, h⟩) labels (runAll_placed_le _ body))
  | d, .switch subject cases, _ => by
    rintro a x b ⟨r, m, hpick, hrun⟩
    rw [tests_placedCases] at hpick hrun
    refine ⟨r, m, ⟨d, hpick⟩, ?_⟩
    cases r with
    | none => exact hrun
    | some found =>
      simp only [landing_placedTests] at hrun ⊢
      split at hrun
      · exact hrun
      · exact Runs.exitBy_mono _ (runFrom_placed_le d cases _) _ _ _ hrun
  | _, .protect _ body handler finalizer, _ =>
    Runs.finalized_mono (Runs.handled_mono (fun _ _ h => ⟨_, h⟩) (runAll_placed_le _ body)
      (runOption_placed_le _ handler)) (runOption_placed_le _ finalizer)
  | d, .labeled _ body, _ => Runs.exitBy_mono _ (Flow.run_placed_le d body _)

/-- Placed flows have no runs but those of flows without places, at some places. -/
theorem runAll_placed_le : (d : Depths) → (fs : List (Flow σ ε)) →
    runAll M (placedAll S d fs) ≤ runAll M.unplaced fs
  | _, [] => le_refl _
  | d, f :: fs => Runs.seq_mono (f.run_placed_le d []) (runAll_placed_le d fs)

/-- A placed block has no runs but those of the block without places. -/
theorem runOption_placed_le : (d : Depths) → (o : Option (List (Flow σ ε))) →
    Option.Rel (· ≤ ·) (runOption M (placedOption S d o)) (runOption M.unplaced o)
  | _, none => .none
  | _, some fs => .some (runAll_placed_le _ fs)

/-- Placed cases have no runs but those of the cases without places. -/
theorem runFrom_placed_le : (d : Depths) → (cases : List (Case σ ε)) → (i : Nat) →
    runFrom M (placedCases S d cases) i ≤ runFrom M.unplaced cases i
  | _, [], _ => le_refl _
  | d, ⟨_, body⟩ :: cases, 0 =>
    Runs.seq_mono (runAll_placed_le _ body) (runFrom_placed_le d cases 0)
  | d, ⟨_, _⟩ :: cases, i + 1 => runFrom_placed_le d cases i

end

end

/-! ## Names that no block declares -/

mutual

/-- What a statement and the blocks in it declare. -/
def Flow.declaresWithin (S : Scoping σ) : Flow σ ε → List String
  | .step code => S.declares code
  | .ret _ | .raise _ | .breakTo _ | .continueTo _ => []
  | .block body => declaredWithin S body
  | .choose _ thenFlows elseFlows => declaredWithin S thenFlows ++ declaredWithin S elseFlows
  | .loop header body => S.binds header ++ declaredWithin S body
  | .switch _ cases => declaredInCases S cases
  | .protect header body handler finalizer =>
    S.binds header ++ declaredWithin S body ++ declaredInOption S handler ++
      declaredInOption S finalizer
  | .labeled _ body => body.declaresWithin S

/-- What statements and the blocks in them declare. -/
def declaredWithin (S : Scoping σ) : List (Flow σ ε) → List String
  | [] => []
  | f :: fs => f.declaresWithin S ++ declaredWithin S fs

/-- What is declared within a block that may be missing. -/
def declaredInOption (S : Scoping σ) : Option (List (Flow σ ε)) → List String
  | none => []
  | some fs => declaredWithin S fs

/-- What is declared within the bodies of cases. -/
def declaredInCases (S : Scoping σ) : List (Case σ ε) → List String
  | [] => []
  | ⟨_, body⟩ :: cases => declaredWithin S body ++ declaredInCases S cases

end

/-- What a flow declares in its block is declared within it. -/
theorem Flow.declares_subset (S : Scoping σ) : (f : Flow σ ε) →
    f.declares S ⊆ f.declaresWithin S
  | .step _ => List.Subset.refl _
  | .labeled _ body => declares_subset S body
  | .ret _ | .raise _ | .breakTo _ | .continueTo _ | .block _ | .choose _ _ _ | .loop _ _
  | .switch _ _ | .protect _ _ _ _ => List.nil_subset _

/-- What flows declare in their block is declared within them. -/
theorem declared_subset (S : Scoping σ) (fs : List (Flow σ ε)) :
    declared S fs ⊆ declaredWithin S fs := by
  induction fs with
  | nil => exact List.nil_subset _
  | cons f fs ih =>
    rw [declared, List.flatMap_cons, declaredWithin]
    exact List.append_subset.2
      ⟨List.Subset.trans (f.declares_subset S) (List.subset_append_left _ _),
        List.Subset.trans ih (List.subset_append_right _ _)⟩

/-- What is declared within two parts is declared in one of them. -/
@[simp] theorem declaredWithin_append (S : Scoping σ) (fs gs : List (Flow σ ε)) :
    declaredWithin S (fs ++ gs) = declaredWithin S fs ++ declaredWithin S gs := by
  induction fs with
  | nil => rfl
  | cons f fs ih => rw [List.cons_append, declaredWithin, ih, declaredWithin, List.append_assoc]

/-- What is declared within cases is declared within a body. -/
theorem declaredInCases_eq (S : Scoping σ) (cases : List (Case σ ε)) :
    declaredInCases S cases = cases.flatMap fun c => declaredWithin S c.body := by
  induction cases with
  | nil => rfl
  | cons c cases ih =>
    obtain ⟨tests, body⟩ := c
    rw [declaredInCases, ih, List.flatMap_cons]

/-- In a block that does not declare it, a name means what it means around. -/
theorem Depths.enter_declared {S : Scoping σ} (d : Depths) {fs : List (Flow σ ε)} {x : String}
    (h : x ∉ declaredWithin S fs) : d.enter (declared S fs) x = d x :=
  d.enter_of_not_mem (mt (@declared_subset _ _ S fs x) h)

end Control

end TypedLowering
