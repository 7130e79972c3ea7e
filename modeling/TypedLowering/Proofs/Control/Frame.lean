import TypedLowering.Proofs.Control.Flow
import TypedLowering.Proofs.Ir.Uses

/-!
# What a run leaves alone

If the codes of flows each relate the states before and after them, then so do the runs of the flows
(`Machine.Keeps.runAll`). Which codes stand in flows is told by the names that they use, so a run
keeps what codes with such names keep.
-/

namespace TypedLowering.Control

/-- How a target writes variables and assignments, and what its code says about names. -/
structure Language (σ ε : Type) where
  /-- Whether an expression is the variable. -/
  IsVariable : String → ε → Prop
  /-- Whether a statement assigns the value of an expression to the variable. -/
  Assigns : String → ε → σ → Prop
  ExprUses : (Use → Prop) → ε → Prop
  CodeUses : (Use → Prop) → σ → Prop

variable {σ ε : Type}

mutual

/-- Whether all uses in a flow are of a kind. -/
def Flow.AllUses (L : Language σ ε) (P : Use → Prop) : Flow σ ε → Prop
  | .step code | .ret code | .raise code => L.CodeUses P code
  | .breakTo _ | .continueTo _ => True
  | .block body => FlowsUse L P body
  | .choose guard thenFlows elseFlows =>
    L.ExprUses P guard ∧ FlowsUse L P thenFlows ∧ FlowsUse L P elseFlows
  | .loop header body => L.CodeUses P header ∧ FlowsUse L P body
  | .switch subject cases => L.ExprUses P subject ∧ CasesUse L P cases
  | .protect header body handler finalizer =>
    L.CodeUses P header ∧ FlowsUse L P body ∧ OptionUses L P handler ∧ OptionUses L P finalizer
  | .labeled _ body => body.AllUses L P

/-- Whether all uses in flows are of a kind. -/
def FlowsUse (L : Language σ ε) (P : Use → Prop) : List (Flow σ ε) → Prop
  | [] => True
  | f :: fs => f.AllUses L P ∧ FlowsUse L P fs

/-- The names in a block that may be missing are of the kind. -/
def OptionUses (L : Language σ ε) (P : Use → Prop) : Option (List (Flow σ ε)) → Prop
  | none => True
  | some fs => FlowsUse L P fs

/-- The names in the tests and bodies of cases are of the kind. -/
def CasesUse (L : Language σ ε) (P : Use → Prop) : List (Case σ ε) → Prop
  | [] => True
  | ⟨tests, body⟩ :: cases =>
    (∀ ts ∈ tests, ∀ e ∈ ts, L.ExprUses P e) ∧ FlowsUse L P body ∧ CasesUse L P cases

end

/-- The names in two parts are of the kind if those in each are. -/
@[simp] theorem flowsUse_append {L : Language σ ε} {P : Use → Prop} {fs gs : List (Flow σ ε)} :
    FlowsUse L P (fs ++ gs) ↔ FlowsUse L P fs ∧ FlowsUse L P gs := by
  induction fs with
  | nil => exact ⟨fun h => ⟨trivial, h⟩, And.right⟩
  | cons f fs ih => rw [List.cons_append, FlowsUse, ih, FlowsUse, and_assoc]

/-- The names in two lists of cases are of the kind if those in each are. -/
@[simp] theorem casesUse_append {L : Language σ ε} {P : Use → Prop} {as bs : List (Case σ ε)} :
    CasesUse L P (as ++ bs) ↔ CasesUse L P as ∧ CasesUse L P bs := by
  induction as with
  | nil => exact ⟨fun h => ⟨trivial, h⟩, And.right⟩
  | cons c as ih =>
    obtain ⟨tests, body⟩ := c
    rw [List.cons_append, CasesUse, ih, CasesUse, and_assoc, and_assoc]

/-- Whether code with uses of a kind relates the states before and after it. -/
structure Machine.Keeps (M : Machine σ ε) (L : Language σ ε) (P : Use → Prop)
    (R : M.State → M.State → Prop) : Prop where
  refl : ∀ a, R a a
  trans : ∀ {a b c}, R a b → R b c → R a c
  step : ∀ {code a ok b}, L.CodeUses P code → M.step code a ok b → R a b
  test : ∀ {e a r b}, L.ExprUses P e → M.test e a r b → R a b
  start : ∀ {code a ok b}, L.CodeUses P code → M.start code a ok b → R a b
  next : ∀ {code a r b}, L.CodeUses P code → M.next code a r b → R a b
  pick : ∀ {e tests a r b}, L.ExprUses P e →
    (∀ t ∈ tests, ∀ ts ∈ t, ∀ e ∈ ts, L.ExprUses P e) → M.pick e tests a r b → R a b
  catches : ∀ {code a b}, L.CodeUses P code → M.catches code a b → R a b

/-- Whether the states before and after the runs of some code are related. -/
def Runs.Keep {S : Type} (R : S → S → Prop) (p : Runs S) : Prop :=
  ∀ a x b, p a x b → R a b

namespace Machine.Keeps

variable {M : Machine σ ε} {L : Language σ ε} {P : Use → Prop} {R : M.State → M.State → Prop}

section
variable (h : M.Keeps L P R)
include h

/-- An exit keeps the relation. -/
theorem exit (x : Exit) : Runs.Keep R (.exit x) := by
  rintro _ _ b ⟨-, rfl⟩
  exact h.refl b

/-- A sequence keeps the relation if its parts do. -/
theorem seq {p q : Runs M.State} (hp : Runs.Keep R p) (hq : Runs.Keep R q) :
    Runs.Keep R (.seq p q) := by
  rintro a x b (⟨hrun, -⟩ | ⟨m, hrun, hrest⟩)
  · exact hp a x b hrun
  · exact h.trans (hp a _ m hrun) (hq m x b hrest)

/-- A branch keeps the relation if its guard and its parts do. -/
theorem branch {guard : ε} {p q : Runs M.State} (hguard : L.ExprUses P guard)
    (hp : Runs.Keep R p) (hq : Runs.Keep R q) : Runs.Keep R (.branch (M.test guard) p q) := by
  rintro a x b (⟨htest, -⟩ | ⟨m, htest, hrun⟩ | ⟨m, htest, hrun⟩)
  · exact h.test hguard htest
  · exact h.trans (h.test hguard htest) (hp m x b hrun)
  · exact h.trans (h.test hguard htest) (hq m x b hrun)

/-- A loop keeps the relation if its header and its body do. -/
theorem iterate {header : σ} {labels : List String} {body : Runs M.State}
    (hheader : L.CodeUses P header) (hbody : Runs.Keep R body) :
    Runs.Keep R (.iterate (M.next header) labels body) := by
  intro a x b hrun
  induction hrun with
  | raised hnext => exact h.next hheader hnext
  | done hnext => exact h.next hheader hnext
  | again hnext hrun _ _ ih => exact h.trans (h.next hheader hnext) (h.trans (hbody _ _ _ hrun) ih)
  | left hnext hrun _ => exact h.trans (h.next hheader hnext) (hbody _ _ _ hrun)

/-- A handled body keeps the relation if its parts do. -/
theorem handled {header : σ} {body : Runs M.State} {handler : Option (Runs M.State)}
    (hheader : L.CodeUses P header) (hbody : Runs.Keep R body)
    (hhandler : ∀ p ∈ handler, Runs.Keep R p) :
    Runs.Keep R (.handled (M.catches header) body handler) := by
  cases handler with
  | none => exact hbody
  | some p =>
    rintro a x b (⟨hrun, -⟩ | ⟨m, n, hrun, hcatch, hrest⟩)
    · exact hbody a x b hrun
    · exact h.trans (hbody a _ m hrun)
        (h.trans (h.catches hheader hcatch) (hhandler p rfl n x b hrest))

/-- A finalized body keeps the relation if its parts do. -/
theorem finalized {body : Runs M.State} {finalizer : Option (Runs M.State)}
    (hbody : Runs.Keep R body) (hfinalizer : ∀ p ∈ finalizer, Runs.Keep R p) :
    Runs.Keep R (.finalized body finalizer) := by
  cases finalizer with
  | none => exact hbody
  | some p =>
    rintro a x b ⟨y, m, z, hrun, hrest, -⟩
    exact h.trans (hbody a y m hrun) (hfinalizer p rfl m z b hrest)

/-- A switch keeps the relation if its tests and its cases do. -/
theorem select {subject : ε} {tests : List (Option (List ε))} {fromCase : Nat → Runs M.State}
    (hsubject : L.ExprUses P subject) (htests : ∀ t ∈ tests, ∀ ts ∈ t, ∀ e ∈ ts, L.ExprUses P e)
    (hcase : ∀ i, Runs.Keep R (fromCase i)) :
    Runs.Keep R (.select M subject tests fromCase) := by
  rintro a x b ⟨r, m, hpick, hrun⟩
  refine h.trans (h.pick hsubject htests hpick) ?_
  cases r with
  | none => exact hrun.2 ▸ h.refl m
  | some found =>
    dsimp only at hrun
    split at hrun
    · exact hrun.2 ▸ h.refl m
    · obtain ⟨y, hrun, -⟩ := hrun
      exact hcase _ m y b hrun

end

/-- An action keeps the relation if each of its outcomes does. -/
theorem act {p : M.State → Bool → M.State → Prop} {done : Exit}
    (hp : ∀ {a ok b}, p a ok b → R a b) : Runs.Keep R (.act p done) := by
  rintro a x b (⟨hrun, -⟩ | ⟨hrun, -⟩) <;> exact hp hrun

/-- The names in the tests of cases are of the kind. -/
theorem tests_of_casesUse {cases : List (Case σ ε)} (hcases : CasesUse L P cases) :
    ∀ t ∈ cases.map (·.tests), ∀ ts ∈ t, ∀ e ∈ ts, L.ExprUses P e := by
  induction cases with
  | nil => exact nofun
  | cons c cases ih =>
    obtain ⟨tests, body⟩ := c
    exact List.forall_mem_cons.2 ⟨hcases.1, ih hcases.2.2⟩

mutual

/-- What the codes of a flow keep, its runs keep. -/
theorem run (h : M.Keeps L P R) {f : Flow σ ε} (hf : f.AllUses L P) (labels : List String) :
    Runs.Keep R (f.run M labels) := by
  cases f with
  | step | ret | raise => exact act (h.step hf)
  | breakTo | continueTo => exact h.exit _
  | block body => exact h.runAll hf
  | choose => exact h.branch hf.1 (h.runAll hf.2.1) (h.runAll hf.2.2)
  | loop => exact h.seq (act (h.start hf.1)) (h.iterate hf.1 (h.runAll hf.2))
  | switch => exact h.select hf.1 (tests_of_casesUse hf.2) (h.runFrom hf.2)
  | protect =>
    exact h.finalized (h.handled hf.1 (h.runAll hf.2.1) (h.runOption hf.2.2.1))
      (h.runOption hf.2.2.2)
  | labeled _ body =>
    rintro a x b ⟨y, hrun, -⟩
    exact h.run (f := body) hf _ a y b hrun

/-- The runs of flows keep the relation if their codes do. -/
theorem runAll (h : M.Keeps L P R) {fs : List (Flow σ ε)} (hfs : FlowsUse L P fs) :
    Runs.Keep R (Control.runAll M fs) := by
  cases fs with
  | nil => exact h.exit _
  | cons => exact h.seq (h.run hfs.1 _) (h.runAll hfs.2)

/-- The runs of a block that may be missing keep the relation. -/
theorem runOption (h : M.Keeps L P R) {o : Option (List (Flow σ ε))} (ho : OptionUses L P o) :
    ∀ p ∈ Control.runOption M o, Runs.Keep R p := by
  cases o with
  | none => exact nofun
  | some fs =>
    rintro p hp
    obtain rfl := Option.some.inj hp
    exact h.runAll ho

/-- The runs of cases, from any case on, keep the relation. -/
theorem runFrom (h : M.Keeps L P R) {cases : List (Case σ ε)} (hcases : CasesUse L P cases)
    (i : Nat) : Runs.Keep R (Control.runFrom M cases i) := by
  cases cases with
  | nil => exact h.exit _
  | cons c cases =>
    obtain ⟨tests, body⟩ := c
    cases i with
    | zero => exact h.seq (h.runAll hcases.2.1) (h.runFrom hcases.2.2 0)
    | succ i => exact h.runFrom hcases.2.2 i

end

end Machine.Keeps

end TypedLowering.Control

/-!
## Changes that make no difference

A change of the state makes no difference to code (`Unaffected`) if the code does the same after the
change, and the change is still there afterwards. If that holds of the codes of flows, then it holds
of the runs of the flows (`Machine.IsUnaffected.runAll`).
-/

namespace TypedLowering.Control

variable {σ ε : Type}

/-- Whether a change of the state makes no difference to what code does. -/
def Unaffected {S α : Type} (f : S → S) (p : S → α → S → Prop) : Prop :=
  ∀ a r b, p (f a) r b ↔ ∃ m, p a r m ∧ b = f m

/-- Whether a change of the state makes no difference to code with uses of a kind. -/
structure Machine.IsUnaffected (M : Machine σ ε) (L : Language σ ε) (P : Use → Prop)
    (f : M.State → M.State) : Prop where
  step : ∀ {code}, L.CodeUses P code → Unaffected f (M.step code)
  test : ∀ {e}, L.ExprUses P e → Unaffected f (M.test e)
  start : ∀ {code}, L.CodeUses P code → Unaffected f (M.start code)
  next : ∀ {code}, L.CodeUses P code → Unaffected f (M.next code)
  pick : ∀ {e tests}, L.ExprUses P e → (∀ t ∈ tests, ∀ ts ∈ t, ∀ e ∈ ts, L.ExprUses P e) →
    Unaffected f (M.pick e tests)
  catches : ∀ {code}, L.CodeUses P code →
    Unaffected f fun a (_ : Unit) b => M.catches code a b

namespace Unaffected

variable {S : Type} {f : S → S} {p q : Runs S}

/-- Code with that outcome which leaves the state as it is. -/
theorem stay {α : Type} (r : α) : Unaffected f fun a r' b => r' = r ∧ b = a := by
  intro a r' b
  constructor
  · rintro ⟨hr, rfl⟩
    exact ⟨a, ⟨hr, rfl⟩, rfl⟩
  · rintro ⟨_, ⟨hr, rfl⟩, rfl⟩
    exact ⟨hr, rfl⟩

/-- A change makes no difference to an exit. -/
theorem exit (x : Exit) : Unaffected f (Runs.exit x) := stay x

/-- A change makes no difference to an action if it makes none to its outcomes. -/
theorem act {act : S → Bool → S → Prop} (h : Unaffected f act) (done : Exit) :
    Unaffected f (Runs.act act done) := by
  intro a x b
  constructor
  · rintro (⟨hact, hx⟩ | ⟨hact, hx⟩) <;> obtain ⟨m, hm, rfl⟩ := (h _ _ _).1 hact
    · exact ⟨m, .inl ⟨hm, hx⟩, rfl⟩
    · exact ⟨m, .inr ⟨hm, hx⟩, rfl⟩
  · rintro ⟨m, ⟨hm, hx⟩ | ⟨hm, hx⟩, rfl⟩
    · exact .inl ⟨(h _ _ _).2 ⟨m, hm, rfl⟩, hx⟩
    · exact .inr ⟨(h _ _ _).2 ⟨m, hm, rfl⟩, hx⟩

/-- A change makes no difference to a sequence if it makes none to its parts. -/
theorem seq (hp : Unaffected f p) (hq : Unaffected f q) : Unaffected f (Runs.seq p q) := by
  intro a x b
  constructor
  · rintro (⟨hrun, hx⟩ | ⟨n, hrun, hrest⟩) <;> obtain ⟨m, hm, rfl⟩ := (hp _ _ _).1 hrun
    · exact ⟨m, .inl ⟨hm, hx⟩, rfl⟩
    · obtain ⟨m', hm', rfl⟩ := (hq _ _ _).1 hrest
      exact ⟨m', .inr ⟨m, hm, hm'⟩, rfl⟩
  · rintro ⟨m', ⟨hm, hx⟩ | ⟨m, hm, hm'⟩, rfl⟩
    · exact .inl ⟨(hp _ _ _).2 ⟨m', hm, rfl⟩, hx⟩
    · exact .inr ⟨f m, (hp _ _ _).2 ⟨m, hm, rfl⟩, (hq _ _ _).2 ⟨m', hm', rfl⟩⟩

/-- A change makes no difference to a run that ends otherwise. -/
theorem exitBy (hp : Unaffected f p) (g : Exit → Exit) : Unaffected f (Runs.exitBy g p) := by
  intro a x b
  constructor
  · rintro ⟨y, hrun, hx⟩
    obtain ⟨m, hm, rfl⟩ := (hp _ _ _).1 hrun
    exact ⟨m, ⟨y, hm, hx⟩, rfl⟩
  · rintro ⟨m, ⟨y, hm, hx⟩, rfl⟩
    exact ⟨y, (hp _ _ _).2 ⟨m, hm, rfl⟩, hx⟩

/-- A change makes no difference to a branch if it makes none to its parts. -/
theorem branch {test : S → Option Bool → S → Prop} (h : Unaffected f test)
    (hp : Unaffected f p) (hq : Unaffected f q) : Unaffected f (Runs.branch test p q) := by
  intro a x b
  constructor
  · rintro (⟨htest, hx⟩ | ⟨n, htest, hrun⟩ | ⟨n, htest, hrun⟩) <;>
      obtain ⟨m, hm, rfl⟩ := (h _ _ _).1 htest
    · exact ⟨m, .inl ⟨hm, hx⟩, rfl⟩
    · obtain ⟨m', hm', rfl⟩ := (hp _ _ _).1 hrun
      exact ⟨m', .inr (.inl ⟨m, hm, hm'⟩), rfl⟩
    · obtain ⟨m', hm', rfl⟩ := (hq _ _ _).1 hrun
      exact ⟨m', .inr (.inr ⟨m, hm, hm'⟩), rfl⟩
  · rintro ⟨m', ⟨hm, hx⟩ | ⟨m, hm, hm'⟩ | ⟨m, hm, hm'⟩, rfl⟩
    · exact .inl ⟨(h _ _ _).2 ⟨m', hm, rfl⟩, hx⟩
    · exact .inr (.inl ⟨f m, (h _ _ _).2 ⟨m, hm, rfl⟩, (hp _ _ _).2 ⟨m', hm', rfl⟩⟩)
    · exact .inr (.inr ⟨f m, (h _ _ _).2 ⟨m, hm, rfl⟩, (hq _ _ _).2 ⟨m', hm', rfl⟩⟩)

/-- A change makes no difference to a loop if it makes none to an iteration. -/
theorem iterate {next : S → Option Bool → S → Prop} (h : Unaffected f next)
    (labels : List String) (hp : Unaffected f p) : Unaffected f (Runs.iterate next labels p) := by
  intro a x b
  constructor
  · intro hrun
    generalize hfa : f a = a' at hrun
    induction hrun generalizing a with
    | raised hnext =>
      obtain ⟨m, hm, rfl⟩ := (h _ _ _).1 (hfa ▸ hnext)
      exact ⟨m, .raised hm, rfl⟩
    | done hnext =>
      obtain ⟨m, hm, rfl⟩ := (h _ _ _).1 (hfa ▸ hnext)
      exact ⟨m, .done hm, rfl⟩
    | again hnext hbody hgo _ ih =>
      obtain ⟨m, hm, rfl⟩ := (h _ _ _).1 (hfa ▸ hnext)
      obtain ⟨n, hn, rfl⟩ := (hp _ _ _).1 hbody
      obtain ⟨m', hm', rfl⟩ := ih n rfl
      exact ⟨m', .again hm hn hgo hm', rfl⟩
    | left hnext hbody hgo =>
      obtain ⟨m, hm, rfl⟩ := (h _ _ _).1 (hfa ▸ hnext)
      obtain ⟨n, hn, rfl⟩ := (hp _ _ _).1 hbody
      exact ⟨n, .left hm hn hgo, rfl⟩
  · rintro ⟨m', hrun, rfl⟩
    induction hrun with
    | raised hnext => exact .raised ((h _ _ _).2 ⟨_, hnext, rfl⟩)
    | done hnext => exact .done ((h _ _ _).2 ⟨_, hnext, rfl⟩)
    | again hnext hbody hgo _ ih =>
      exact .again ((h _ _ _).2 ⟨_, hnext, rfl⟩) ((hp _ _ _).2 ⟨_, hbody, rfl⟩) hgo ih
    | left hnext hbody hgo =>
      exact .left ((h _ _ _).2 ⟨_, hnext, rfl⟩) ((hp _ _ _).2 ⟨_, hbody, rfl⟩) hgo

/-- A change makes no difference to a handled body if it makes none to its parts. -/
theorem handled {catches : S → S → Prop} (h : Unaffected f fun a (_ : Unit) b => catches a b)
    (hp : Unaffected f p) {handler : Option (Runs S)} (hhandler : ∀ q ∈ handler, Unaffected f q) :
    Unaffected f (Runs.handled catches p handler) := by
  cases handler with
  | none => exact hp
  | some q =>
    have hq := hhandler q rfl
    intro a x b
    constructor
    · rintro (⟨hrun, hx⟩ | ⟨n, n', hrun, hcatch, hrest⟩) <;>
        obtain ⟨m, hm, rfl⟩ := (hp _ _ _).1 hrun
      · exact ⟨m, .inl ⟨hm, hx⟩, rfl⟩
      · obtain ⟨m₁, hm₁, rfl⟩ := (h _ () _).1 hcatch
        obtain ⟨m₂, hm₂, rfl⟩ := (hq _ _ _).1 hrest
        exact ⟨m₂, .inr ⟨m, m₁, hm, hm₁, hm₂⟩, rfl⟩
    · rintro ⟨m₂, ⟨hm, hx⟩ | ⟨m, m₁, hm, hm₁, hm₂⟩, rfl⟩
      · exact .inl ⟨(hp _ _ _).2 ⟨m₂, hm, rfl⟩, hx⟩
      · exact .inr ⟨f m, f m₁, (hp _ _ _).2 ⟨m, hm, rfl⟩, (h _ () _).2 ⟨m₁, hm₁, rfl⟩,
          (hq _ _ _).2 ⟨m₂, hm₂, rfl⟩⟩

/-- A change makes no difference to a finalized body if it makes none to its parts. -/
theorem finalized (hp : Unaffected f p) {finalizer : Option (Runs S)}
    (hfinalizer : ∀ q ∈ finalizer, Unaffected f q) :
    Unaffected f (Runs.finalized p finalizer) := by
  cases finalizer with
  | none => exact hp
  | some q =>
    have hq := hfinalizer q rfl
    intro a x b
    constructor
    · rintro ⟨y, n, z, hrun, hrest, hx⟩
      obtain ⟨m, hm, rfl⟩ := (hp _ _ _).1 hrun
      obtain ⟨m', hm', rfl⟩ := (hq _ _ _).1 hrest
      exact ⟨m', ⟨y, m, z, hm, hm', hx⟩, rfl⟩
    · rintro ⟨m', ⟨y, m, z, hm, hm', hx⟩, rfl⟩
      exact ⟨y, f m, z, (hp _ _ _).2 ⟨m, hm, rfl⟩, (hq _ _ _).2 ⟨m', hm', rfl⟩, hx⟩

/-- A change makes no difference to a switch if it makes none to its parts. -/
theorem select {M : Machine σ ε} {f : M.State → M.State} {subject : ε}
    {tests : List (Option (List ε))} {fromCase : Nat → Runs M.State}
    (h : Unaffected f (M.pick subject tests)) (hcase : ∀ i, Unaffected f (fromCase i)) :
    Unaffected f (Runs.select M subject tests fromCase) := by
  intro a x b
  constructor
  · rintro ⟨r, n, hpick, hrun⟩
    obtain ⟨m, hm, rfl⟩ := (h _ _ _).1 hpick
    cases r with
    | none => exact ⟨m, ⟨none, m, hm, hrun.1, rfl⟩, hrun.2⟩
    | some found =>
      cases hl : landing tests found with
      | none =>
        simp only [hl] at hrun
        exact ⟨m, ⟨some found, m, hm, by simpa only [hl, and_true] using hrun.1⟩, hrun.2⟩
      | some i =>
        simp only [hl] at hrun
        obtain ⟨m', hm', rfl⟩ := ((hcase i).exitBy _ _ _ _).1 hrun
        exact ⟨m', ⟨some found, m, hm, by simpa only [hl] using hm'⟩, rfl⟩
  · rintro ⟨m', ⟨r, m, hm, hrun⟩, rfl⟩
    refine ⟨r, f m, (h _ _ _).2 ⟨m, hm, rfl⟩, ?_⟩
    cases r with
    | none => exact ⟨hrun.1, congrArg f hrun.2⟩
    | some found =>
      cases hl : landing tests found with
      | none =>
        simp only [hl] at hrun ⊢
        exact ⟨hrun.1, congrArg f hrun.2⟩
      | some i =>
        simp only [hl] at hrun ⊢
        exact ((hcase i).exitBy _ _ _ _).2 ⟨m', hrun, rfl⟩

end Unaffected

namespace Machine.IsUnaffected

variable {M : Machine σ ε} {L : Language σ ε} {P : Use → Prop} {f : M.State → M.State}

mutual

/-- What makes no difference to the codes of a flow makes none to its runs. -/
theorem run (h : M.IsUnaffected L P f) {flow : Flow σ ε} (hflow : flow.AllUses L P)
    (labels : List String) : Unaffected f (flow.run M labels) := by
  cases flow with
  | step | ret | raise => exact (h.step hflow).act _
  | breakTo | continueTo => exact .exit _
  | block body => exact h.runAll hflow
  | choose => exact (h.test hflow.1).branch (h.runAll hflow.2.1) (h.runAll hflow.2.2)
  | loop =>
    exact ((h.start hflow.1).act _).seq ((h.next hflow.1).iterate labels (h.runAll hflow.2))
  | switch =>
    exact .select (h.pick hflow.1 (Machine.Keeps.tests_of_casesUse hflow.2)) (h.runFrom hflow.2)
  | protect =>
    exact .finalized (.handled (h.catches hflow.1) (h.runAll hflow.2.1) (h.runOption hflow.2.2.1))
      (h.runOption hflow.2.2.2)
  | labeled _ body =>
    have hbody : body.AllUses L P := hflow
    exact (h.run hbody _).exitBy _

/-- A change makes no difference to the runs of flows if it makes none to their codes. -/
theorem runAll (h : M.IsUnaffected L P f) {fs : List (Flow σ ε)} (hfs : FlowsUse L P fs) :
    Unaffected f (Control.runAll M fs) := by
  cases fs with
  | nil => exact .exit _
  | cons => exact (h.run hfs.1 _).seq (h.runAll hfs.2)

/-- A change makes no difference to the runs of a block that may be missing. -/
theorem runOption (h : M.IsUnaffected L P f) {o : Option (List (Flow σ ε))}
    (ho : OptionUses L P o) : ∀ p ∈ Control.runOption M o, Unaffected f p := by
  cases o with
  | none => exact nofun
  | some fs =>
    rintro p hp
    obtain rfl := Option.some.inj hp
    exact h.runAll ho

/-- A change makes no difference to the runs of cases, from any case on. -/
theorem runFrom (h : M.IsUnaffected L P f) {cases : List (Case σ ε)} (hcases : CasesUse L P cases)
    (i : Nat) : Unaffected f (Control.runFrom M cases i) := by
  cases cases with
  | nil => exact .exit _
  | cons c cases =>
    obtain ⟨tests, body⟩ := c
    cases i with
    | zero => exact (h.runAll hcases.2.1).seq (h.runFrom hcases.2.2 0)
    | succ i => exact h.runFrom hcases.2.2 i

end

end Machine.IsUnaffected

end TypedLowering.Control
