/-!
# Control flow

What both targets have in common: statements that run one after the other, branch, repeat, and jump.
A `Flow` is a statement with its control flow laid open. Its leaves, guards and headers are code of
a target, and a `Machine` runs them. `Flow.run` says what runs of a flow there are, for any machine:
from which state, ending how, in which state. Values that are returned or raised are part of the
state.
-/

namespace TypedLowering.Control

/-- How a run of statements ends. -/
inductive Exit where
  /-- The statements after it come next. -/
  | normal
  | returned
  | raised
  /-- A jump behind the statement with the label, or behind the innermost loop or switch. -/
  | broke (label : Option String)
  /-- A jump to the next iteration of the loop with the label, or of the innermost loop. -/
  | continued (label : Option String)
  deriving DecidableEq, Repr

namespace Exit

/-- The exit of a loop or a switch whose body ended so. -/
def leave : Exit → Exit
  | .broke none => .normal
  | x => x

/-- The exit of a statement with that label. -/
def leaveLabel (label : String) : Exit → Exit
  | .broke (some l) => if l = label then .normal else .broke (some l)
  | x => x

/-- Whether a loop with those labels goes on when its body ended so. -/
def goesOn (labels : List String) : Exit → Bool
  | .normal | .continued none => true
  | .continued (some l) => labels.contains l
  | _ => false

end Exit

mutual

/-- A statement with its control flow laid open. The leaves, and the headers of loops and handlers,
are code of type `σ`; guards and subjects are expressions of type `ε`. -/
inductive Flow (σ ε : Type) where
  | step (code : σ)
  | ret (code : σ)
  | raise (code : σ)
  | breakTo (label : Option String)
  | continueTo (label : Option String)
  | block (body : List (Flow σ ε))
  | choose (guard : ε) (thenFlows elseFlows : List (Flow σ ε))
  | loop (header : σ) (body : List (Flow σ ε))
  | switch (subject : ε) (cases : List (Case σ ε))
  | protect (header : σ) (body : List (Flow σ ε)) (handler finalizer : Option (List (Flow σ ε)))
  | labeled (label : String) (body : Flow σ ε)

/-- A case of a switch; the default case has no tests. A run goes on with the next case at its
end. -/
structure Case (σ ε : Type) where
  tests : Option (List ε)
  body : List (Flow σ ε)

end

/-- What runs the parts of statements that are no control flow. All of it may change the state and
may have several outcomes; code that raises has the outcome `false` or `none`. -/
structure Machine (σ ε : Type) where
  State : Type
  /-- Runs a leaf. -/
  step : σ → State → Bool → State → Prop
  /-- Decides a guard. -/
  test : ε → State → Option Bool → State → Prop
  /-- Runs the header of a loop when the loop is reached. -/
  start : σ → State → Bool → State → Prop
  /-- Decides whether there is another iteration. -/
  next : σ → State → Option Bool → State → Prop
  /-- Finds the case whose test the subject passes, if there is one. -/
  pick : ε → List (Option (List ε)) → State → Option (Option Nat) → State → Prop
  /-- Binds what was raised to the parameter of a handler. -/
  catches : σ → State → State → Prop
  /-- A case that is found has tests. -/
  pick_tests {subject : ε} {tests : List (Option (List ε))} {a b : State} {i : Nat} :
    pick subject tests a (some (some i)) b → ∃ ts, tests[i]? = some (some ts)

/-- A case that is found by its tests has tests. -/
theorem exists_of_findIdx? {ε : Type} {p : Option (List ε) → Bool} {i : Nat}
    {tests : List (Option (List ε))} (hnone : p none = false) (h : tests.findIdx? p = some i) :
    ∃ ts, tests[i]? = some (some ts) := by
  obtain ⟨hi, hfound, -⟩ := List.findIdx?_eq_some_iff_getElem.1 h
  cases htests : tests[i] with
  | none =>
    rw [htests, hnone] at hfound
    cases hfound
  | some ts => exact ⟨ts, htests ▸ List.getElem?_eq_getElem hi⟩

/-- The runs of some code: from which state, ending how, in which state. -/
abbrev Runs (S : Type) := S → Exit → S → Prop

namespace Runs

variable {S : Type}

/-- Nothing happens, and the code ends so. -/
def exit (x : Exit) : Runs S := fun a y b => y = x ∧ b = a

/-- An action that may raise; if it does not, the code ends so. -/
def act (p : S → Bool → S → Prop) (done : Exit) : Runs S := fun a x b =>
  (p a true b ∧ x = done) ∨ (p a false b ∧ x = .raised)

/-- One after the other. -/
def seq (p q : Runs S) : Runs S := fun a x b =>
  (p a x b ∧ x ≠ .normal) ∨ ∃ m, p a .normal m ∧ q m x b

/-- Ending otherwise. -/
def exitBy (f : Exit → Exit) (p : Runs S) : Runs S := fun a x b =>
  ∃ y, p a y b ∧ x = f y

/-- One of two ways, by a test. -/
def branch (test : S → Option Bool → S → Prop) (p q : Runs S) : Runs S := fun a x b =>
  (test a none b ∧ x = .raised) ∨ (∃ m, test a (some true) m ∧ p m x b) ∨
    ∃ m, test a (some false) m ∧ q m x b

/-- The iterations of a loop with those labels. -/
inductive iterate (next : S → Option Bool → S → Prop) (labels : List String) (body : Runs S) :
    Runs S
  | raised {a b : S} : next a none b → iterate next labels body a .raised b
  | done {a b : S} : next a (some false) b → iterate next labels body a .normal b
  | again {a m n b : S} {x y : Exit} : next a (some true) m → body m x n →
      x.goesOn labels = true → iterate next labels body n y b → iterate next labels body a y b
  | left {a m b : S} {x : Exit} : next a (some true) m → body m x b →
      x.goesOn labels = false → iterate next labels body a x.leave b

/-- A body with a handler: the handler takes over when the body raises. -/
def handled (catches : S → S → Prop) (body : Runs S) : Option (Runs S) → Runs S
  | none => body
  | some handler => fun a x b =>
    (body a x b ∧ x ≠ .raised) ∨ ∃ m n, body a .raised m ∧ catches m n ∧ handler n x b

/-- A body with a finalizer: it runs however the body ends, and its own jumps win. -/
def finalized (body : Runs S) : Option (Runs S) → Runs S
  | none => body
  | some finalizer => fun a x b =>
    ∃ y m z, body a y m ∧ finalizer m z b ∧ x = if z = .normal then y else z

end Runs

/-- The case a switch goes to: the one found, else the default case. -/
def landing {ε : Type} (tests : List (Option (List ε))) : Option Nat → Option Nat
  | some i => some i
  | none => tests.findIdx? (·.isNone)

/-- A switch: what runs from the case that it goes to on. Breaks end it. -/
def Runs.select {σ ε : Type} (M : Machine σ ε) (subject : ε) (tests : List (Option (List ε)))
    (fromCase : Nat → Runs M.State) : Runs M.State := fun a x b =>
  ∃ r m, M.pick subject tests a r m ∧
    match r with
    | none => x = .raised ∧ b = m
    | some found =>
      match landing tests found with
      | none => x = .normal ∧ b = m
      | some i => Runs.exitBy .leave (fromCase i) m x b

mutual

/-- The runs of a flow; the labels are those right in front of it. -/
def Flow.run {σ ε : Type} (M : Machine σ ε) (labels : List String) : Flow σ ε → Runs M.State
  | .step code => .act (M.step code) .normal
  | .ret code => .act (M.step code) .returned
  | .raise code => .act (M.step code) .raised
  | .breakTo label => .exit (.broke label)
  | .continueTo label => .exit (.continued label)
  | .block body => runAll M body
  | .choose guard thenFlows elseFlows =>
    .branch (M.test guard) (runAll M thenFlows) (runAll M elseFlows)
  | .loop header body =>
    .seq (.act (M.start header) .normal) (.iterate (M.next header) labels (runAll M body))
  | .switch subject cases => .select M subject (cases.map (·.tests)) (runFrom M cases)
  | .protect header body handler finalizer =>
    .finalized (.handled (M.catches header) (runAll M body) (runOption M handler))
      (runOption M finalizer)
  | .labeled label body => .exitBy (.leaveLabel label) (body.run M (label :: labels))

/-- The runs of flows one after the other. -/
def runAll {σ ε : Type} (M : Machine σ ε) : List (Flow σ ε) → Runs M.State
  | [] => .exit .normal
  | f :: fs => .seq (f.run M []) (runAll M fs)

/-- The runs of a list of flows that may be left out. -/
def runOption {σ ε : Type} (M : Machine σ ε) : Option (List (Flow σ ε)) → Option (Runs M.State)
  | none => none
  | some fs => some (runAll M fs)

/-- The runs of the cases of a switch from one of them on. -/
def runFrom {σ ε : Type} (M : Machine σ ε) : List (Case σ ε) → Nat → Runs M.State
  | [], _ => .exit .normal
  | ⟨_, body⟩ :: cases, 0 => .seq (runAll M body) (runFrom M cases 0)
  | _ :: cases, i + 1 => runFrom M cases i

end

/-!
## Laws of runs

Code that runs one after the other composes like a monoid, so the runs of a list of flows can be cut
anywhere (`runAll_append`).
-/

variable {σ ε : Type}

namespace Runs

variable {S : Type}

/-- Doing nothing first makes no difference. -/
@[simp] theorem exit_normal_seq (p : Runs S) : seq (exit .normal) p = p := by
  funext a x b
  refine propext ⟨?_, fun h => .inr ⟨a, ⟨rfl, rfl⟩, h⟩⟩
  rintro (⟨⟨rfl, -⟩, hx⟩ | ⟨m, ⟨-, rfl⟩, h⟩)
  · exact absurd rfl hx
  · exact h

/-- Doing nothing last makes no difference. -/
@[simp] theorem seq_exit_normal (p : Runs S) : seq p (exit .normal) = p := by
  funext a x b
  refine propext ⟨?_, fun h => ?_⟩
  · rintro (⟨h, -⟩ | ⟨m, h, rfl, rfl⟩) <;> exact h
  · by_cases hx : x = .normal
    · subst hx
      exact .inr ⟨b, h, rfl, rfl⟩
    · exact .inl ⟨h, hx⟩

theorem seq_assoc (p q r : Runs S) : seq (seq p q) r = seq p (seq q r) := by
  funext a x b
  refine propext ⟨?_, ?_⟩
  · rintro (⟨⟨hp, hx⟩ | ⟨m, hp, hq⟩, hx'⟩ | ⟨n, ⟨-, hx⟩ | ⟨m, hp, hq⟩, hr⟩)
    · exact .inl ⟨hp, hx⟩
    · exact .inr ⟨m, hp, .inl ⟨hq, hx'⟩⟩
    · exact absurd rfl hx
    · exact .inr ⟨m, hp, .inr ⟨n, hq, hr⟩⟩
  · rintro (⟨hp, hx⟩ | ⟨m, hp, ⟨hq, hx⟩ | ⟨n, hq, hr⟩⟩)
    · exact .inl ⟨.inl ⟨hp, hx⟩, hx⟩
    · exact .inl ⟨.inr ⟨m, hp, hq⟩, hx⟩
    · exact .inr ⟨n, .inr ⟨m, hp, hq⟩, hr⟩

/-- What follows code that never comes to its end does not run. -/
theorem seq_of_not_normal {p : Runs S} (h : ∀ a b, ¬ p a .normal b) (q : Runs S) :
    seq p q = p := by
  funext a x b
  refine propext ⟨?_, fun hp => .inl ⟨hp, ?_⟩⟩
  · rintro (⟨hp, -⟩ | ⟨m, hp, -⟩)
    · exact hp
    · exact absurd hp (h a m)
  · rintro rfl
    exact h a b hp

end Runs

variable (M : Machine σ ε)

@[simp] theorem runAll_nil : runAll M [] = .exit .normal := rfl

@[simp] theorem runAll_cons (f : Flow σ ε) (fs : List (Flow σ ε)) :
    runAll M (f :: fs) = .seq (f.run M []) (runAll M fs) := rfl

/-- The runs of two lists, one after the other. -/
@[simp] theorem runAll_append (as bs : List (Flow σ ε)) :
    runAll M (as ++ bs) = .seq (runAll M as) (runAll M bs) := by
  induction as with
  | nil => simp only [List.nil_append, runAll_nil, Runs.exit_normal_seq]
  | cons a as ih => simp only [List.cons_append, runAll_cons, ih, Runs.seq_assoc]

theorem runAll_singleton (f : Flow σ ε) : runAll M [f] = f.run M [] := by
  rw [runAll_cons, runAll_nil, Runs.seq_exit_normal]

/-- From a case on, the cases before it do not run. -/
theorem runFrom_eq (cases : List (Case σ ε)) (i : Nat) :
    runFrom M cases i = runAll M ((cases.drop i).flatMap (·.body)) := by
  induction cases generalizing i with
  | nil => simp only [List.drop_nil, List.flatMap_nil, runFrom, runAll_nil]
  | cons c cases ih =>
    obtain ⟨tests, body⟩ := c
    cases i with
    | zero =>
      simp only [runFrom, List.drop_zero, List.flatMap_cons, runAll_append]
      rw [ih 0, List.drop_zero]
    | succ i => simp only [runFrom, List.drop_succ_cons, ih i]

end TypedLowering.Control
