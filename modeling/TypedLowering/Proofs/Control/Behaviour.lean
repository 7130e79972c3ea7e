import TypedLowering.Proofs.Control.Flow
import TypedLowering.Proofs.Control.Frame

/-!
# Code with a value

What comes of code that has a value: the value, or an exit before there is one. Such code is a
monad (`Behaviour`), so code in which a value decides what is evaluated next is written as a `do`
block. Runs of statements are behaviours without a value (`Behaviour.ofRuns`), and what statements
do one after the other or in branches comes out as such blocks.

Two behaviours are the same but for a variable (`Memory.SameBut`) if they have the same outcomes,
whatever the variable is at first, and leave the same state, apart from the variable.
-/

namespace TypedLowering.Control

/-- What comes of code that has a value. -/
inductive Outcome (α : Type) where
  | value (v : α)
  /-- There is no value, as the code ended so. -/
  | exit (x : Exit)

/-- The behaviour of code that has a value: from which state, with which outcome, in which state. -/
def Behaviour (S α : Type) := S → Outcome α → S → Prop

namespace Behaviour

variable {S α β : Type}

/-- Behaviours with the same outcomes are the same. -/
@[ext] theorem ext {p q : Behaviour S α} (h : ∀ a r b, p a r b ↔ q a r b) : p = q :=
  funext fun a => funext fun r => funext fun b => propext (h a r b)

instance : Monad (Behaviour S) where
  pure v := fun a r b => r = .value v ∧ b = a
  bind p k := fun a r b =>
    (∃ x, p a (.exit x) b ∧ r = .exit x) ∨ ∃ v m, p a (.value v) m ∧ k v m r b

/-- A value that is given is the outcome, and the state stays. -/
theorem pure_iff {v : α} {a b : S} {r : Outcome α} :
    (pure v : Behaviour S α) a r b ↔ r = .value v ∧ b = a :=
  Iff.rfl

/-- A value that is given is handed on. -/
theorem pure_bind_eq (v : α) (k : α → Behaviour S β) : pure v >>= k = k v := by
  ext a r b
  constructor
  · rintro (⟨x, ⟨⟨⟩, -⟩, -⟩ | ⟨w, m, ⟨hw, rfl⟩, h⟩)
    obtain rfl := Outcome.value.inj hw
    exact h
  · exact fun h => .inr ⟨v, a, ⟨rfl, rfl⟩, h⟩

/-- Giving the value again changes nothing. -/
theorem bind_pure_eq (p : Behaviour S α) : p >>= pure = p := by
  ext a r b
  constructor
  · rintro (⟨x, h, rfl⟩ | ⟨v, m, h, rfl, rfl⟩) <;> exact h
  · intro h
    cases r with
    | value v => exact .inr ⟨v, b, h, rfl, rfl⟩
    | exit x => exact .inl ⟨x, h, rfl⟩

/-- Three behaviours in sequence may be grouped either way. -/
theorem bind_assoc_eq {γ : Type} (p : Behaviour S α) (k : α → Behaviour S β)
    (l : β → Behaviour S γ) : p >>= k >>= l = p >>= fun v => k v >>= l := by
  ext a r b
  constructor
  · rintro (⟨x, ⟨_, hp, ⟨⟩⟩ | ⟨v, m, hp, hk⟩, rfl⟩ | ⟨w, n, ⟨_, -, ⟨⟩⟩ | ⟨v, m, hp, hk⟩, hl⟩)
    · exact .inl ⟨x, hp, rfl⟩
    · exact .inr ⟨v, m, hp, .inl ⟨x, hk, rfl⟩⟩
    · exact .inr ⟨v, m, hp, .inr ⟨w, n, hk, hl⟩⟩
  · rintro (⟨x, hp, rfl⟩ | ⟨v, m, hp, ⟨x, hk, rfl⟩ | ⟨w, n, hk, hl⟩⟩)
    · exact .inl ⟨x, .inl ⟨x, hp, rfl⟩, rfl⟩
    · exact .inl ⟨x, .inr ⟨v, m, hp, hk⟩, rfl⟩
    · exact .inr ⟨w, n, .inr ⟨v, m, hp, hk⟩, hl⟩

instance : LawfulMonad (Behaviour S) := LawfulMonad.mk' (Behaviour S)
  bind_pure_eq pure_bind_eq bind_assoc_eq

/-- The runs of code that has no value. -/
def ofRuns (p : Runs S) : Behaviour S Unit
  | a, .value _, b => p a .normal b
  | a, .exit x, b => p a x b ∧ x ≠ .normal

/-- An action that may raise. -/
def ofAction (p : S → Bool → S → Prop) : Behaviour S Unit
  | a, .value _, b => p a true b
  | a, .exit x, b => p a false b ∧ x = .raised

/-- A test that may raise. -/
def ofTest (p : S → Option Bool → S → Prop) : Behaviour S Bool
  | a, .value c, b => p a (some c) b
  | a, .exit x, b => p a none b ∧ x = .raised

/-- Coming to the end has no value. -/
@[simp] theorem ofRuns_exit_normal : ofRuns (.exit .normal : Runs S) = pure () := by
  ext a r b
  cases r with
  | value => exact ⟨fun h => ⟨rfl, h.2⟩, fun h => ⟨rfl, h.2⟩⟩
  | exit x => exact ⟨fun h => absurd h.1.1 h.2, nofun⟩

/-- Runs in sequence are behaviours in sequence. -/
theorem ofRuns_seq (p q : Runs S) : ofRuns (.seq p q) = (do ofRuns p; ofRuns q) := by
  ext a r b
  cases r with
  | value =>
    constructor
    · rintro (⟨-, hx⟩ | ⟨m, hp, hq⟩)
      · exact absurd rfl hx
      · exact .inr ⟨(), m, hp, hq⟩
    · rintro (⟨_, -, ⟨⟩⟩ | ⟨_, m, hp, hq⟩)
      exact .inr ⟨m, hp, hq⟩
  | exit x =>
    constructor
    · rintro ⟨⟨hp, -⟩ | ⟨m, hp, hq⟩, hx⟩
      · exact .inl ⟨x, ⟨hp, hx⟩, rfl⟩
      · exact .inr ⟨(), m, hp, hq, hx⟩
    · rintro (⟨y, ⟨hp, hy⟩, ⟨⟩⟩ | ⟨_, m, hp, hq, hx⟩)
      · exact ⟨.inl ⟨hp, hy⟩, hy⟩
      · exact ⟨.inr ⟨m, hp, hq⟩, hx⟩

/-- An action is a behaviour without a value. -/
theorem ofRuns_act (p : S → Bool → S → Prop) : ofRuns (.act p .normal) = ofAction p := by
  ext a r b
  cases r with
  | value =>
    constructor
    · rintro (⟨h, -⟩ | ⟨-, ⟨⟩⟩)
      exact h
    · exact fun h => .inl ⟨h, rfl⟩
  | exit x =>
    constructor
    · rintro ⟨⟨-, hx⟩ | h, hne⟩
      · exact absurd hx hne
      · exact h
    · rintro ⟨h, rfl⟩
      exact ⟨.inr ⟨h, rfl⟩, nofun⟩

/-- A branch is a choice by the value of its test. -/
theorem ofRuns_branch (test : S → Option Bool → S → Prop) (p q : Runs S) :
    ofRuns (.branch test p q) = (do if ← ofTest test then ofRuns p else ofRuns q) := by
  ext a r b
  cases r with
  | value =>
    constructor
    · rintro (⟨-, ⟨⟩⟩ | ⟨m, htest, h⟩ | ⟨m, htest, h⟩)
      · exact .inr ⟨true, m, htest, h⟩
      · exact .inr ⟨false, m, htest, h⟩
    · rintro (⟨_, -, ⟨⟩⟩ | ⟨_ | _, m, htest, h⟩)
      · exact .inr (.inr ⟨m, htest, h⟩)
      · exact .inr (.inl ⟨m, htest, h⟩)
  | exit x =>
    constructor
    · rintro ⟨⟨htest, rfl⟩ | ⟨m, htest, h⟩ | ⟨m, htest, h⟩, hx⟩
      · exact .inl ⟨.raised, ⟨htest, rfl⟩, rfl⟩
      · exact .inr ⟨true, m, htest, h, hx⟩
      · exact .inr ⟨false, m, htest, h, hx⟩
    · rintro (⟨_, ⟨htest, rfl⟩, ⟨⟩⟩ | ⟨_ | _, m, htest, h, hx⟩)
      · exact ⟨.inl ⟨htest, rfl⟩, nofun⟩
      · exact ⟨.inr (.inr ⟨m, htest, h⟩), hx⟩
      · exact ⟨.inr (.inl ⟨m, htest, h⟩), hx⟩

/-- A change that makes no difference to runs makes none to the behaviour. -/
theorem unaffected_ofRuns {f : S → S} {p : Runs S} (h : Unaffected f p) :
    Unaffected f (ofRuns p) := by
  intro a r b
  cases r with
  | value => exact h a .normal b
  | exit x =>
    constructor
    · rintro ⟨hrun, hx⟩
      obtain ⟨m, hm, rfl⟩ := (h a x b).1 hrun
      exact ⟨m, ⟨hm, hx⟩, rfl⟩
    · rintro ⟨m, ⟨hm, hx⟩, rfl⟩
      exact ⟨(h a x _).2 ⟨m, hm, rfl⟩, hx⟩

/-- A change that makes no difference to two behaviours makes none to their sequence. -/
theorem unaffected_bind {f : S → S} {p : Behaviour S α} {k : α → Behaviour S β}
    (hp : Unaffected f p) (hk : ∀ v, Unaffected f (k v)) : Unaffected f (p >>= k) := by
  intro a r b
  constructor
  · rintro (⟨x, hrun, hr⟩ | ⟨v, n, hrun, hrest⟩) <;> obtain ⟨m, hm, rfl⟩ := (hp _ _ _).1 hrun
    · exact ⟨m, .inl ⟨x, hm, hr⟩, rfl⟩
    · obtain ⟨m', hm', rfl⟩ := (hk v _ _ _).1 hrest
      exact ⟨m', .inr ⟨v, m, hm, hm'⟩, rfl⟩
  · rintro ⟨m', ⟨x, hm, hr⟩ | ⟨v, m, hm, hm'⟩, rfl⟩
    · exact .inl ⟨x, (hp _ _ _).2 ⟨m', hm, rfl⟩, hr⟩
    · exact .inr ⟨v, f m, (hp _ _ _).2 ⟨m, hm, rfl⟩, (hk v _ _ _).2 ⟨m', hm', rfl⟩⟩

/-! ### Short circuits -/

section
variable {V : Type} (holds : V → Bool)

/-- A logical operation, where the left operand decides if it holds or if it does not. Otherwise its
value is that of the right operand, which is performed only then. -/
def logical (decider : Bool) (left right : Behaviour S V) : Behaviour S V := do
  let v ← left
  if holds v = decider then return v else right

/-- A conditional performs the guard, and then the branch that the guard selects. -/
def conditional (guard thenPart elsePart : Behaviour S V) : Behaviour S V := do
  if holds (← guard) then thenPart else elsePart

end

end Behaviour

/-! ## Variables -/

/-- The variables in the states of a machine. -/
structure Memory (S : Type) where
  Value : Type
  get : S → String → Value
  set : S → String → Value → S
  get_set (a : S) (x : String) (v : Value) : get (set a x v) x = v
  set_get (a : S) (x : String) : set a x (get a x) = a
  set_set (a : S) (x : String) (v w : Value) : set (set a x v) x w = set a x w

namespace Memory

variable {S α β : Type} (V : Memory S)

/-- Reads a variable. -/
def load (x : String) : Behaviour S V.Value := fun a r b => r = .value (V.get a x) ∧ b = a

/-- Writes a variable. -/
def store (x : String) (v : V.Value) : Behaviour S Unit := fun a r b =>
  r = .value () ∧ b = V.set a x v

/-- Whether code has nothing to do with a variable. -/
def Ignores (x : String) (p : Behaviour S α) : Prop :=
  ∀ v, Unaffected (V.set · x v) p

/-- Whether code is the same but for a variable: it has the outcomes of the other code, whatever the
variable is at first, and leaves the same state apart from the variable. -/
structure SameBut (x : String) (p q : Behaviour S α) : Prop where
  sound : ∀ {a v r b}, p (V.set a x v) r b → ∃ m w, q a r m ∧ b = V.set m x w
  complete : ∀ {a r m} v, q a r m → ∃ w, p (V.set a x v) r (V.set m x w)

variable {V} {x : String} {v : V.Value} {p q : Behaviour S α} {k l : α → Behaviour S β}

/-- What follows a load gets the value of the variable. -/
theorem load_bind_iff {k : V.Value → Behaviour S β} {a b : S} {r : Outcome β} :
    (V.load x >>= k) a r b ↔ k (V.get a x) a r b := by
  constructor
  · rintro (⟨_, ⟨⟨⟩, -⟩, -⟩ | ⟨_, m, ⟨⟨⟩, rfl⟩, h⟩)
    exact h
  · exact fun h => .inr ⟨_, a, ⟨rfl, rfl⟩, h⟩

/-- What follows a store gets the changed state. -/
theorem store_bind_iff {k : Unit → Behaviour S β} {a b : S} {r : Outcome β} :
    (V.store x v >>= k) a r b ↔ k () (V.set a x v) r b := by
  constructor
  · rintro (⟨_, ⟨⟨⟩, -⟩, -⟩ | ⟨_, m, ⟨-, rfl⟩, h⟩)
    exact h
  · exact fun h => .inr ⟨(), _, ⟨rfl, rfl⟩, h⟩

/-- What is overwritten makes no difference. -/
theorem store_store {w : V.Value} (k : Unit → Behaviour S β) :
    (do V.store x v; V.store x w >>= k) = V.store x w >>= k := by
  ext a r b
  rw [store_bind_iff, store_bind_iff, store_bind_iff, V.set_set]

/-- A value that is given depends on no variable. -/
theorem ignores_pure (u : α) : V.Ignores x (pure u : Behaviour S α) :=
  fun _ => .stay _

/-- What was written is read. -/
theorem store_load (k : V.Value → Behaviour S β) :
    (do V.store x v; k (← V.load x)) = (do V.store x v; k v) := by
  ext a r b
  rw [store_bind_iff, store_bind_iff, load_bind_iff, V.get_set]

namespace SameBut

/-- Code that has nothing to do with a variable. -/
theorem of_ignores (h : V.Ignores x p) : V.SameBut x p p where
  sound hset := by
    obtain ⟨m, hp, rfl⟩ := (h _ _ _ _).1 hset
    exact ⟨m, _, hp, rfl⟩
  complete v hp := ⟨v, (h v _ _ _).2 ⟨_, hp, rfl⟩⟩

/-- Behaviours in sequence are the same but for a variable if each is. -/
theorem bind (h : V.SameBut x p q) (hk : ∀ v, V.SameBut x (k v) (l v)) :
    V.SameBut x (p >>= k) (q >>= l) where
  sound := by
    rintro a v r b (⟨y, hp, rfl⟩ | ⟨u, n, hp, hrest⟩)
    · obtain ⟨m, w, hq, rfl⟩ := h.sound hp
      exact ⟨m, w, .inl ⟨y, hq, rfl⟩, rfl⟩
    · obtain ⟨m, w, hq, rfl⟩ := h.sound hp
      obtain ⟨m', w', hl, rfl⟩ := (hk u).sound hrest
      exact ⟨m', w', .inr ⟨u, m, hq, hl⟩, rfl⟩
  complete := by
    rintro a r m v (⟨y, hq, rfl⟩ | ⟨u, n, hq, hrest⟩)
    · obtain ⟨w, hp⟩ := h.complete v hq
      exact ⟨w, .inl ⟨y, hp, rfl⟩⟩
    · obtain ⟨w, hp⟩ := h.complete v hq
      obtain ⟨w', hk⟩ := (hk u).complete w hrest
      exact ⟨w', .inr ⟨u, _, hp, hk⟩⟩

/-- Code that writes the variable first. -/
theorem store_bind (k : Unit → Behaviour S β) :
    V.SameBut x (V.store x v >>= k) (V.store x v >>= k) where
  sound {a w r b} h := by
    rw [store_bind_iff, V.set_set] at h
    exact ⟨b, V.get b x, store_bind_iff.2 h, (V.set_get b x).symm⟩
  complete {a r m} w h := by
    rw [store_bind_iff] at h
    refine ⟨V.get m x, store_bind_iff.2 ?_⟩
    rwa [V.set_set, V.set_get]

/-- The variable may be written before code that has nothing to do with it. -/
theorem store_early (hp : V.Ignores x p)
    (h : ∀ u, V.SameBut x (do V.store x v; k u) (l u)) :
    V.SameBut x (do V.store x v; k (← p)) (p >>= l) where
  sound {a w r b} hrun := by
    rw [store_bind_iff, V.set_set] at hrun
    rcases hrun with ⟨y, hset, rfl⟩ | ⟨u, n, hset, hrest⟩
    · obtain ⟨m, hexit, rfl⟩ := (hp _ _ _ _).1 hset
      exact ⟨m, v, .inl ⟨y, hexit, rfl⟩, rfl⟩
    · obtain ⟨m, hvalue, rfl⟩ := (hp _ _ _ _).1 hset
      have hrest : (do V.store x v; k u) (V.set m x (V.get m x)) r b := by
        rwa [V.set_get, store_bind_iff]
      obtain ⟨m', w', hl, rfl⟩ := (h u).sound hrest
      exact ⟨m', w', .inr ⟨u, m, hvalue, hl⟩, rfl⟩
  complete {a r m} w hrun := by
    simp only [store_bind_iff, V.set_set]
    rcases hrun with ⟨y, hexit, rfl⟩ | ⟨u, n, hvalue, hrest⟩
    · exact ⟨v, .inl ⟨y, (hp _ _ _ _).2 ⟨m, hexit, rfl⟩, rfl⟩⟩
    · obtain ⟨w', hk⟩ := (h u).complete w hrest
      rw [store_bind_iff, V.set_set] at hk
      exact ⟨w', .inr ⟨u, _, (hp _ _ _ _).2 ⟨n, hvalue, rfl⟩, hk⟩⟩

/-- The variable may be written last. -/
theorem store_pure (w : α) : V.SameBut x (do V.store x v; Pure.pure w) (Pure.pure w) where
  sound {a u r b} h := by
    rw [store_bind_iff, V.set_set] at h
    obtain ⟨rfl, rfl⟩ := h
    exact ⟨a, v, ⟨rfl, rfl⟩, rfl⟩
  complete {a r m} u h := by
    obtain ⟨rfl, rfl⟩ := h
    refine ⟨v, store_bind_iff.2 ?_⟩
    rw [V.set_set]
    exact ⟨rfl, rfl⟩

/-- The value of code that has nothing to do with the variable may pass through it. -/
theorem store_through {p : Behaviour S V.Value} (hp : V.Ignores x p) :
    V.SameBut x (do V.store x v; V.store x (← p); V.load x) p := by
  rw [← bind_pure p]
  simp only [bind_assoc, pure_bind]
  refine .store_early hp fun w => ?_
  rw [store_store, ← bind_pure (V.load x), store_load]
  exact .store_pure w

end SameBut

/-- Whether code is the same but for some variables. -/
inductive SameUpTo (V : Memory S) : List String → Behaviour S α → Behaviour S α → Prop
  | refl (p : Behaviour S α) : SameUpTo V [] p p
  | but {x : String} {xs : List String} {p q r : Behaviour S α} :
    V.SameBut x p q → SameUpTo V xs q r → SameUpTo V (x :: xs) p r

namespace SameUpTo

/-- What is the same but for one variable is the same up to it. -/
theorem of_sameBut (h : V.SameBut x p q) : V.SameUpTo [x] p q :=
  .but h (.refl q)

/-- What does not depend on the variables may follow behaviours that are the same up to them. -/
theorem bind {xs : List String} (h : V.SameUpTo xs p q)
    (hk : ∀ x ∈ xs, ∀ v, V.Ignores x (k v)) : V.SameUpTo xs (p >>= k) (q >>= k) := by
  induction h with
  | refl p => exact .refl _
  | but hx _ ih =>
    obtain ⟨hk, hks⟩ := List.forall_mem_cons.1 hk
    exact .but (hx.bind fun v => .of_ignores (hk v)) (ih hks)

end SameUpTo

end Memory

end TypedLowering.Control
