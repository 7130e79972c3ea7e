import Mathlib.Data.List.Forall2
import TypedLowering.Proofs.Control.Flow
import TypedLowering.Proofs.Control.Frame

/-!
# Assignments that take effect together

Statements in front of a jump assign new values to variables, one after the other. If no value
depends on a variable that is assigned, then it makes no difference that the assignments are not
simultaneous (`Writes.run_iff`). Where statements have to run before some of the values, they run
before all of them, which makes no difference either as long as they do not interfere with the
values that they overtake (`evalAll_hoisted`).
-/

namespace TypedLowering

/-- Whether a use may touch the variable. Foreign code mentions the names that `inTemplate`
says. -/
def Use.Mentions (inTemplate : String → String → Prop) (x : String) : Use → Prop
  | .name y | .binder y => y = x
  | .template t => inTemplate t x
  | .entity _ => False

/-- Whether a use has nothing to do with the variable. -/
abbrev Use.Avoids (inTemplate : String → String → Prop) (x : String) (u : Use) : Prop :=
  ¬ u.Mentions inTemplate x

namespace Control

variable {σ ε : Type}

/-- The variables in the states of a machine, and the evaluation of expressions. An expression that
raises has no value. -/
structure Variables (M : Machine σ ε) (L : Language σ ε) where
  Value : Type
  get : M.State → String → Value
  set : M.State → String → Value → M.State
  eval : ε → M.State → Value → M.State → Prop
  get_set_self (a : M.State) (x : String) (v : Value) : get (set a x v) x = v
  get_set_of_ne (a : M.State) {x y : String} (v : Value) : y ≠ x → get (set a x v) y = get a y
  set_get (a : M.State) (x : String) : set a x (get a x) = a
  eval_variable {x : String} {e : ε} {a b : M.State} {v : Value} :
    L.IsVariable x e → (eval e a v b ↔ v = get a x ∧ b = a)
  step_assign {x : String} {e : ε} {code : σ} {a b : M.State} :
    L.Assigns x e code → (M.step code a true b ↔ ∃ v m, eval e a v m ∧ b = set m x v)

/-- Evaluation from left to right. -/
inductive EvalAll {α S V : Type} (eval : α → S → V → S → Prop) : List α → S → List V → S → Prop
  | nil {a : S} : EvalAll eval [] a [] a
  | cons {x : α} {xs : List α} {a m b : S} {v : V} {vs : List V} :
    eval x a v m → EvalAll eval xs m vs b → EvalAll eval (x :: xs) a (v :: vs) b

/-- An expression with the statements that run before it is evaluated. -/
structure Argument (σ ε : Type) where
  before : List (Flow σ ε)
  value : ε

/-- The statements that assign values to the second variable of each pair. A value that is the first
variable of the pair is not assigned. -/
inductive Writes (L : Language σ ε) : List (String × String) → List ε → List (Flow σ ε) → Prop
  | nil : Writes L [] [] []
  | keep {x slot : String} {e : ε} {bindings : List (String × String)} {es : List ε}
      {fs : List (Flow σ ε)} :
    L.IsVariable x e → Writes L bindings es fs → Writes L ((x, slot) :: bindings) (e :: es) fs
  | write {x slot : String} {e : ε} {code : σ} {bindings : List (String × String)} {es : List ε}
      {fs : List (Flow σ ε)} :
    L.Assigns slot e code → Writes L bindings es fs →
      Writes L ((x, slot) :: bindings) (e :: es) (.step code :: fs)

theorem EvalAll.length_eq {α S V : Type} {eval : α → S → V → S → Prop} {xs : List α} {a b : S}
    {vs : List V} (h : EvalAll eval xs a vs b) : xs.length = vs.length := by
  induction h with
  | nil => rfl
  | cons _ _ ih => rw [List.length_cons, ih, List.length_cons]

/-- What each evaluation relates, all of them relate. -/
theorem EvalAll.keep {α S V : Type} {eval : α → S → V → S → Prop} {R : S → S → Prop}
    (refl : ∀ a, R a a) (trans : ∀ {a b c}, R a b → R b c → R a c) {xs : List α} {a b : S}
    {vs : List V} (h : EvalAll eval xs a vs b)
    (hxs : ∀ x ∈ xs, ∀ {a v b}, eval x a v b → R a b) : R a b := by
  induction h with
  | nil => exact refl _
  | cons hx _ ih =>
    exact trans (hxs _ List.mem_cons_self hx) (ih fun y hy => hxs y (List.mem_cons_of_mem _ hy))

theorem Writes.length_eq {L : Language σ ε} {bindings : List (String × String)} {es : List ε}
    {fs : List (Flow σ ε)} (h : Writes L bindings es fs) : bindings.length = es.length := by
  induction h with
  | nil => rfl
  | keep _ _ ih | write _ _ ih => rw [List.length_cons, ih, List.length_cons]

section
variable (M : Machine σ ε)

theorem runAll_nil_normal {a b : M.State} : runAll M [] a .normal b ↔ b = a :=
  ⟨And.right, fun h => ⟨rfl, h⟩⟩

theorem runAll_append_normal {as bs : List (Flow σ ε)} {a b : M.State} :
    runAll M (as ++ bs) a .normal b ↔ ∃ m, runAll M as a .normal m ∧ runAll M bs m .normal b := by
  rw [runAll_append]
  constructor
  · rintro (⟨-, hx⟩ | h)
    · exact absurd rfl hx
    · exact h
  · exact .inr

theorem runAll_step_normal {code : σ} {fs : List (Flow σ ε)} {a b : M.State} :
    runAll M (.step code :: fs) a .normal b ↔
      ∃ m, M.step code a true m ∧ runAll M fs m .normal b := by
  have hstep : ∀ m, runAll M [.step code] a .normal m ↔ M.step code a true m := by
    intro m
    rw [runAll_singleton]
    constructor
    · rintro (⟨h, -⟩ | ⟨-, ⟨⟩⟩)
      exact h
    · exact fun h => .inl ⟨h, rfl⟩
  rw [← List.singleton_append, runAll_append_normal]
  simp only [hstep]

/-- What lists of flows relate, their runs one after the other relate. -/
theorem runAll_flatMap_keep {α : Type} {R : M.State → M.State → Prop} (refl : ∀ a, R a a)
    (trans : ∀ {a b c}, R a b → R b c → R a c) {f : α → List (Flow σ ε)} {xs : List α}
    (h : ∀ x ∈ xs, ∀ a b, runAll M (f x) a .normal b → R a b) {a b : M.State}
    (hrun : runAll M (xs.flatMap f) a .normal b) : R a b := by
  induction xs generalizing a with
  | nil => exact (runAll_nil_normal M).1 hrun ▸ refl a
  | cons x xs ih =>
    obtain ⟨m, hx, hxs⟩ := (runAll_append_normal M).1 hrun
    obtain ⟨hfirst, hrest⟩ := List.forall_mem_cons.1 h
    exact trans (hfirst a m hx) (ih hrest hxs)

end

namespace Variables

variable {M : Machine σ ε} {L : Language σ ε} (V : Variables M L)

/-- Whether evaluating an expression has nothing to do with a variable. -/
def Ignores (x : String) (e : ε) : Prop :=
  ∀ a v w b, V.eval e (V.set a x v) w b ↔ ∃ m, V.eval e a w m ∧ b = V.set m x v

/-- Whether evaluating an expression leaves a variable as it is. -/
def Leaves (x : String) (e : ε) : Prop :=
  ∀ a v b, V.eval e a v b → V.get b x = V.get a x

/-- Whether statements may run before an expression is evaluated as well as afterwards. -/
def Commutes (e : ε) (fs : List (Flow σ ε)) : Prop :=
  ∀ a v b, (∃ m, V.eval e a v m ∧ runAll M fs m .normal b) ↔
    ∃ m, runAll M fs a .normal m ∧ V.eval e m v b

/-- Evaluates an argument: the statements before it run, and then it is evaluated. -/
def evalArgument (x : Argument σ ε) (a : M.State) (v : V.Value) (b : M.State) : Prop :=
  ∃ m, runAll M x.before a .normal m ∧ V.eval x.value m v b

/-- Assigns values to variables. -/
def setAll (a : M.State) : List String → List V.Value → M.State
  | x :: xs, v :: vs => setAll (V.set a x v) xs vs
  | _, _ => a

/-- Whether code has nothing to do with the variables that it does not mention. -/
structure Local (inTemplate : String → String → Prop) : Prop where
  ignores {x : String} {e : ε} : L.ExprUses (Use.Avoids inTemplate x) e → V.Ignores x e
  keeps (x : String) : M.Keeps L (Use.Avoids inTemplate x) fun a b => V.get b x = V.get a x

/-- What holds of the state `b` after an update with the values `vs`, which were evaluated between
the states `a` and `m`: the second variable of each pair has its value, the first one has not
changed since `a`, and no other variable has changed since `m`. -/
structure Updated (bindings : List (String × String)) (vs : List V.Value) (a m b : M.State) :
    Prop where
  slots : List.Forall₂ (fun s v => V.get b s.2 = v) bindings vs
  params : ∀ s ∈ bindings, V.get b s.1 = V.get a s.1
  others : ∀ x ∉ bindings.map (·.2), V.get b x = V.get m x

/-- Whether statements update the second variables of the pairs all at once. In any state in which
the two variables of each pair are equal, they run to their end just as the arguments are evaluated
from left to right, and the second variables get the values of the arguments. -/
def UpdatesTogether (bindings : List (String × String)) (args : List (Argument σ ε))
    (own : List (Flow σ ε)) : Prop :=
  ∀ a, (∀ s ∈ bindings, V.get a s.2 = V.get a s.1) →
    (∀ b, runAll M own a .normal b →
      ∃ vs m, EvalAll V.evalArgument args a vs m ∧ V.Updated bindings vs a m b) ∧
    ∀ vs m, EvalAll V.evalArgument args a vs m →
      ∃ b, runAll M own a .normal b ∧ V.Updated bindings vs a m b

variable {V}

/-- A variable that makes no difference is not changed. -/
theorem Ignores.leaves {x : String} {e : ε} (h : V.Ignores x e) : V.Leaves x e := by
  intro a v b heval
  rw [← V.set_get a x, h] at heval
  obtain ⟨m, -, rfl⟩ := heval
  rw [V.get_set_self]

/-- Statements in front of which nothing has to run overtake nothing. -/
theorem commutes_nil (e : ε) : V.Commutes e [] := by
  intro a v b
  simp only [runAll_nil_normal]
  constructor
  · rintro ⟨m, heval, rfl⟩
    exact ⟨a, rfl, heval⟩
  · rintro ⟨m, rfl, heval⟩
    exact ⟨b, heval, rfl⟩

theorem Commutes.append {e : ε} {fs gs : List (Flow σ ε)} (hf : V.Commutes e fs)
    (hg : V.Commutes e gs) : V.Commutes e (fs ++ gs) := by
  intro a v b
  simp only [runAll_append_normal]
  constructor
  · rintro ⟨m, heval, n, hfs, hgs⟩
    obtain ⟨m, hfs, heval⟩ := (hf a v n).1 ⟨m, heval, hfs⟩
    obtain ⟨n, hgs, heval⟩ := (hg m v b).1 ⟨n, heval, hgs⟩
    exact ⟨n, ⟨m, hfs, hgs⟩, heval⟩
  · rintro ⟨n, ⟨m, hfs, hgs⟩, heval⟩
    obtain ⟨n, heval, hgs⟩ := (hg m v b).2 ⟨n, hgs, heval⟩
    obtain ⟨m, heval, hfs⟩ := (hf a v n).2 ⟨m, hfs, heval⟩
    exact ⟨m, heval, n, hfs, hgs⟩

/-- If the statements before the arguments do not interfere with the values that they overtake, all
of them may run before the first value is evaluated. -/
theorem evalAll_hoisted {args : List (Argument σ ε)}
    (h : args.Pairwise fun x y => V.Commutes x.value y.before) {a b : M.State}
    {vs : List V.Value} :
    (∃ m, runAll M (args.flatMap (·.before)) a .normal m ∧
      EvalAll V.eval (args.map (·.value)) m vs b) ↔ EvalAll V.evalArgument args a vs b := by
  induction args generalizing a vs with
  | nil =>
    simp only [List.flatMap_nil, List.map_nil, runAll_nil_normal]
    constructor
    · rintro ⟨m, rfl, ⟨⟩⟩
      exact .nil
    · rintro ⟨⟩
      exact ⟨b, rfl, .nil⟩
  | cons x xs ih =>
    obtain ⟨hx, hxs⟩ := List.pairwise_cons.1 h
    have hcommutes : V.Commutes x.value (xs.flatMap (·.before)) := by
      clear ih h hxs
      induction xs with
      | nil => exact commutes_nil _
      | cons y ys ihy =>
        obtain ⟨hy, hys⟩ := List.forall_mem_cons.1 hx
        exact hy.append (ihy hys)
    simp only [List.flatMap_cons, List.map_cons, runAll_append_normal]
    constructor
    · rintro ⟨m, ⟨n, hbefore, hrest⟩, hall⟩
      cases hall with
      | cons hvalue hvalues =>
        obtain ⟨m, hvalue, hrest⟩ := (hcommutes _ _ _).2 ⟨m, hrest, hvalue⟩
        exact .cons ⟨n, hbefore, hvalue⟩ ((ih hxs).1 ⟨_, hrest, hvalues⟩)
    · rintro (_ | ⟨⟨n, hbefore, hvalue⟩, hall⟩)
      obtain ⟨m, hrest, hvalues⟩ := (ih hxs).2 hall
      obtain ⟨m, hrest, hvalue⟩ := (hcommutes _ _ _).1 ⟨_, hvalue, hrest⟩
      exact ⟨m, ⟨n, hbefore, hrest⟩, .cons hvalue hvalues⟩

/-- A variable that no value depends on may be assigned before or after. -/
theorem evalAll_set {x : String} {es : List ε} (h : ∀ e ∈ es, V.Ignores x e) {a b : M.State}
    {v : V.Value} {vs : List V.Value} :
    EvalAll V.eval es (V.set a x v) vs b ↔ ∃ m, EvalAll V.eval es a vs m ∧ b = V.set m x v := by
  induction es generalizing a vs with
  | nil =>
    constructor
    · rintro ⟨⟩
      exact ⟨a, .nil, rfl⟩
    · rintro ⟨m, ⟨⟩, rfl⟩
      exact .nil
  | cons e es ih =>
    obtain ⟨he, hes⟩ := List.forall_mem_cons.1 h
    constructor
    · rintro (_ | ⟨heval, hall⟩)
      obtain ⟨m, heval', rfl⟩ := (he _ _ _ _).1 heval
      obtain ⟨n, hall', rfl⟩ := (ih hes).1 hall
      exact ⟨n, .cons heval' hall', rfl⟩
    · rintro ⟨m, (_ | ⟨heval, hall⟩), rfl⟩
      exact .cons ((he _ _ _ _).2 ⟨_, heval, rfl⟩) ((ih hes).2 ⟨_, hall, rfl⟩)

theorem get_setAll_of_not_mem {x : String} {xs : List String} (h : x ∉ xs) (vs : List V.Value)
    (a : M.State) : V.get (V.setAll a xs vs) x = V.get a x := by
  induction xs generalizing vs a with
  | nil => cases vs <;> rfl
  | cons y ys ih =>
    cases vs with
    | nil => rfl
    | cons v vs =>
      rw [List.mem_cons, not_or] at h
      rw [setAll, ih h.2, V.get_set_of_ne a v h.1]

/-- Different variables get their values. -/
theorem forall₂_get_setAll {bindings : List (String × String)}
    (h : (bindings.map (·.2)).Nodup) {vs : List V.Value} (hlen : bindings.length = vs.length)
    (a : M.State) :
    List.Forall₂ (fun s v => V.get (V.setAll a (bindings.map (·.2)) vs) s.2 = v) bindings vs := by
  induction bindings generalizing vs a with
  | nil =>
    obtain rfl := List.eq_nil_of_length_eq_zero hlen.symm
    exact .nil
  | cons s bindings ih =>
    cases vs with
    | nil => cases hlen
    | cons v vs =>
      obtain ⟨hs, hnodup⟩ := List.nodup_cons.1 h
      refine .cons ?_ (ih hnodup (Nat.succ.inj hlen) _)
      rw [List.map_cons, setAll, get_setAll_of_not_mem hs, V.get_set_self]

end Variables

/-! ## The update in front of a jump -/

/-- Whether values may be assigned to the second variables of the pairs one after the other: these
are different ones, no value has to do with them, and evaluating a value leaves the first variables
of the pairs as they are. -/
structure Variables.Independent {M : Machine σ ε} {L : Language σ ε} (V : Variables M L)
    (bindings : List (String × String)) (es : List ε) : Prop where
  nodup : (bindings.map (·.2)).Nodup
  params : ∀ s ∈ bindings, s.1 ∉ bindings.map (·.2)
  ignores : ∀ s ∈ bindings, ∀ e ∈ es, V.Ignores s.2 e
  leaves : ∀ s ∈ bindings, ∀ e ∈ es, V.Leaves s.1 e

section
variable {M : Machine σ ε} {L : Language σ ε} {V : Variables M L}
  {bindings : List (String × String)} {es : List ε} {fs : List (Flow σ ε)}

theorem Variables.Independent.tail {s : String × String} {e : ε}
    (h : V.Independent (s :: bindings) (e :: es)) : V.Independent bindings es where
  nodup := (List.nodup_cons.1 h.nodup).2
  params s hs hmem := h.params s (List.mem_cons_of_mem _ hs) (List.mem_cons_of_mem _ hmem)
  ignores s hs e he := h.ignores s (List.mem_cons_of_mem _ hs) e (List.mem_cons_of_mem _ he)
  leaves s hs e he := h.leaves s (List.mem_cons_of_mem _ hs) e (List.mem_cons_of_mem _ he)

/-- Evaluating values leaves the variables of all pairs as they are. -/
theorem Variables.Independent.get_eq (h : V.Independent bindings es) {a b : M.State}
    {vs : List V.Value} (heval : EvalAll V.eval es a vs b) {s : String × String}
    (hs : s ∈ bindings) : V.get b s.1 = V.get a s.1 ∧ V.get b s.2 = V.get a s.2 := by
  have hkeep : ∀ x, (∀ e ∈ es, V.Leaves x e) → V.get b x = V.get a x := fun x hx =>
    heval.keep (R := fun a b => V.get b x = V.get a x) (fun _ => rfl) (fun hab hbc => hbc.trans hab)
      fun e he _ _ _ => hx e he _ _ _
  exact ⟨hkeep s.1 (h.leaves s hs), hkeep s.2 fun e he => (h.ignores s hs e he).leaves⟩

/-- The assignments are as good as simultaneous ones after all values are evaluated. -/
theorem Writes.run_iff (h : Writes L bindings es fs) (hind : V.Independent bindings es)
    {a : M.State} (hcopies : ∀ s ∈ bindings, V.get a s.2 = V.get a s.1) {b : M.State} :
    runAll M fs a .normal b ↔
      ∃ vs m, EvalAll V.eval es a vs m ∧ b = V.setAll m (bindings.map (·.2)) vs := by
  induction h generalizing a with
  | nil =>
    rw [runAll_nil_normal]
    constructor
    · rintro rfl
      exact ⟨[], b, .nil, rfl⟩
    · rintro ⟨_, _, ⟨⟩, rfl⟩
      rfl
  | @keep x slot e bindings es fs hvariable _ ih =>
    -- the slot is left out, and it has the value of its variable already
    have hslot : ∀ {vs m}, EvalAll V.eval es a vs m → V.set m slot (V.get a x) = m := by
      intro vs m hall
      have hget := hind.get_eq (.cons (V.eval_variable hvariable |>.2 ⟨rfl, rfl⟩) hall)
        List.mem_cons_self
      rw [← hcopies _ List.mem_cons_self, ← hget.2, V.set_get]
    rw [ih hind.tail fun s hs => hcopies s (List.mem_cons_of_mem _ hs)]
    constructor
    · rintro ⟨vs, m, hall, rfl⟩
      refine ⟨_, m, .cons ((V.eval_variable hvariable).2 ⟨rfl, rfl⟩) hall, ?_⟩
      rw [List.map_cons, Variables.setAll, hslot hall]
    · rintro ⟨_, m, (_ | ⟨heval, hall⟩), rfl⟩
      obtain ⟨rfl, rfl⟩ := (V.eval_variable hvariable).1 heval
      refine ⟨_, m, hall, ?_⟩
      rw [List.map_cons, Variables.setAll, hslot hall]
  | @write x slot e code bindings es fs hassigns _ ih =>
    have hignores : ∀ d ∈ es, V.Ignores slot d := fun d hd =>
      hind.ignores _ List.mem_cons_self d (List.mem_cons_of_mem _ hd)
    -- after the first assignment the other slots still hold copies
    have hnext : ∀ {v m}, V.eval e a v m → ∀ s ∈ bindings,
        V.get (V.set m slot v) s.2 = V.get (V.set m slot v) s.1 := by
      intro v m heval s hs
      have hne : s.2 ≠ slot := fun heq =>
        (List.nodup_cons.1 hind.nodup).1 (List.mem_map.2 ⟨s, hs, heq⟩)
      have hne' : s.1 ≠ slot := fun heq =>
        hind.params s (List.mem_cons_of_mem _ hs) (heq ▸ List.mem_cons_self)
      have hs := List.mem_cons_of_mem (x, slot) hs
      rw [V.get_set_of_ne _ _ hne, V.get_set_of_ne _ _ hne',
        (hind.ignores s hs e List.mem_cons_self).leaves _ _ _ heval,
        hind.leaves s hs e List.mem_cons_self _ _ _ heval, hcopies s hs]
    rw [runAll_step_normal]
    constructor
    · rintro ⟨_, hstep, hrun⟩
      obtain ⟨v, m, heval, rfl⟩ := (V.step_assign hassigns).1 hstep
      obtain ⟨vs, _, hall, rfl⟩ := (ih hind.tail (hnext heval)).1 hrun
      obtain ⟨n, hall', rfl⟩ := (Variables.evalAll_set hignores).1 hall
      exact ⟨v :: vs, n, .cons heval hall', rfl⟩
    · rintro ⟨_, n, (_ | ⟨heval, hall⟩), rfl⟩
      refine ⟨_, (V.step_assign hassigns).2 ⟨_, _, heval, rfl⟩, ?_⟩
      refine (ih hind.tail (hnext heval)).2 ⟨_, _, ?_, rfl⟩
      exact (Variables.evalAll_set hignores).2 ⟨n, hall, rfl⟩

/-- The statements in front of a jump: those that run before the arguments, and the assignments. -/
theorem Writes.updatesTogether {args : List (Argument σ ε)}
    (h : Writes L bindings (args.map (·.value)) fs)
    (hind : V.Independent bindings (args.map (·.value)))
    (hbefore : ∀ s ∈ bindings, ∀ x ∈ args, ∀ a b, runAll M x.before a .normal b →
      V.get b s.1 = V.get a s.1 ∧ V.get b s.2 = V.get a s.2)
    (hcommutes : args.Pairwise fun x y => V.Commutes x.value y.before) :
    V.UpdatesTogether bindings args (args.flatMap (·.before) ++ fs) := by
  intro a hcopies
  have hrun : ∀ b, runAll M (args.flatMap (·.before) ++ fs) a .normal b ↔
      ∃ vs m, EvalAll V.evalArgument args a vs m ∧ b = V.setAll m (bindings.map (·.2)) vs := by
    intro b
    have hwrites : ∀ {n}, runAll M (args.flatMap (·.before)) a .normal n →
        (runAll M fs n .normal b ↔ ∃ vs m, EvalAll V.eval (args.map (·.value)) n vs m ∧
          b = V.setAll m (bindings.map (·.2)) vs) := by
      intro n hn
      refine h.run_iff hind fun s hs => ?_
      have hget := runAll_flatMap_keep M
        (R := fun a b => V.get b s.1 = V.get a s.1 ∧ V.get b s.2 = V.get a s.2)
        (fun _ => ⟨rfl, rfl⟩) (fun hab hbc => ⟨hbc.1.trans hab.1, hbc.2.trans hab.2⟩)
        (hbefore s hs) hn
      rw [hget.1, hget.2, hcopies s hs]
    rw [runAll_append_normal]
    constructor
    · rintro ⟨n, hn, hfs⟩
      obtain ⟨vs, m, hall, rfl⟩ := (hwrites hn).1 hfs
      exact ⟨vs, m, (Variables.evalAll_hoisted hcommutes).1 ⟨n, hn, hall⟩, rfl⟩
    · rintro ⟨vs, m, hall, rfl⟩
      obtain ⟨n, hn, hall⟩ := (Variables.evalAll_hoisted hcommutes).2 hall
      exact ⟨n, hn, (hwrites hn).2 ⟨vs, m, hall, rfl⟩⟩
  have hupdated : ∀ {vs m}, EvalAll V.evalArgument args a vs m →
      V.Updated bindings vs a m (V.setAll m (bindings.map (·.2)) vs) := by
    intro vs m hall
    have hlen : bindings.length = vs.length := by
      rw [h.length_eq, List.length_map, hall.length_eq]
    refine ⟨Variables.forall₂_get_setAll hind.nodup hlen m, fun s hs => ?_,
      fun x hx => Variables.get_setAll_of_not_mem hx vs m⟩
    rw [Variables.get_setAll_of_not_mem (hind.params s hs)]
    refine hall.keep (R := fun a b => V.get b s.1 = V.get a s.1) (fun _ => rfl)
      (fun hab hbc => hbc.trans hab) ?_
    rintro x hx b v c ⟨n, hrun, heval⟩
    rw [hind.leaves s hs x.value (List.mem_map_of_mem hx) _ _ _ heval,
      (hbefore s hs x hx _ _ hrun).1]
  constructor
  · intro b hb
    obtain ⟨vs, m, hall, rfl⟩ := (hrun b).1 hb
    exact ⟨vs, m, hall, hupdated hall⟩
  · intro vs m hall
    exact ⟨_, (hrun _).2 ⟨vs, m, hall, rfl⟩, hupdated hall⟩

/-- Without statements before the arguments, the assignments are all that there is. -/
theorem Writes.updatesTogether_bare (h : Writes L bindings es fs)
    (hind : V.Independent bindings es) :
    V.UpdatesTogether bindings (es.map (⟨[], ·⟩)) fs := by
  have hvalues : (es.map fun e => (⟨[], e⟩ : Argument σ ε)).map (·.value) = es := by
    rw [List.map_map]
    exact List.map_id es
  have hbefore : (es.map fun e => (⟨[], e⟩ : Argument σ ε)).flatMap (·.before) ++ fs = fs := by
    simp [List.flatMap_map]
  rw [← hbefore]
  refine Writes.updatesTogether (hvalues.symm ▸ h) (hvalues.symm ▸ hind) ?_ ?_
  · intro s _ x hx a b hrun
    obtain ⟨e, -, rfl⟩ := List.mem_map.1 hx
    obtain rfl := (runAll_nil_normal M).1 hrun
    exact ⟨rfl, rfl⟩
  · refine List.pairwise_map.2 (List.pairwise_of_forall fun e d => ?_)
    exact Variables.commutes_nil e

/-- Variables are evaluated without any effect. -/
theorem Variables.evalAll_variables {xs : List String} {args : List (Argument σ ε)}
    (h : List.Forall₂ (fun x y => y.before = [] ∧ L.IsVariable x y.value) xs args)
    {a b : M.State} {vs : List V.Value} (hall : EvalAll V.evalArgument args a vs b) :
    vs = xs.map (V.get a) := by
  induction h generalizing vs with
  | nil =>
    cases hall
    rfl
  | cons hx _ ih =>
    cases hall with
    | cons heval hall =>
      obtain ⟨n, hrun, heval⟩ := heval
      rw [hx.1, runAll_nil_normal] at hrun
      obtain ⟨rfl, rfl⟩ := (V.eval_variable hx.2).1 heval
      obtain rfl := hrun
      rw [ih hall, List.map_cons]

/-- Arguments that are variables are moved to the slots, whatever the order. -/
theorem Variables.UpdatesTogether.moves {args : List (Argument σ ε)} {own : List (Flow σ ε)}
    (h : V.UpdatesTogether bindings args own) {xs : List String}
    (hargs : List.Forall₂ (fun x y => y.before = [] ∧ L.IsVariable x y.value) xs args)
    {a b : M.State} (hcopies : ∀ s ∈ bindings, V.get a s.2 = V.get a s.1)
    (hrun : runAll M own a .normal b) :
    List.Forall₂ (fun s x => V.get b s.2 = V.get a x) bindings xs := by
  obtain ⟨vs, m, hall, hupdated⟩ := (h a hcopies).1 b hrun
  have hslots := hupdated.slots
  rwa [evalAll_variables hargs hall, List.forall₂_map_right_iff] at hslots

end

end Control

end TypedLowering
