import TypedLowering.Proofs.Control.Switch
import TypedLowering.Proofs.Control.World

/-!
# How code ends

Which exits code has (`Runs.Ends`). Code that only comes to its end or raises may stand anywhere in
front of other code without jumping over it; so what comes of leaving a call comes of the code that
ends it (`called_seq`).
-/

namespace TypedLowering.Control

namespace Exit

/-- Whether code came to its end or raised. -/
def IsPlain (x : Exit) : Prop :=
  x = .normal ∨ x = .raised

/-- The exit of a call whose body ended so. -/
def leaveCall : Exit → Exit
  | .returned => .normal
  | x => x

/-- The exit of the body of a counting loop with those labels, of which the counter is updated
before the loop goes on. -/
def goOn (labels : List String) (x : Exit) : Exit :=
  if x.goesOn labels then .normal else x

/-- A plain exit stays as it is when a call is left. -/
theorem IsPlain.leaveCall_eq {x : Exit} (h : x.IsPlain) : x.leaveCall = x := by
  rcases h with rfl | rfl <;> rfl

/-- A plain exit stays as it is when a loop is left. -/
theorem IsPlain.leave_eq {x : Exit} (h : x.IsPlain) : x.leave = x := by
  rcases h with rfl | rfl <;> rfl

/-- A plain exit stays as it is under labels. -/
theorem IsPlain.goOn_eq {x : Exit} (h : x.IsPlain) (labels : List String) :
    x.goOn labels = x := by
  rcases h with rfl | rfl <;> rfl

/-- A call raises if its body does. -/
theorem leaveCall_eq_raised {x : Exit} : x.leaveCall = .raised ↔ x = .raised := by
  cases x <;> simp [leaveCall]

end Exit

namespace Runs

variable {S : Type} {p q : Runs S} {X Y : Exit → Prop}

/-- Whether all exits of some code are of a kind. -/
def Ends (p : Runs S) (X : Exit → Prop) : Prop :=
  ∀ a x b, p a x b → X x

/-- A run with some exits has no others. -/
theorem Ends.mono (h : p.Ends X) (hXY : ∀ x, X x → Y x) : p.Ends Y :=
  fun a x b hp => hXY x (h a x b hp)

/-- An exit is the only one. -/
theorem ends_exit {x : Exit} (h : X x) : (exit x : Runs S).Ends X := by
  rintro a _ b ⟨rfl, -⟩
  exact h

/-- An action is done or raises. -/
theorem ends_act {act : S → Bool → S → Prop} {done : Exit} (hdone : X done) (hraised : X .raised) :
    (Runs.act act done).Ends X := by
  rintro a x b (⟨-, rfl⟩ | ⟨-, rfl⟩)
  · exact hdone
  · exact hraised

/-- Code ends as the last piece does, or raises before. -/
theorem Ends.seq (hp : p.Ends Exit.IsPlain) (hq : q.Ends X) (hraised : X .raised) :
    (seq p q).Ends X := by
  rintro a x b (⟨h, hx⟩ | ⟨m, -, h⟩)
  · rcases hp a x b h with rfl | rfl
    · exact absurd rfl hx
    · exact hraised
  · exact hq m x b h

/-- Runs in sequence that come to their ends or raise do so together. -/
theorem ends_all {ps : List (Runs S)} (h : ∀ p ∈ ps, p.Ends Exit.IsPlain) :
    (all ps).Ends Exit.IsPlain := by
  induction ps with
  | nil => exact ends_exit (.inl rfl)
  | cons p ps ih =>
    obtain ⟨hp, hps⟩ := List.forall_mem_cons.1 h
    exact hp.seq (ih hps) (.inr rfl)

/-- A branch ends as one of its parts, or raises. -/
theorem ends_branch {test : S → Option Bool → S → Prop} (hp : p.Ends X) (hq : q.Ends X)
    (hraised : X .raised) : (branch test p q).Ends X := by
  rintro a x b (⟨-, rfl⟩ | ⟨m, -, h⟩ | ⟨m, -, h⟩)
  · exact hraised
  · exact hp m x b h
  · exact hq m x b h

/-- A loop with a plain body comes to its end or raises. -/
theorem ends_iterate {next : S → Option Bool → S → Prop} {labels : List String}
    (hp : p.Ends Exit.IsPlain) : (iterate next labels p).Ends Exit.IsPlain := by
  intro a x b h
  induction h with
  | raised => exact .inr rfl
  | done => exact .inl rfl
  | again _ _ _ _ ih => exact ih
  | left _ hbody _ =>
    rw [(hp _ _ _ hbody).leave_eq]
    exact hp _ _ _ hbody

/-- A handled body ends as it or its handler does. -/
theorem ends_handled {catches : S → S → Prop} {handler : Option (Runs S)} (hp : p.Ends X)
    (hh : ∀ q ∈ handler, q.Ends X) : (handled catches p handler).Ends X := by
  cases handler with
  | none => exact hp
  | some q =>
    rintro a x b (⟨h, -⟩ | ⟨m, n, -, -, h⟩)
    · exact hp a x b h
    · exact hh q rfl n x b h

/-- A finalized body ends as it does, or as its finalizer raises. -/
theorem ends_finalized {finalizer : Option (Runs S)} (hp : p.Ends X)
    (hf : ∀ q ∈ finalizer, q.Ends Exit.IsPlain) (hraised : X .raised) :
    (finalized p finalizer).Ends X := by
  cases finalizer with
  | none => exact hp
  | some q =>
    rintro a x b ⟨y, m, z, h, hz, rfl⟩
    rcases hf q rfl m z b hz with rfl | rfl
    · exact hp a y m h
    · exact hraised

/-- An end that is as it was. -/
theorem exitBy_eq_self {f : Exit → Exit} (h : p.Ends fun x => f x = x) : exitBy f p = p := by
  funext a x b
  refine propext ⟨?_, fun hp => ⟨x, hp, (h a x b hp).symm⟩⟩
  rintro ⟨y, hp, rfl⟩
  rwa [h a y b hp]

/-! ## Calls -/

/-- Code that is called. -/
def called (p : Runs S) : Runs S :=
  exitBy .leaveCall p

/-- An exit that is called is left. -/
theorem called_exit (x : Exit) : called (exit x : Runs S) = exit x.leaveCall := by
  funext a y b
  refine propext ⟨?_, fun ⟨hy, hb⟩ => ⟨x, ⟨rfl, hb⟩, hy⟩⟩
  rintro ⟨_, ⟨rfl, hb⟩, rfl⟩
  exact ⟨rfl, hb⟩

/-- An action that is called ends as its call is left. -/
theorem called_act {act : S → Bool → S → Prop} {done : Exit} :
    called (Runs.act act done) = Runs.act act done.leaveCall := by
  funext a x b
  refine propext ⟨?_, ?_⟩
  · rintro ⟨_, ⟨h, rfl⟩ | ⟨h, rfl⟩, rfl⟩
    · exact .inl ⟨h, rfl⟩
    · exact .inr ⟨h, rfl⟩
  · rintro (⟨h, rfl⟩ | ⟨h, rfl⟩)
    · exact ⟨_, .inl ⟨h, rfl⟩, rfl⟩
    · exact ⟨_, .inr ⟨h, rfl⟩, rfl⟩

/-- Only the last piece may leave the call. -/
theorem called_seq (hp : p.Ends Exit.IsPlain) : called (seq p q) = seq p (called q) := by
  funext a x b
  refine propext ⟨?_, ?_⟩
  · rintro ⟨y, ⟨h, hy⟩ | ⟨m, h, hq⟩, rfl⟩
    · exact .inl ⟨(hp a y b h).leaveCall_eq.symm ▸ h, (hp a y b h).leaveCall_eq.symm ▸ hy⟩
    · exact .inr ⟨m, h, y, hq, rfl⟩
  · rintro (⟨h, hx⟩ | ⟨m, h, y, hq, rfl⟩)
    · exact ⟨x, .inl ⟨h, hx⟩, (hp a x b h).leaveCall_eq.symm⟩
    · exact ⟨y, .inr ⟨m, h, hq⟩, rfl⟩

/-- A branch that is called is a branch of calls. -/
theorem called_branch {test : S → Option Bool → S → Prop} :
    called (branch test p q) = branch test (called p) (called q) := by
  funext a x b
  refine propext ⟨?_, ?_⟩
  · rintro ⟨y, ⟨h, rfl⟩ | ⟨m, h, hp⟩ | ⟨m, h, hq⟩, rfl⟩
    · exact .inl ⟨h, rfl⟩
    · exact .inr (.inl ⟨m, h, y, hp, rfl⟩)
    · exact .inr (.inr ⟨m, h, y, hq, rfl⟩)
  · rintro (⟨h, rfl⟩ | ⟨m, h, y, hp, rfl⟩ | ⟨m, h, y, hq, rfl⟩)
    · exact ⟨.raised, .inl ⟨h, rfl⟩, rfl⟩
    · exact ⟨y, .inr (.inl ⟨m, h, hp⟩), rfl⟩
    · exact ⟨y, .inr (.inr ⟨m, h, hq⟩), rfl⟩

/-- A handled body that is called is a handled call. -/
theorem called_handled {catches : S → S → Prop} {handler : Option (Runs S)} :
    called (handled catches p handler) = handled catches (called p) (handler.map called) := by
  cases handler with
  | none => rfl
  | some q =>
    funext a x b
    refine propext ⟨?_, ?_⟩
    · rintro ⟨y, ⟨h, hy⟩ | ⟨m, n, h, hn, hq⟩, rfl⟩
      · exact .inl ⟨⟨y, h, rfl⟩, mt Exit.leaveCall_eq_raised.1 hy⟩
      · exact .inr ⟨m, n, ⟨.raised, h, rfl⟩, hn, y, hq, rfl⟩
    · rintro (⟨⟨y, h, rfl⟩, hy⟩ | ⟨m, n, ⟨y, h, hy⟩, hn, z, hq, rfl⟩)
      · exact ⟨y, .inl ⟨h, mt Exit.leaveCall_eq_raised.2 hy⟩, rfl⟩
      · obtain rfl := Exit.leaveCall_eq_raised.1 hy.symm
        exact ⟨z, .inr ⟨m, n, h, hn, hq⟩, rfl⟩

/-- A finalizer that leaves no call leaves none in a call. -/
theorem called_finalized {finalizer : Option (Runs S)}
    (hf : ∀ q ∈ finalizer, q.Ends Exit.IsPlain) :
    called (finalized p finalizer) = finalized (called p) finalizer := by
  cases finalizer with
  | none => rfl
  | some q =>
    funext a x b
    refine propext ⟨?_, ?_⟩
    · rintro ⟨_, ⟨y, m, z, h, hz, rfl⟩, rfl⟩
      refine ⟨y.leaveCall, m, z, ⟨y, h, rfl⟩, hz, ?_⟩
      rcases hf q rfl m z b hz with rfl | rfl <;> rfl
    · rintro ⟨_, m, z, ⟨y, h, rfl⟩, hz, rfl⟩
      refine ⟨_, ⟨y, m, z, h, hz, rfl⟩, ?_⟩
      rcases hf q rfl m z b hz with rfl | rfl <;> rfl

end Runs

end TypedLowering.Control
