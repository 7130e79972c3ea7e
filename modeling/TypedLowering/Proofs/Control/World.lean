import TypedLowering.Proofs.Control.Flow
import TypedLowering.Proofs.Lowering.Growth

/-!
# What can be noticed of an evaluation

Evaluation reads and writes variables and fields, calls, raises, and runs foreign code. A `World`
says what comes of that, and no more: values are part of its state. Code that does the same in the
same order in every world evaluates its parts in the same order and as often.
-/

namespace TypedLowering.Control

/-- What evaluation does that can be noticed. Elements have no property name. -/
inductive Event where
  | read (name : String)
  | write (name : String)
  | load (property : Option String)
  | store (property : Option String)
  | call
  | construct
  | check
  | raise
  | pause
  deriving DecidableEq

/-- What comes of events, from one state to the next. All of it may have several outcomes, and what
raises has the outcome `false`. Foreign code may do with its arguments as it likes. -/
structure World where
  State : Type
  act : Event → State → Bool → State → Prop
  /-- Whether the value of a guard is true. -/
  decide : State → Bool → State → Prop
  /-- Which case of a switch is meant, by its place. -/
  pick : State → Nat → State → Prop
  /-- A handler takes over. -/
  caught : State → State → Prop
  foreign : String → List (Runs State) → State → Bool → State → Prop

namespace Runs

variable {S : Type}

/-- The tests by evaluating a guard. -/
def guard (decide : S → Bool → S → Prop) (p : Runs S) : S → Option Bool → S → Prop
  | a, none, b => p a .raised b
  | a, some v, b => ∃ m, p a .normal m ∧ decide m v b

/-- Runs one after the other. -/
def all : List (Runs S) → Runs S
  | [] => exit .normal
  | p :: ps => seq p (all ps)

/-- Whether it makes no difference which one comes first. -/
def Commutes (p q : Runs S) : Prop :=
  seq p q = seq q p

/-- No runs do nothing. -/
@[simp] theorem all_nil : all ([] : List (Runs S)) = exit .normal := rfl

/-- The first run comes before the others. -/
@[simp] theorem all_cons (p : Runs S) (ps : List (Runs S)) : all (p :: ps) = seq p (all ps) := rfl

/-- The runs of two parts come part by part. -/
@[simp] theorem all_append (ps qs : List (Runs S)) : all (ps ++ qs) = seq (all ps) (all qs) := by
  induction ps with
  | nil => rw [List.nil_append, all_nil, exit_normal_seq]
  | cons p ps ih => rw [List.cons_append, all_cons, ih, all_cons, seq_assoc]

/-- Everything commutes with doing nothing. -/
theorem commutes_exit_normal (p : Runs S) : p.Commutes (exit .normal) := by
  rw [Commutes, seq_exit_normal, exit_normal_seq]

/-- Commuting is symmetric. -/
theorem Commutes.symm {p q : Runs S} (h : p.Commutes q) : q.Commutes p :=
  Eq.symm h

/-- What commutes with two runs commutes with their sequence. -/
theorem Commutes.seq {p q r : Runs S} (hq : p.Commutes q) (hr : p.Commutes r) :
    p.Commutes (seq q r) := by
  rw [Commutes, ← seq_assoc, hq, seq_assoc, hr, seq_assoc]

/-- What commutes with each of some runs commutes with all in sequence. -/
theorem Commutes.all {p : Runs S} {qs : List (Runs S)} (h : ∀ q ∈ qs, p.Commutes q) :
    p.Commutes (all qs) := by
  induction qs with
  | nil => exact commutes_exit_normal p
  | cons q qs ih =>
    obtain ⟨hq, hqs⟩ := List.forall_mem_cons.1 h
    exact hq.seq (ih hqs)

/-- Code in parts of two pieces each. -/
def steps (ps : List (Runs S × Runs S)) : Runs S :=
  all (ps.map fun p => seq p.1 p.2)

/-- No steps do nothing. -/
@[simp] theorem steps_nil : steps ([] : List (Runs S × Runs S)) = exit .normal := rfl

/-- The first step comes before the others. -/
@[simp] theorem steps_cons (p : Runs S × Runs S) (ps : List (Runs S × Runs S)) :
    steps (p :: ps) = seq (seq p.1 p.2) (steps ps) := rfl

/-- All first pieces may come first, if none of them interferes with the second piece of a part in
front of it. -/
theorem all_fst_seq_all_snd {ps : List (Runs S × Runs S)}
    (h : ps.Pairwise fun p q => p.2.Commutes q.1) :
    seq (all (ps.map (·.1))) (all (ps.map (·.2))) = steps ps := by
  induction ps with
  | nil => exact exit_normal_seq _
  | cons p ps ih =>
    obtain ⟨hp, hps⟩ := List.pairwise_cons.1 h
    have hlate : p.2.Commutes (all (ps.map (·.1))) := Commutes.all (List.forall_mem_map.2 hp)
    rw [List.map_cons, List.map_cons, all_cons, all_cons, steps_cons, ← ih hps, seq_assoc,
      seq_assoc, ← seq_assoc (all _) p.2, ← hlate, seq_assoc]

end Runs

namespace World

variable (W : World)

/-- The runs of an event. -/
def does (event : Event) : Runs W.State := .act (W.act event) .normal

/-- Whether nothing comes of an event. -/
def Ignores (event : Event) : Prop :=
  ∀ a ok b, W.act event a ok b ↔ ok = true ∧ b = a

/-- Whether a variable is not watched. -/
structure Overlooks (name : String) : Prop where
  read : W.Ignores (.read name)
  write : W.Ignores (.write name)

variable {W}

/-- An event that is ignored does nothing. -/
theorem does_of_ignores {event : Event} (h : W.Ignores event) : W.does event = .exit .normal := by
  funext a x b
  refine propext ⟨?_, fun ⟨hx, hb⟩ => .inl ⟨(h a true b).2 ⟨rfl, hb⟩, hx⟩⟩
  rintro (⟨hact, hx⟩ | ⟨hact, -⟩)
  · exact ⟨hx, ((h a true b).1 hact).2⟩
  · cases ((h a false b).1 hact).1

/-- Whether no variable is watched whose name is free. -/
def OverlooksFree (W : World) (names : Scopes) : Prop :=
  ∀ x, ¬ names.IsTaken x → W.Overlooks x

/-- If free names are overlooked, those that are still free later are. -/
theorem OverlooksFree.grows {s t : LowerState} (h : W.OverlooksFree s.names) (hg : Grows s t) :
    W.OverlooksFree t.names :=
  fun x hx => h x (mt (hg.taken x) hx)

end World

/-!
## Traces

In the world of a trace, each event is written down when it happens, unless it is about a variable
that is not watched. Nothing raises, and guards may have either value.
-/

namespace World

/-- Whether an event is written down if these are the variables that are watched. -/
def isNoted (watched : List String) : Event → Bool
  | .read x | .write x => watched.contains x
  | _ => true

/-- The world whose states are the events so far. Foreign code evaluates its arguments. -/
def trace (watched : List String) : World where
  State := List Event
  act event a ok b := ok = true ∧ b = a ++ [event].filter (isNoted watched)
  decide a _ b := b = a
  pick a _ b := b = a
  caught a b := b = a
  foreign _ args a ok b := ok = true ∧ Runs.all args a .normal b

variable {watched : List String}

/-- Nothing but these events happens. -/
def notes (watched : List String) (events : List Event) : Runs (trace watched).State :=
  fun (a : List Event) x b => x = .normal ∧ b = a ++ events

/-- An event is noted if it is about something watched. -/
theorem trace_does (event : Event) :
    (trace watched).does event = notes watched ([event].filter (isNoted watched)) := by
  funext a x b
  refine propext ⟨?_, fun ⟨hx, hb⟩ => .inl ⟨⟨rfl, hb⟩, hx⟩⟩
  rintro (⟨⟨-, hb⟩, hx⟩ | ⟨⟨hok, -⟩, -⟩)
  · exact ⟨hx, hb⟩
  · cases hok

/-- An event about something watched is noted. -/
theorem trace_does_of_isNoted {event : Event} (h : isNoted watched event = true) :
    (trace watched).does event = notes watched [event] := by
  rw [trace_does, List.filter_cons_of_pos h, List.filter_nil]

/-- A call is noted. -/
theorem trace_call : (trace watched).does .call = notes watched [.call] :=
  trace_does_of_isNoted rfl

/-- Reading a watched variable is noted. -/
theorem trace_read {x : String} (h : x ∈ watched) :
    (trace watched).does (.read x) = notes watched [.read x] :=
  trace_does_of_isNoted (List.contains_iff_mem.2 h)

/-- Writing a watched variable is noted. -/
theorem trace_write {x : String} (h : x ∈ watched) :
    (trace watched).does (.write x) = notes watched [.write x] :=
  trace_does_of_isNoted (List.contains_iff_mem.2 h)

/-- Doing nothing notes nothing. -/
theorem exit_normal_eq_notes : Runs.exit .normal = notes watched [] := by
  funext a x b
  exact propext (and_congr_right fun _ => (List.append_nil (a : List Event)).symm ▸ Iff.rfl)

/-- Notes in sequence are noted in order. -/
theorem notes_seq_notes (as bs : List Event) :
    Runs.seq (notes watched as) (notes watched bs) = notes watched (as ++ bs) := by
  funext a x b
  refine propext ⟨?_, fun ⟨hx, hb⟩ => .inr ⟨_, ⟨rfl, rfl⟩, hx, ?_⟩⟩
  · rintro (⟨⟨hx, -⟩, hne⟩ | ⟨m, ⟨-, rfl⟩, hx, rfl⟩)
    · exact absurd hx hne
    · exact ⟨hx, List.append_assoc ..⟩
  · exact hb.trans (List.append_assoc ..).symm

/-- What happened can be told from the runs. -/
theorem notes_injective {as bs : List Event} (h : notes watched as = notes watched bs) : as = bs :=
  have hrun : notes watched bs [] .normal as := h ▸ ⟨rfl, rfl⟩
  hrun.2

/-- An event about nothing watched is ignored. -/
theorem trace_ignores {event : Event} (h : isNoted watched event = false) :
    (trace watched).Ignores event := by
  intro (a : List Event) ok b
  show ok = true ∧ b = a ++ [event].filter (isNoted watched) ↔ _
  rw [List.filter_cons_of_neg (ne_true_of_eq_false h), List.filter_nil, List.append_nil]

/-- A variable that is not watched is overlooked. -/
theorem trace_overlooks {x : String} (h : x ∉ watched) : (trace watched).Overlooks x := by
  have hnoted : watched.contains x = false := by
    rwa [← Bool.not_eq_true, List.contains_iff_mem]
  exact ⟨trace_ignores hnoted, trace_ignores hnoted⟩

/-- If all variables that are watched are in use, then none that is free is watched. -/
theorem trace_overlooksFree {names : Scopes} (h : ∀ x ∈ watched, names.IsTaken x) :
    (trace watched).OverlooksFree names :=
  fun x hx => trace_overlooks fun hmem => hx (h x hmem)

end World

end TypedLowering.Control
