import TypedLowering.Proofs.Control.Compound
import TypedLowering.Proofs.Control.Placement

/-!
# What statements deliver

Statements that deliver a value end each of their branches with a step that stores it. Recorded runs
(`recordAll`) are the runs, with a record of the last steps of branches that were executed
(`recordAll_covers`). Statements that deliver (`Delivers`) execute such a step before they come to
their end. They execute a second one only if the first one is revoked: it stands in a try statement
whose finalizer raises afterwards, so that the branch is not taken after all.
-/

namespace TypedLowering.Control

variable {σ ε : Type}

/-! ## Recorded runs -/

/-- What a run did at the ends of branches. -/
structure Record (σ : Type) where
  /-- The last steps of branches, in the order in which they were executed. -/
  ends : List σ
  /-- How often the finalizer of a try statement raised after the statement had come to its end. -/
  revoked : Nat

namespace Record

/-- Nothing has been done. -/
def start : Record σ := ⟨[], 0⟩

/-- The record with one more last step that was reached. -/
def reach (k : Record σ) (code : σ) : Record σ := { k with ends := k.ends ++ [code] }

/-- The record with one more value that was given up. -/
def revoke (k : Record σ) : Record σ := { k with revoked := k.revoked + 1 }

end Record

namespace Runs

variable {S : Type}

/-- Code that leaves the record alone. -/
def unrecorded (p : Runs S) : Runs (S × Record σ) := fun a x b => p a.1 x b.1 ∧ b.2 = a.2

/-- The last step of a branch. -/
def reached (p : S → Bool → S → Prop) (code : σ) : Runs (S × Record σ) := fun a x b =>
  (p a.1 true b.1 ∧ x = .normal ∧ b.2 = a.2.reach code) ∨
    (p a.1 false b.1 ∧ x = .raised ∧ b.2 = a.2)

/-- A body at the end of a branch, with a finalizer. If the body comes to its end and the finalizer
raises, what the body did is revoked. -/
def revocable (body : Runs (S × Record σ)) : Option (Runs S) → Runs (S × Record σ)
  | none => body
  | some finalizer => fun a x b => ∃ y m z, body a y m ∧ finalizer m.1 z b.1 ∧
    x = (if z = .normal then y else z) ∧
      b.2 = if y = .normal ∧ z = .raised then m.2.revoke else m.2

end Runs

/-- The machine with a record that it leaves alone. -/
def Machine.recording (M : Machine σ ε) : Machine σ ε where
  State := M.State × Record σ
  step code a ok b := M.step code a.1 ok b.1 ∧ b.2 = a.2
  test guard a r b := M.test guard a.1 r b.1 ∧ b.2 = a.2
  start header a ok b := M.start header a.1 ok b.1 ∧ b.2 = a.2
  next header a r b := M.next header a.1 r b.1 ∧ b.2 = a.2
  pick subject tests a r b := M.pick subject tests a.1 r b.1 ∧ b.2 = a.2
  catches header a b := M.catches header a.1 b.1 ∧ b.2 = a.2
  pick_tests h := M.pick_tests h.1

/-- Whether a statement is the break of a case. -/
def Flow.isBreak : Flow σ ε → Bool
  | .breakTo none => true
  | _ => false

/-- Whether a branch is over where these statements come next. -/
def isOver (fs : List (Flow σ ε)) : Bool := fs.all (·.isBreak)

mutual

/-- The runs of a flow at the end of its branch, with a record. -/
def Flow.record (M : Machine σ ε) : Flow σ ε → Runs (M.State × Record σ)
  | .step code => .reached (M.step code) code
  | .ret code => .unrecorded (.act (M.step code) .returned)
  | .raise code => .unrecorded (.act (M.step code) .raised)
  | .breakTo label => .exit (.broke label)
  | .continueTo label => .exit (.continued label)
  | .block body => recordAll M body
  | .choose guard thenFlows elseFlows =>
    .branch (M.recording.test guard) (recordAll M thenFlows) (recordAll M elseFlows)
  | .loop header body => .unrecorded ((Flow.loop header body).run M [])
  | .switch subject cases =>
    .select M.recording subject (cases.map (·.tests)) (recordFrom M cases)
  | .protect header body handler finalizer =>
    .revocable (.handled (M.recording.catches header) (recordAll M body) (recordOption M handler))
      (runOption M finalizer)
  | .labeled label body => .unrecorded ((Flow.labeled label body).run M [])

/-- The runs of flows one after the other, with a record of the last one. -/
def recordAll (M : Machine σ ε) : List (Flow σ ε) → Runs (M.State × Record σ)
  | [] => .exit .normal
  | f :: fs =>
    .seq (if isOver fs then f.record M else .unrecorded (f.run M [])) (recordAll M fs)

/-- The recorded runs of a block that may be missing. -/
def recordOption (M : Machine σ ε) : Option (List (Flow σ ε)) →
    Option (Runs (M.State × Record σ))
  | none => none
  | some fs => some (recordAll M fs)

/-- The runs of the cases of a switch from one of them on, with a record. -/
def recordFrom (M : Machine σ ε) : List (Case σ ε) → Nat → Runs (M.State × Record σ)
  | [], _ => .exit .normal
  | ⟨_, body⟩ :: cases, 0 => .seq (recordAll M body) (recordFrom M cases 0)
  | _ :: cases, i + 1 => recordFrom M cases i

end

/-! ## Recorded runs are runs -/

namespace Runs

variable {S : Type} {p p' : Runs (S × Record σ)} {q q' : Runs S}

/-- Whether these are the same runs, with a record. -/
def Covers (p : Runs (S × Record σ)) (q : Runs S) : Prop :=
  ∀ a k x b, q a x b ↔ ∃ l, p (a, k) x (b, l)

namespace Covers

/-- An exit is recorded as nothing. -/
theorem exit (x : Exit) : Covers (σ := σ) (S := S) (.exit x) (.exit x) := fun a k y b => by
  constructor
  · rintro ⟨rfl, rfl⟩
    exact ⟨k, rfl, rfl⟩
  · rintro ⟨l, rfl, h⟩
    exact ⟨rfl, congrArg Prod.fst h⟩

/-- Runs that record nothing cover themselves. -/
theorem unrecorded (q : Runs S) : Covers (σ := σ) q.unrecorded q := fun _ k _ _ =>
  ⟨fun h => ⟨k, h, rfl⟩, fun ⟨_, h, _⟩ => h⟩

/-- A step that is recorded as reached covers the step. -/
theorem reached (step : S → Bool → S → Prop) (code : σ) :
    Covers (.reached step code) (.act step .normal) := fun a k x b => by
  constructor
  · rintro (⟨h, rfl⟩ | ⟨h, rfl⟩)
    · exact ⟨_, .inl ⟨h, rfl, rfl⟩⟩
    · exact ⟨_, .inr ⟨h, rfl, rfl⟩⟩
  · rintro ⟨l, ⟨h, rfl, -⟩ | ⟨h, rfl, -⟩⟩
    · exact .inl ⟨h, rfl⟩
    · exact .inr ⟨h, rfl⟩

/-- Recorded runs in sequence cover the runs. -/
theorem seq (h : Covers p q) (h' : Covers p' q') : Covers (.seq p p') (.seq q q') :=
  fun a k x b => by
  constructor
  · rintro (⟨hq, hx⟩ | ⟨m, hq, hq'⟩)
    · obtain ⟨l, hp⟩ := (h a k x b).1 hq
      exact ⟨l, .inl ⟨hp, hx⟩⟩
    · obtain ⟨l, hp⟩ := (h a k _ m).1 hq
      obtain ⟨l', hp'⟩ := (h' m l x b).1 hq'
      exact ⟨l', .inr ⟨(m, l), hp, hp'⟩⟩
  · rintro ⟨l, ⟨hp, hx⟩ | ⟨⟨m, l'⟩, hp, hp'⟩⟩
    · exact .inl ⟨(h a k x b).2 ⟨l, hp⟩, hx⟩
    · exact .inr ⟨m, (h a k _ m).2 ⟨l', hp⟩, (h' m l' x b).2 ⟨l, hp'⟩⟩

/-- A recorded run that ends otherwise covers the run that does. -/
theorem exitBy (f : Exit → Exit) (h : Covers p q) : Covers (.exitBy f p) (.exitBy f q) :=
  fun a k x b => by
  constructor
  · rintro ⟨y, hq, rfl⟩
    obtain ⟨l, hp⟩ := (h a k y b).1 hq
    exact ⟨l, y, hp, rfl⟩
  · rintro ⟨l, y, hp, rfl⟩
    exact ⟨y, (h a k y b).2 ⟨l, hp⟩, rfl⟩

/-- Recorded branches cover the branches. -/
theorem branch (M : Machine σ ε) (guard : ε) {p p' : Runs (M.State × Record σ)}
    {q q' : Runs M.State} (h : Covers p q) (h' : Covers p' q') :
    Covers (.branch (M.recording.test guard) p p') (.branch (M.test guard) q q') :=
  fun a k x b => by
  constructor
  · rintro (⟨ht, hx⟩ | ⟨m, ht, hq⟩ | ⟨m, ht, hq⟩)
    · exact ⟨k, .inl ⟨⟨ht, rfl⟩, hx⟩⟩
    · obtain ⟨l, hp⟩ := (h m k x b).1 hq
      exact ⟨l, .inr (.inl ⟨(m, k), ⟨ht, rfl⟩, hp⟩)⟩
    · obtain ⟨l, hp⟩ := (h' m k x b).1 hq
      exact ⟨l, .inr (.inr ⟨(m, k), ⟨ht, rfl⟩, hp⟩)⟩
  · rintro ⟨l, ⟨⟨ht, -⟩, hx⟩ | ⟨⟨m, l'⟩, ⟨ht, -⟩, hp⟩ | ⟨⟨m, l'⟩, ⟨ht, -⟩, hp⟩⟩
    · exact .inl ⟨ht, hx⟩
    · exact .inr (.inl ⟨m, ht, (h m l' x b).2 ⟨l, hp⟩⟩)
    · exact .inr (.inr ⟨m, ht, (h' m l' x b).2 ⟨l, hp⟩⟩)

/-- A recorded body with a handler covers the body with the handler. -/
theorem handled (M : Machine σ ε) (header : σ) {p : Runs (M.State × Record σ)} {q : Runs M.State}
    (h : Covers p q) (handler : Option (Runs (M.State × Record σ) × Runs M.State))
    (h' : ∀ hs ∈ handler, Covers hs.1 hs.2) :
    Covers (.handled (M.recording.catches header) p (handler.map (·.1)))
      (.handled (M.catches header) q (handler.map (·.2))) := by
  cases handler with
  | none => exact h
  | some hs =>
    intro a k x b
    constructor
    · rintro (⟨hq, hx⟩ | ⟨m, n, hq, hc, hq'⟩)
      · obtain ⟨l, hp⟩ := (h a k x b).1 hq
        exact ⟨l, .inl ⟨hp, hx⟩⟩
      · obtain ⟨l, hp⟩ := (h a k _ m).1 hq
        obtain ⟨l', hp'⟩ := (h' hs rfl n l x b).1 hq'
        exact ⟨l', .inr ⟨(m, l), (n, l), hp, ⟨hc, rfl⟩, hp'⟩⟩
    · rintro ⟨l, ⟨hp, hx⟩ | ⟨⟨m, k'⟩, ⟨n, l'⟩, hp, ⟨hc, -⟩, hp'⟩⟩
      · exact .inl ⟨(h a k x b).2 ⟨l, hp⟩, hx⟩
      · exact .inr ⟨m, n, (h a k _ m).2 ⟨k', hp⟩, hc, (h' hs rfl n l' x b).2 ⟨l, hp'⟩⟩

/-- A recorded body with a finalizer covers the body with the finalizer. -/
theorem revocable (h : Covers p q) (finalizer : Option (Runs S)) :
    Covers (.revocable p finalizer) (.finalized q finalizer) := by
  cases finalizer with
  | none => exact h
  | some fin =>
    intro a k x b
    constructor
    · rintro ⟨y, m, z, hq, hf, rfl⟩
      obtain ⟨l, hp⟩ := (h a k y m).1 hq
      exact ⟨_, y, (m, l), z, hp, hf, rfl, rfl⟩
    · rintro ⟨l, y, ⟨m, l'⟩, z, hp, hf, rfl, -⟩
      exact ⟨y, m, z, (h a k y m).2 ⟨l', hp⟩, hf, rfl⟩

/-- Recorded cases cover the cases. -/
theorem select (M : Machine σ ε) (subject : ε) (tests : List (Option (List ε)))
    {p : Nat → Runs (M.State × Record σ)} {q : Nat → Runs M.State} (h : ∀ i, Covers (p i) (q i)) :
    Covers (.select M.recording subject tests p) (.select M subject tests q) := by
  intro a k x b
  constructor
  · rintro ⟨r, m, hpick, hq⟩
    have hpick' : M.recording.pick subject tests (a, k) r (m, k) := ⟨hpick, rfl⟩
    cases r with
    | none => exact ⟨k, none, (m, k), hpick', hq.1, by rw [hq.2]⟩
    | some found =>
      dsimp only at hq
      cases hl : landing tests found with
      | none =>
        rw [hl] at hq
        refine ⟨k, some found, (m, k), hpick', ?_⟩
        dsimp only
        rw [hl]
        exact ⟨hq.1, by rw [hq.2]⟩
      | some i =>
        rw [hl] at hq
        obtain ⟨l, hp⟩ := (exitBy .leave (h i) m k x b).1 hq
        refine ⟨l, some found, (m, k), hpick', ?_⟩
        dsimp only
        rw [hl]
        exact hp
  · rintro ⟨l, r, ⟨m, k'⟩, ⟨hpick, -⟩, hp⟩
    refine ⟨r, m, hpick, ?_⟩
    cases r with
    | none => exact ⟨hp.1, congrArg Prod.fst hp.2⟩
    | some found =>
      dsimp only at hp ⊢
      cases hl : landing tests found with
      | none =>
        rw [hl] at hp
        exact ⟨hp.1, congrArg Prod.fst hp.2⟩
      | some i =>
        rw [hl] at hp
        exact (exitBy .leave (h i) m k' x b).2 ⟨l, hp⟩

end Covers

end Runs

mutual

/-- The recorded runs of a flow cover its runs. -/
theorem Flow.record_covers (M : Machine σ ε) : (f : Flow σ ε) → (f.record M).Covers (f.run M [])
  | .step code => .reached (M.step code) code
  | .ret _ | .raise _ | .loop _ _ | .labeled _ _ => .unrecorded _
  | .breakTo _ | .continueTo _ => .exit _
  | .block body => recordAll_covers M body
  | .choose guard thenFlows elseFlows =>
    .branch M guard (recordAll_covers M thenFlows) (recordAll_covers M elseFlows)
  | .switch subject cases => .select M subject _ (recordFrom_covers M cases)
  | .protect header body none _ =>
    .revocable (.handled M header (recordAll_covers M body) none nofun) _
  | .protect header body (some hs) _ =>
    .revocable (.handled M header (recordAll_covers M body)
      (some (recordAll M hs, runAll M hs))
      fun _ h => Option.some.inj h ▸ recordAll_covers M hs) _

/-- The recorded runs of statements are their runs. -/
theorem recordAll_covers (M : Machine σ ε) : (fs : List (Flow σ ε)) →
    (recordAll M fs).Covers (runAll M fs)
  | [] => .exit .normal
  | f :: fs => by
    refine .seq ?_ (recordAll_covers M fs)
    split
    · exact f.record_covers M
    · exact .unrecorded _

/-- The recorded runs from a case on cover the runs from there on. -/
theorem recordFrom_covers (M : Machine σ ε) : (cases : List (Case σ ε)) → (i : Nat) →
    (recordFrom M cases i).Covers (runFrom M cases i)
  | [], _ => .exit .normal
  | ⟨_, body⟩ :: cases, 0 => .seq (recordAll_covers M body) (recordFrom_covers M cases 0)
  | ⟨_, _⟩ :: cases, i + 1 => recordFrom_covers M cases i

end

/-! ## Statements that deliver -/

namespace Record

variable {D : σ → Prop} {k l m : Record σ} {x : Exit}

/-- What is added to a record by code that delivers, by steps of a kind. Whether such code comes to
its end or raises, each of its deliveries but the last one of a run to the end is revoked. -/
def Gains (D : σ → Prop) (x : Exit) (k l : Record σ) : Prop :=
  ∃ new, l.ends = k.ends ++ new ∧ (∀ code ∈ new, D code) ∧
    (x = .normal ∧ new.length + k.revoked = l.revoked + 1 ∨
      x = .raised ∧ new.length + k.revoked = l.revoked)

namespace Gains

/-- Code that raises gains nothing. -/
theorem raised (k : Record σ) : k.Gains D .raised k :=
  ⟨[], (List.append_nil _).symm, nofun, .inr ⟨rfl, Nat.zero_add _⟩⟩

/-- A step that delivers and is reached is gained. -/
theorem reach {code : σ} (h : D code) (k : Record σ) : k.Gains D .normal (k.reach code) :=
  ⟨[code], rfl, fun _ hc => List.mem_singleton.1 hc ▸ h, .inl ⟨rfl, Nat.add_comm _ _⟩⟩

/-- Code that takes over from code that raised. -/
theorem trans (h : k.Gains D .raised m) (h' : m.Gains D x l) : k.Gains D x l := by
  obtain ⟨new, hends, hnew, ⟨⟨⟩, -⟩ | ⟨-, hlen⟩⟩ := h
  obtain ⟨new', hends', hnew', hlen'⟩ := h'
  refine ⟨new ++ new', by rw [hends', hends, List.append_assoc], fun code hc => ?_, ?_⟩
  · exact (List.mem_append.1 hc).elim (hnew code) (hnew' code)
  · rw [List.length_append]
    rcases hlen' with ⟨hx, hlen'⟩ | ⟨hx, hlen'⟩
    · exact .inl ⟨hx, by omega⟩
    · exact .inr ⟨hx, by omega⟩

/-- A value that was delivered may be given up by raising. -/
theorem revoke (h : k.Gains D .normal l) : k.Gains D .raised l.revoke := by
  obtain ⟨new, hends, hnew, ⟨-, hlen⟩ | ⟨⟨⟩, -⟩⟩ := h
  exact ⟨new, hends, hnew, .inr ⟨rfl, hlen⟩⟩

/-- What gains ends normally or raises. -/
theorem normal_or_raised (h : k.Gains D x l) : x = .normal ∨ x = .raised := by
  obtain ⟨-, -, -, ⟨hx, -⟩ | ⟨hx, -⟩⟩ := h
  · exact .inl hx
  · exact .inr hx

end Gains

end Record

/-- Whether what runs of statements add to a record are deliveries. -/
def Records (D : σ → Prop) (fs : List (Flow σ ε)) : Prop :=
  ∀ (M : Machine σ ε) {a k x b l}, recordAll M fs (a, k) x (b, l) → k.Gains D x l

/-- Whether statements only come to their end or raise. -/
def Settles (fs : List (Flow σ ε)) : Prop :=
  ∀ (M : Machine σ ε) {a x b}, runAll M fs a x b → x = .normal ∨ x = .raised

/-- Statements that neither return nor jump settle. -/
theorem Obeys.settles {fs : List (Flow σ ε)} (h : Obeys false noJumps fs) : Settles fs :=
  fun M _ _ _ hr => (h.exit M hr).normal_or_raised

/-- The discipline of statements that deliver a value by steps of a kind: each branch ends with such
a step, unless it raises. -/
inductive Delivers (D : σ → Prop) : List (Flow σ ε) → Prop
  | step {code : σ} : D code → Delivers D [.step code]
  | raises (code : σ) : Delivers D [.raise code]
  | choose {guard : ε} {as bs : List (Flow σ ε)} : Delivers D as → Delivers D bs →
      Delivers D [.choose guard as bs]
  /-- Statements that are run for their effects, and then others. -/
  | behind {as bs : List (Flow σ ε)} : Settles as → Delivers D bs → Delivers D (as ++ bs)
  | protect {header : σ} {fs : List (Flow σ ε)} {handler finalizer : Option (List (Flow σ ε))} :
      Delivers D fs → (∀ hs, handler = some hs → Delivers D hs) →
      (∀ zs, finalizer = some zs → Settles zs) →
      Delivers D [.protect header fs handler finalizer]
  | cases {subject : ε} {cases : List (Case σ ε)} :
      (∀ c ∈ cases, c.body = c.body.dropLast ++ [.breakTo none]) →
      (∀ c ∈ cases, Delivers D c.body.dropLast) → (∃ c ∈ cases, c.tests = none) →
      Delivers D [.switch subject cases]

namespace Runs

variable {S : Type}

/-- An exit leaves no record. -/
theorem unrecorded_exit (x : Exit) :
    unrecorded (σ := σ) (.exit x : Runs S) = .exit x := by
  funext a y b
  exact propext ⟨fun ⟨⟨hx, h⟩, hk⟩ => ⟨hx, Prod.ext h hk⟩, fun ⟨hx, h⟩ => ⟨⟨hx, h ▸ rfl⟩, h ▸ rfl⟩⟩

/-- A sequence that leaves no record has parts that leave none. -/
theorem unrecorded_seq (p q : Runs S) :
    unrecorded (σ := σ) (.seq p q) = .seq p.unrecorded q.unrecorded := by
  funext a x b
  refine propext ⟨?_, ?_⟩
  · rintro ⟨⟨hp, hx⟩ | ⟨m, hp, hq⟩, hk⟩
    · exact .inl ⟨⟨hp, hk⟩, hx⟩
    · exact .inr ⟨(m, a.2), ⟨hp, rfl⟩, hq, hk⟩
  · rintro (⟨⟨hp, hk⟩, hx⟩ | ⟨m, ⟨hp, hm⟩, hq, hk⟩)
    · exact ⟨.inl ⟨hp, hx⟩, hk⟩
    · exact ⟨.inr ⟨m.1, hp, hq⟩, hk.trans hm⟩

end Runs

/-- Statements that come before others are not at the end of a branch. -/
theorem recordAll_append (M : Machine σ ε) (as : List (Flow σ ε)) {bs : List (Flow σ ε)}
    (h : isOver bs = false) :
    recordAll M (as ++ bs) = .seq (.unrecorded (runAll M as)) (recordAll M bs) := by
  induction as with
  | nil => rw [List.nil_append, runAll_nil, Runs.unrecorded_exit, Runs.exit_normal_seq]
  | cons f as ih =>
    have hover : isOver (as ++ bs) = false := by
      rw [isOver, List.all_append, ← isOver, ← isOver, h, Bool.and_false]
    rw [List.cons_append, recordAll, hover, ih, runAll_cons, Runs.unrecorded_seq, Runs.seq_assoc]
    rfl

/-- A single flow is recorded as the flow. -/
theorem recordAll_singleton (M : Machine σ ε) (f : Flow σ ε) :
    recordAll M [f] = f.record M := by
  rw [recordAll, recordAll, Runs.seq_exit_normal]
  rfl

/-- A break after a branch makes no difference to the branch. -/
theorem recordAll_break (M : Machine σ ε) (fs : List (Flow σ ε)) :
    recordAll M (fs ++ [.breakTo none]) = .seq (recordAll M fs) (.exit (.broke none)) := by
  induction fs with
  | nil => rw [List.nil_append, recordAll_singleton, recordAll, Runs.exit_normal_seq, Flow.record]
  | cons f fs ih =>
    have hover : isOver (fs ++ [.breakTo none]) = isOver fs := by
      rw [isOver, List.all_append, List.all_cons, List.all_nil]
      exact Bool.and_true _
    rw [List.cons_append, recordAll, hover, ih, recordAll, Runs.seq_assoc]

namespace Records

variable {D : σ → Prop} {as bs fs : List (Flow σ ε)}

/-- A single flow records what its runs gain. -/
theorem of_singleton {f : Flow σ ε}
    (h : ∀ (M : Machine σ ε) {a k x b l}, f.record M (a, k) x (b, l) → k.Gains D x l) :
    Records D [f] :=
  fun M _ _ _ _ _ hr => h M (by rwa [recordAll_singleton] at hr)

/-- A step that delivers records itself. -/
theorem step {code : σ} (h : D code) : Records (ε := ε) D [.step code] := by
  refine of_singleton fun M a k x b l hr => ?_
  rcases hr with ⟨-, rfl, rfl⟩ | ⟨-, rfl, rfl⟩
  · exact .reach h _
  · exact .raised _

/-- A step that raises records nothing. -/
theorem raises (code : σ) : Records (ε := ε) D [.raise code] := by
  refine of_singleton fun M a k x b l hr => ?_
  obtain ⟨⟨-, rfl⟩ | ⟨-, rfl⟩, rfl⟩ := hr <;> exact .raised _

/-- A choice records what its branches record. -/
theorem choose {guard : ε} (ha : Records D as) (hb : Records D bs) :
    Records D [.choose guard as bs] := by
  refine of_singleton fun M a k x b l hr => ?_
  rcases hr with ⟨⟨-, rfl⟩, rfl⟩ | ⟨⟨m, k'⟩, ⟨-, rfl⟩, hr⟩ | ⟨⟨m, k'⟩, ⟨-, rfl⟩, hr⟩
  · exact .raised _
  · exact ha M hr
  · exact hb M hr

/-- Statements that settle may stand before those that record. -/
theorem behind (ha : Settles as) (hover : isOver bs = false) (hb : Records D bs) :
    Records D (as ++ bs) := by
  intro M a k x b l hr
  rw [recordAll_append M as hover] at hr
  rcases hr with ⟨⟨hr, rfl⟩, hx⟩ | ⟨⟨m, k'⟩, ⟨-, rfl⟩, hr⟩
  · rcases ha M hr with rfl | rfl
    · exact absurd rfl hx
    · exact .raised _
  · exact hb M hr

/-! ### Try statements -/

/-- A handled body records what it and its handler record. -/
theorem handled {handler : Option (List (Flow σ ε))} (h : Records D fs)
    (hh : ∀ hs, handler = some hs → Records D hs) {M : Machine σ ε} {header : σ} {a b : M.State}
    {k l : Record σ} {x : Exit}
    (hr : Runs.handled (M.recording.catches header) (recordAll M fs) (recordOption M handler)
      (a, k) x (b, l)) : k.Gains D x l := by
  cases handler with
  | none => exact h M hr
  | some hs =>
    rcases hr with ⟨hr, -⟩ | ⟨⟨m, k'⟩, ⟨n, l'⟩, hr, ⟨-, rfl⟩, hr'⟩
    · exact h M hr
    · exact (h M hr).trans (hh hs rfl M hr')

/-- A try statement records what its body and its handler record. -/
theorem protect {header : σ} {handler finalizer : Option (List (Flow σ ε))} (h : Records D fs)
    (hh : ∀ hs, handler = some hs → Records D hs) (hf : ∀ zs, finalizer = some zs → Settles zs) :
    Records D [.protect header fs handler finalizer] := by
  refine of_singleton fun M a k x b l hr => ?_
  cases finalizer with
  | none => exact handled h hh hr
  | some zs =>
    obtain ⟨y, ⟨m, k'⟩, z, hr, hz, rfl, rfl⟩ := hr
    have hgains := handled h hh hr
    rcases hf zs rfl M hz with rfl | rfl
    · simpa using hgains
    · rcases hgains.normal_or_raised with rfl | rfl
      · exact hgains.revoke
      · exact hgains

/-! ### Switches -/

/-- The cases of a switch from one of them on: it runs alone, and its break ends it. -/
theorem caseFrom {cases : List (Case σ ε)}
    (hbreak : ∀ c ∈ cases, c.body = c.body.dropLast ++ [.breakTo none])
    (h : ∀ c ∈ cases, Records D c.body.dropLast) {M : Machine σ ε} {i : Nat} {a b : M.State}
    {k l : Record σ} {x : Exit} (hi : i < cases.length)
    (hr : recordFrom M cases i (a, k) x (b, l)) : k.Gains D x.leave l := by
  induction cases generalizing i with
  | nil => cases hi
  | cons c cases ih =>
    obtain ⟨hbody, hbodies⟩ := List.forall_mem_cons.1 hbreak
    obtain ⟨hfs, hrest⟩ := List.forall_mem_cons.1 h
    obtain ⟨tests, body⟩ := c
    cases i with
    | succ i => exact ih hbodies hrest (Nat.lt_of_succ_lt_succ hi) hr
    | zero =>
      rw [recordFrom, show body = body.dropLast ++ [.breakTo none] from hbody,
        recordAll_break] at hr
      rcases hr with ⟨⟨hr, hx⟩ | ⟨⟨m, k'⟩, hr, rfl, ⟨⟩⟩, -⟩ | ⟨-, ⟨-, hx⟩ | ⟨-, -, ⟨⟩, -⟩, -⟩
      · have hgains := hfs M hr
        rcases hgains.normal_or_raised with rfl | rfl
        · exact absurd rfl hx
        · exact hgains
      · exact hfs M hr
      · exact absurd rfl hx

/-- A switch with a default case delivers if its cases do. -/
theorem cases {subject : ε} {cases : List (Case σ ε)}
    (hbreak : ∀ c ∈ cases, c.body = c.body.dropLast ++ [.breakTo none])
    (h : ∀ c ∈ cases, Records D c.body.dropLast) (hdefault : ∃ c ∈ cases, c.tests = none) :
    Records D [.switch subject cases] := by
  refine of_singleton fun M a k x b l hr => ?_
  obtain ⟨r, ⟨m, k'⟩, ⟨hpick, rfl⟩, hr⟩ := hr
  cases r with
  | none =>
    obtain ⟨rfl, ⟨⟩⟩ := hr
    exact .raised _
  | some found =>
    dsimp only at hr
    cases hl : landing (cases.map (·.tests)) found with
    | none =>
      cases found with
      | some i => cases hl
      | none =>
        obtain ⟨c, hc, hnone⟩ := hdefault
        have := List.findIdx?_eq_none_iff.1 hl none (List.mem_map.2 ⟨c, hc, hnone⟩)
        cases this
    | some i =>
      rw [hl] at hr
      obtain ⟨y, hr, rfl⟩ := hr
      have hi := Obeys.landing_lt hpick hl
      rw [List.length_map] at hi
      exact caseFrom hbreak h hi hr

end Records

namespace Delivers

variable {D : σ → Prop} {as bs fs : List (Flow σ ε)}

/-- Statements that deliver may have others before them. -/
theorem after (ha : Obeys false noJumps as) (hb : Delivers D bs) : Delivers D (as ++ bs) :=
  behind ha.settles hb

/-- A statement that neither returns nor jumps may stand before those that deliver. -/
theorem cons {f : Flow σ ε} (hf : Obeys false noJumps [f]) (hb : Delivers D bs) :
    Delivers D (f :: bs) :=
  after hf hb

/-- A switch whose cases deliver and then break. -/
theorem switch {subject : ε} {cases : List (Case σ ε)}
    (h : ∀ c ∈ cases, ∃ fs, c.body = fs ++ [.breakTo none] ∧ Delivers D fs)
    (hdefault : ∃ c ∈ cases, c.tests = none) : Delivers D [.switch subject cases] := by
  refine .cases (fun c hc => ?_) (fun c hc => ?_) hdefault
  · obtain ⟨fs, hbody, -⟩ := h c hc
    rw [hbody, List.dropLast_concat]
  · obtain ⟨fs, hbody, hfs⟩ := h c hc
    rwa [hbody, List.dropLast_concat]

/-- A branch is not over where statements come next that deliver. -/
theorem not_over (h : Delivers D fs) : isOver fs = false := by
  induction h with
  | step | raises | choose | protect | cases => rfl
  | behind _ _ ih => rw [isOver, List.all_append, ← isOver, ← isOver, ih, Bool.and_false]

/-- Statements that deliver record. -/
theorem records (h : Delivers D fs) : Records D fs := by
  induction h with
  | step hD => exact .step hD
  | raises code => exact .raises code
  | choose _ _ iha ihb => exact .choose iha ihb
  | behind ha hb ih => exact .behind ha hb.not_over ih
  | protect _ _ hf ih ihh => exact .protect ih ihh hf
  | cases hbreak _ hdefault ih => exact .cases hbreak ih hdefault

/-- Statements that deliver end normally or raise. -/
theorem normal_or_raised (h : Delivers D fs) {M : Machine σ ε} {a b : M.State} {x : Exit}
    (hr : runAll M fs a x b) : x = .normal ∨ x = .raised := by
  obtain ⟨l, hl⟩ := (recordAll_covers M fs a .start x b).1 hr
  exact (h.records M hl).normal_or_raised

end Delivers

/-! ## Statements in their places -/

section
variable {S : Scoping σ}

/-- Statements settle in their places if they do at all. -/
theorem Settles.placed {fs : List (Flow σ ε)} (h : Settles fs) (d : Depths) :
    Settles (placedAll S d fs) :=
  fun M _ _ _ hr => h M.unplaced (runAll_placed_le S M d fs _ _ _ hr)

/-- Statements that deliver do so in any place. The names that none of their blocks declares stand
for the same variables in the deliveries as around. -/
theorem Delivers.placed {D : σ → Prop} {names : List String} {fs : List (Flow σ ε)}
    (h : Delivers D fs) {d d' : Depths} (hd : ∀ x ∈ names, d x = d' x)
    (hnames : ∀ x ∈ names, x ∉ declaredWithin S fs) :
    Delivers (fun c => D c.2 ∧ ∀ x ∈ names, c.1 x = d' x) (placedAll S d fs) := by
  have henter : ∀ {d : Depths} {fs : List (Flow σ ε)}, (∀ x ∈ names, d x = d' x) →
      (∀ x ∈ names, x ∉ declaredWithin S fs) →
      ∀ x ∈ names, d.enter (declared S fs) x = d' x :=
    fun hd hfs x hx => (Depths.enter_declared _ (hfs x hx)).trans (hd x hx)
  induction h generalizing d with
  | step hD => exact .step ⟨hD, hd⟩
  | raises code => exact .raises (d, code)
  | @choose guard as bs _ _ iha ihb =>
    have hsplit := fun x hx => not_or.1 (mt List.mem_append.2
      (not_or.1 (mt List.mem_append.2 (hnames x hx))).1)
    have ha := fun x hx => (hsplit x hx).1
    have hb := fun x hx => (hsplit x hx).2
    exact .choose (iha (henter hd ha) ha) (ihb (henter hd hb) hb)
  | @behind as bs ha _ ih =>
    rw [placedAll_append]
    refine .behind (ha.placed d) (ih hd fun x hx hmem => hnames x hx ?_)
    rw [declaredWithin_append]
    exact List.mem_append_right _ hmem
  | @protect header fs handler finalizer _ _ hf ih ihh =>
    have hsplit : ∀ x ∈ names, (x ∉ S.binds header ∧ x ∉ declaredWithin S fs) ∧
        x ∉ declaredInOption S handler := by
      intro x hx
      have hall := hnames x hx
      simp only [declaredWithin, Flow.declaresWithin, List.append_nil, List.mem_append,
        not_or] at hall
      exact hall.1
    have hbody := fun x hx => (hsplit x hx).1.2
    refine .protect (ih (henter hd hbody) hbody) (fun hs heq => ?_) (fun zs heq => ?_)
    · rw [placedOption_eq_map] at heq
      obtain ⟨fs', rfl, rfl⟩ := Option.map_eq_some_iff.1 heq
      have hhandler := fun x hx => (hsplit x hx).2
      refine ihh fs' rfl (henter (fun x hx => ?_) hhandler) hhandler
      rw [d.enter_of_not_mem (hsplit x hx).1.1, hd x hx]
    · rw [placedOption_eq_map] at heq
      obtain ⟨fs', rfl, rfl⟩ := Option.map_eq_some_iff.1 heq
      exact (hf fs' rfl).placed _
  | @cases subject cases hbreak _ hdefault ih =>
    have hcases : ∀ c ∈ cases, ∀ x ∈ names, x ∉ declaredWithin S c.body := by
      intro c hc x hx hmem
      refine hnames x hx (List.mem_append_left _ ?_)
      rw [Flow.declaresWithin, declaredInCases_eq]
      exact List.mem_flatMap.2 ⟨c, hc, hmem⟩
    rw [placedAll, placedAll, Flow.placed, placedCases_eq_map]
    refine .switch (fun c hc => ?_) ?_
    · obtain ⟨c, hmem, rfl⟩ := List.mem_map.1 hc
      have hbody := hbreak c hmem
      have hdrop : ∀ x ∈ names, x ∉ declaredWithin S c.body.dropLast := fun x hx hdecl => by
        refine hcases c hmem x hx ?_
        rw [hbody, declaredWithin_append]
        exact List.mem_append_left _ hdecl
      have hlast : ∀ e : Depths, placedAll S e c.body =
          placedAll S e c.body.dropLast ++ [.breakTo none] := fun e => by
        conv_lhs => rw [hbody, placedAll_append]
        rfl
      exact ⟨_, hlast _, ih c hmem (henter hd (hcases c hmem)) hdrop⟩
    · obtain ⟨c, hc, hnone⟩ := hdefault
      exact ⟨_, List.mem_map_of_mem hc, by rw [hnone]; rfl⟩

end

end TypedLowering.Control
