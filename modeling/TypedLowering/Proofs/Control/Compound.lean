import TypedLowering.Proofs.Control.Discipline

/-!
# The discipline of loops, try statements and switches

A loop that is no jump target of its own comes to its end (`Obeys.loop`), a try statement passes on
how its body and its handler end (`Obeys.protect`), and a switch with a default case ends as one of
its cases does (`Obeys.switch`).
-/

namespace TypedLowering.Control

variable {σ ε : Type}

/-! ## Loops -/

/-- The discipline of the body of a loop that no jump goes to: it may leave the loop. -/
structure Repeats (fs : List (Flow σ ε)) : Prop where
  exit : ∀ (M : Machine σ ε) {a x b}, runAll M fs a x b →
    x = .normal ∨ x = .raised ∨ x = .broke none
  jump : ∀ B ∈ blocks true fs, ∀ l, .continueTo l ∉ B.flows
  allowed : ∀ B ∈ blocks true fs, ∀ f ∈ B.flows, f.Allowed false

namespace Repeats

variable {as bs fs : List (Flow σ ε)}

theorem of_obeys (h : Obeys false noJumps fs) : Repeats fs where
  exit M _ _ _ hr := (h.exit M hr).normal_or_raised.imp_right .inl
  jump _ hB := (h.guarded hB).1
  allowed _ hB := (h.guarded hB).2

theorem append (ha : Repeats as) (hb : Repeats bs) : Repeats (as ++ bs) := by
  have hmem : ∀ {B : Block σ ε}, B ∈ innerAll true (as ++ bs) →
      B ∈ blocks true as ∨ B ∈ blocks true bs := fun hB => by
    rw [innerAll_append, List.mem_append] at hB
    exact hB.imp (List.mem_cons_of_mem _) (List.mem_cons_of_mem _)
  refine ⟨fun M a x b h => ?_, fun B hB l hl => ?_, fun B hB f hf => ?_⟩
  · rw [runAll_append] at h
    rcases h with ⟨h, -⟩ | ⟨m, -, h⟩
    · exact ha.exit M h
    · exact hb.exit M h
  · rcases List.mem_cons.1 hB with rfl | hB
    · rcases List.mem_append.1 hl with hl | hl
      · exact ha.jump _ List.mem_cons_self l hl
      · exact hb.jump _ List.mem_cons_self l hl
    · rcases hmem hB with hB | hB
      · exact ha.jump B hB l hl
      · exact hb.jump B hB l hl
  · rcases List.mem_cons.1 hB with rfl | hB
    · rcases List.mem_append.1 hf with hf | hf
      · exact ha.allowed _ List.mem_cons_self f hf
      · exact hb.allowed _ List.mem_cons_self f hf
    · rcases hmem hB with hB | hB
      · exact ha.allowed B hB f hf
      · exact hb.allowed B hB f hf

/-- A test under which the loop is left. -/
theorem leaves (guard : ε) : Repeats (σ := σ) [.choose guard [.breakTo none] []] := by
  refine ⟨fun M a x b h => ?_, fun B hB => ?_, fun B hB => ?_⟩
  · rw [runAll_singleton] at h
    rcases h with ⟨-, rfl⟩ | ⟨m, -, h⟩ | ⟨m, -, rfl, -⟩
    · exact .inr (.inl rfl)
    · rw [runAll_singleton] at h
      exact .inr (.inr h.1)
    · exact .inl rfl
  all_goals
    simp only [blocks, innerAll, Flow.inner, List.append_nil, List.cons_append, List.nil_append,
      List.mem_cons, List.not_mem_nil, or_false] at hB
    rcases hB with rfl | rfl | rfl <;> simp [Flow.Allowed]

/-- The iterations come to their end or raise. -/
theorem iterate (h : Repeats fs) {M : Machine σ ε} {next : M.State → Option Bool → M.State → Prop}
    {labels : List String} {a b : M.State} {x : Exit}
    (hr : Runs.iterate next labels (runAll M fs) a x b) : x = .normal ∨ x = .raised := by
  induction hr with
  | raised => exact .inr rfl
  | done => exact .inl rfl
  | again _ _ _ _ ih => exact ih
  | left _ hbody hgo =>
    rcases h.exit M hbody with rfl | rfl | rfl
    · cases hgo
    · exact .inr rfl
    · exact .inl rfl

end Repeats

namespace Obeys

variable {ret : Bool} {J : Jumps σ ε} {fs : List (Flow σ ε)}

theorem loop {header : σ} (h : Repeats fs) : Obeys false J [.loop header fs] := by
  refine of_singleton nofun trivial (fun M a x b hr => ?_) (fun B hB pre l post he => ?_) h.allowed
  · rcases hr with ⟨⟨-, rfl⟩ | ⟨-, rfl⟩, hx⟩ | ⟨m, -, hr⟩
    · exact absurd rfl hx
    · trivial
    · rcases h.iterate hr with rfl | rfl
      · exact rfl
      · trivial
  · refine absurd ?_ (h.jump B hB l)
    rw [he]
    exact List.mem_append_right _ List.mem_cons_self

/-! ## Try statements -/

/-- How a body with a handler may end. -/
theorem exit_handled {handler : Option (List (Flow σ ε))} (h : Obeys ret noJumps fs)
    (hh : ∀ hs, handler = some hs → Obeys ret noJumps hs) {M : Machine σ ε}
    {catches : M.State → M.State → Prop} {a b : M.State} {x : Exit}
    (hr : Runs.handled catches (runAll M fs) (runOption M handler) a x b) :
    x.Fits ret (noJumps : Jumps σ ε) := by
  cases handler with
  | none => exact h.exit M hr
  | some hs =>
    rcases hr with ⟨hr, -⟩ | ⟨m, n, -, -, hr⟩
    · exact h.exit M hr
    · exact (hh hs rfl).exit M hr

theorem protect {header : σ} {handler finalizer : Option (List (Flow σ ε))}
    (h : Obeys ret noJumps fs) (hh : ∀ hs, handler = some hs → Obeys ret noJumps hs)
    (hf : ∀ zs, finalizer = some zs → Obeys false noJumps zs) :
    Obeys ret J [.protect header fs handler finalizer] := by
  have hmem : ∀ B ∈ (Flow.protect (ε := ε) header fs handler finalizer).inner false,
      (∀ l, .continueTo l ∉ B.flows) ∧ ∀ f ∈ B.flows, f.Allowed ret := by
    intro B hB
    rw [Flow.inner, List.mem_append, List.mem_append] at hB
    rcases hB with (hB | hB) | hB
    · exact h.guarded hB
    · obtain ⟨hs, rfl, hB⟩ := mem_innerOption hB
      exact (hh hs rfl).guarded hB
    · obtain ⟨zs, rfl, hB⟩ := mem_innerOption hB
      exact ((hf zs rfl).guarded hB).imp_right fun h f hf => (h f hf).mono ret
  refine of_singleton nofun trivial (fun M a x b hr => ?_) (fun B hB pre l post he => ?_)
    fun B hB => (hmem B hB).2
  · refine Exit.Fits.mono (J := noJumps) (fun _ _ => False.elim) ?_
    cases finalizer with
    | none => exact exit_handled h hh hr
    | some zs =>
      obtain ⟨y, m, z, hy, hz, rfl⟩ := hr
      rcases ((hf zs rfl).exit M hz).normal_or_raised with rfl | rfl
      · exact exit_handled h hh hy
      · trivial
  · refine absurd ?_ ((hmem B hB).1 l)
    rw [he]
    exact List.mem_append_right _ List.mem_cons_self

end Obeys

/-! ## Bodies with a break -/

/-- The discipline of the body of a case, and of a loop that jumps go to: its statements are in
order, and a break may follow them. -/
def Body (ret : Bool) (J : Jumps σ ε) (body : List (Flow σ ε)) : Prop :=
  ∃ fs exit, body = fs ++ exit ∧ Obeys ret J fs ∧ (exit = [] ∨ exit = [.breakTo none])

namespace Body

variable {ret : Bool} {J : Jumps σ ε} {body : List (Flow σ ε)}

/-- How a body may end. Where it has to return, its break does not run. -/
theorem exit (h : Body ret J body) {M : Machine σ ε} {a b : M.State} {x : Exit}
    (hr : runAll M body a x b) : x.Fits ret J ∨ (ret = false ∧ x = .broke none) := by
  obtain ⟨fs, exit, hbody, hfs, rfl | rfl⟩ := h
  · rw [hbody, List.append_nil] at hr
    exact .inl (hfs.exit M hr)
  · rw [hbody, runAll_append, runAll_singleton] at hr
    rcases hr with ⟨hr, -⟩ | ⟨m, hr, rfl, -⟩
    · exact .inl (hfs.exit M hr)
    · exact .inr ⟨hfs.exit M hr, rfl⟩

theorem jump (h : Body ret J body) {B : Block σ ε} (hB : B ∈ blocks false body)
    {pre post : List (Flow σ ε)} {l : Option String} (he : B.flows = pre ++ .continueTo l :: post) :
    B.isGuarded = false ∧ (post = [] ∨ post = [.breakTo none]) ∧ J.After pre l := by
  obtain ⟨fs, exit, hbody, hfs, hexit⟩ := h
  have hinner : innerAll false exit = [] := by rcases hexit with rfl | rfl <;> rfl
  rw [blocks, hbody, innerAll_append, hinner, List.append_nil] at hB
  rcases List.mem_cons.1 hB with rfl | hB
  · refine ⟨rfl, ?_⟩
    rcases hexit with rfl | rfl
    · rw [List.append_nil] at he
      exact (hfs.last he).imp_left .inl
    · rcases List.eq_nil_or_concat post with rfl | ⟨post, f, rfl⟩
      · obtain ⟨-, hf⟩ := List.append_inj' he rfl
        cases hf
      · rw [List.concat_eq_append, ← List.cons_append, ← List.append_assoc] at he
        obtain ⟨hfs', hf⟩ := List.append_inj' he rfl
        obtain ⟨rfl, hJ⟩ := hfs.last hfs'
        exact ⟨.inr (by rw [List.concat_eq_append, List.nil_append, hf]), hJ⟩
  · exact hfs.jump B hB he

theorem allowed (h : Body ret J body) {B : Block σ ε} (hB : B ∈ blocks false body) :
    ∀ f ∈ B.flows, f.Allowed ret := by
  obtain ⟨fs, exit, hbody, hfs, hexit⟩ := h
  have hinner : innerAll false exit = [] := by rcases hexit with rfl | rfl <;> rfl
  rw [blocks, hbody, innerAll_append, hinner, List.append_nil] at hB
  rcases List.mem_cons.1 hB with rfl | hB
  · intro f hf
    rcases List.mem_append.1 hf with hf | hf
    · exact hfs.allowed _ List.mem_cons_self f hf
    · rcases hexit with rfl | rfl
      · cases hf
      · obtain rfl := List.mem_singleton.1 hf
        trivial
  · exact hfs.allowed B (List.mem_cons_of_mem _ hB)

end Body

/-- A body that returns or ends with a break only goes on with a loop by a jump. -/
theorem Obeys.continued_of_goesOn {ret : Bool} {J : Jumps σ ε} {fs : List (Flow σ ε)}
    (h : Obeys ret J fs) {M : Machine σ ε} {a b : M.State} {x : Exit} {labels : List String}
    (hr : runAll M (fs ++ if ret then [] else [.breakTo none]) a x b)
    (hx : x.goesOn labels = true) : ∃ l own, x = .continued l ∧ J own l := by
  have hfits : x.Fits ret J → x ≠ .normal → ∃ l own, x = .continued l ∧ J own l := by
    intro hfits hne
    cases x with
    | normal => exact absurd rfl hne
    | continued l => exact ⟨l, hfits.choose, rfl, hfits.choose_spec⟩
    | returned | raised | broke => cases hx
  cases ret with
  | true =>
    rw [if_pos rfl, List.append_nil] at hr
    refine hfits (h.exit M hr) ?_
    rintro rfl
    cases h.exit M hr
  | false =>
    rw [if_neg Bool.false_ne_true, runAll_append, runAll_singleton] at hr
    rcases hr with ⟨hr, hne⟩ | ⟨m, -, rfl, -⟩
    · exact hfits (h.exit M hr) hne
    · cases hx

/-! ## Switches -/

namespace Obeys

variable {ret : Bool} {J : Jumps σ ε} {cases : List (Case σ ε)}

/-- How the cases of a switch end from one of them on. A case that does not return may go on with
the next one. -/
theorem exit_runFrom (h : ∀ c ∈ cases, Body ret J c.body) {M : Machine σ ε} {i : Nat}
    {a b : M.State} {x : Exit} (hi : i < cases.length) (hr : runFrom M cases i a x b) :
    x.Fits ret J ∨ (ret = false ∧ x = .broke none) := by
  induction cases generalizing i a with
  | nil => cases hi
  | cons c cases ih =>
    obtain ⟨tests, body⟩ := c
    have ih := @ih fun c hc => h c (List.mem_cons_of_mem _ hc)
    cases i with
    | succ i => exact ih (Nat.lt_of_succ_lt_succ hi) hr
    | zero =>
      rcases hr with ⟨hr, -⟩ | ⟨m, hr, hrest⟩
      · exact (h _ List.mem_cons_self).exit hr
      · rcases (h _ List.mem_cons_self).exit hr with hret | ⟨-, hx⟩
        · cases cases with
          | nil =>
            obtain ⟨rfl, -⟩ := hrest
            exact .inl hret
          | cons c cases => exact ih (Nat.succ_pos _) hrest
        · cases hx

/-- The case that a switch goes to is one of its cases. -/
theorem landing_lt {M : Machine σ ε} {subject : ε} {tests : List (Option (List ε))}
    {found : Option Nat} {i : Nat} {a b : M.State} (hp : M.pick subject tests a (some found) b)
    (hl : landing tests found = some i) : i < tests.length := by
  cases found with
  | some j =>
    obtain rfl : j = i := Option.some.inj hl
    obtain ⟨ts, hts⟩ := M.pick_tests hp
    exact (List.getElem?_eq_some_iff.1 hts).1
  | none => exact (List.findIdx?_eq_some_iff_getElem.1 hl).1

/-- A break of a switch ends the switch. -/
theorem fits_leave {x : Exit} (h : x.Fits ret J ∨ (ret = false ∧ x = .broke none)) :
    x.leave.Fits ret J := by
  rcases h with h | ⟨hret, rfl⟩
  · cases x with
    | broke => cases h
    | normal | returned | raised | continued => exact h
  · exact hret

theorem switch {subject : ε} (h : ∀ c ∈ cases, Body ret J c.body)
    (hdefault : ret = true → ∃ c ∈ cases, c.tests = none) :
    Obeys ret J [.switch subject cases] := by
  refine of_singleton nofun trivial (fun M a x b hr => ?_) (fun B hB => ?_) fun B hB => ?_
  · obtain ⟨r, m, hpick, hr⟩ := hr
    cases r with
    | none =>
      obtain ⟨rfl, -⟩ := hr
      trivial
    | some found =>
      dsimp only at hr
      cases hl : landing (cases.map (·.tests)) found with
      | none =>
        rw [hl] at hr
        obtain ⟨rfl, -⟩ := hr
        cases found with
        | some i => cases hl
        | none =>
          cases ret with
          | false => exact rfl
          | true =>
            obtain ⟨c, hc, hnone⟩ := hdefault rfl
            have := List.findIdx?_eq_none_iff.1 hl none (List.mem_map.2 ⟨c, hc, hnone⟩)
            cases this
      | some i =>
        rw [hl] at hr
        obtain ⟨y, hr, rfl⟩ := hr
        have hi := landing_lt hpick hl
        rw [List.length_map] at hi
        exact fits_leave (exit_runFrom h hi hr)
  · obtain ⟨c, hc, hB⟩ := mem_innerCases hB
    exact (h c hc).jump hB
  · obtain ⟨c, hc, hB⟩ := mem_innerCases hB
    exact (h c hc).allowed hB

end Obeys

end TypedLowering.Control
