import TypedLowering.Proofs.Names.Fresh

/-!
# Names over whole runs

A file is lowered in a run of requests: declarations are entered and left, one inside another in any
way, and names are allocated. `Run` is such a run, with what it answers. Every name is new where it
is allocated, and stays in use: root names for good, the names of a declaration until the
declarations around it are left (`run_allocates_new`).
-/

namespace TypedLowering

namespace Scopes

/-- A request with its answer. -/
inductive Event where
  /-- A declaration that uses these names is entered. -/
  | entered (used : List String)
  /-- The current declaration is left. -/
  | left
  | root (name : String)
  | own (name : String)
  deriving DecidableEq, Repr

namespace Event

/-- The root name that an event answers. -/
def rootName? : Event → Option String
  | .root name => some name
  | _ => none

/-- The names that an event brings into the scope that is current after it. -/
def localNames : Event → List String
  | .entered used => used
  | .own name => [name]
  | _ => []

/-- The names that an event brings into use. -/
def names : Event → List String
  | .root name => [name]
  | e => e.localNames

/-- The name that an event allocates. -/
def allocated? : Event → Option String
  | .root name | .own name => some name
  | _ => none

end Event

/-- The names in use, with the current scopes of the declarations around, innermost first. -/
structure Nesting where
  names : Scopes
  outer : List (List String)

/-- The start of a file. -/
def Nesting.start (root reserved : List String) : Nesting := ⟨.ofRoot root reserved, []⟩

/-- One request. -/
inductive Step : Nesting → Event → Nesting → Prop
  | enter (names : Scopes) (outer : List (List String)) (used : List String) :
    Step ⟨names, outer⟩ (.entered used) ⟨(names.enter used).2, (names.enter used).1 :: outer⟩
  | leave (names : Scopes) (parent : List String) (outer : List (List String)) :
    Step ⟨names, parent :: outer⟩ .left ⟨names.leave parent, outer⟩
  | root (names : Scopes) (outer : List (List String)) (candidate : String) :
    Step ⟨names, outer⟩ (.root (names.allocateRoot candidate).1)
      ⟨(names.allocateRoot candidate).2, outer⟩
  | own (names : Scopes) (outer : List (List String)) (candidate : String) :
    Step ⟨names, outer⟩ (.own (names.allocateLocal candidate).1)
      ⟨(names.allocateLocal candidate).2, outer⟩

/-- Requests one after the other. -/
inductive Run : Nesting → List Event → Nesting → Prop
  | nil (s : Nesting) : Run s [] s
  | cons {s m t : Nesting} {e : Event} {es : List Event} (first : Step s e m) (rest : Run m es t) :
    Run s (e :: es) t

/-- Events that leave every declaration that they enter, and no other. -/
inductive Balanced : List Event → Prop
  | nil : Balanced []
  | allocate {e : Event} {es : List Event} (h : e.allocated?.isSome) (rest : Balanced es) :
    Balanced (e :: es)
  | nested {inner es : List Event} (used : List String) (body : Balanced inner)
      (rest : Balanced es) : Balanced (.entered used :: (inner ++ .left :: es))

/-- Events in the current scope: they go back to where it was entered or less far, and declarations
that were entered meanwhile are left. -/
inductive InCurrent : List Event → Prop
  | part {es : List Event} (h : Balanced es) : InCurrent es
  | whole {es : List Event} (used : List String) (h : Balanced es) : InCurrent (.entered used :: es)

/-! ## One request -/

section Step
variable {s t : Nesting} {e : Event}

theorem Step.reserved (h : Step s e t) : t.names.reserved = s.names.reserved := by
  cases h <;> rfl

/-- A request changes the root scope by the root name that it allocates. -/
theorem Step.mem_root (h : Step s e t) {x : String} :
    x ∈ t.names.root ↔ x ∈ s.names.root ∨ e.rootName? = some x := by
  cases h with
  | enter | leave | own => simp [Scopes.enter, Scopes.leave, allocateLocal, Event.rootName?]
  | root names outer candidate =>
    simp only [allocateRoot, mem_insert, Event.rootName?, Option.some.injEq]
    rw [or_comm, eq_comm]

theorem Step.closed_subset (h : Step s e t) {x : String} (hx : x ∈ s.names.closed) :
    x ∈ t.names.closed := by
  cases h with
  | enter | root | own => exact hx
  | leave => exact mem_union.2 (.inl hx)

/-- A root name is in none of the sets, and a local name is in none that it may collide with. -/
theorem Step.allocated_isNew (h : Step s e t) {name : String} (hname : e.allocated? = some name) :
    name ∉ s.names.reserved ∧ name ∉ s.names.root ∧ name ∉ s.names.current ∧
      (e.rootName? = some name → name ∉ s.names.closed) := by
  cases h with
  | enter | leave => nomatch hname
  | root names outer candidate =>
    obtain rfl := Option.some.inj hname
    have hnew := Names.preventConflicts_not_mem
      (names.reserved ++ names.root ++ names.closed ++ names.current) (Names.sanitize candidate)
    simp only [List.mem_append, not_or] at hnew
    exact ⟨hnew.1.1.1, hnew.1.1.2, hnew.2, fun _ => hnew.1.2⟩
  | own names outer candidate =>
    obtain rfl := Option.some.inj hname
    have hnew := Names.preventConflicts_not_mem (names.reserved ++ names.root ++ names.current)
      (Names.sanitize candidate)
    simp only [List.mem_append, not_or] at hnew
    exact ⟨hnew.1.1, hnew.1.2, hnew.2, nofun⟩

/-- An allocation stays in the current scope, which gains the name if it is a local one. -/
theorem Step.allocated (h : Step s e t) (he : e.allocated?.isSome) :
    t.outer = s.outer ∧
      ∀ x, x ∈ t.names.current ↔ x ∈ s.names.current ∨ x ∈ e.localNames := by
  cases h with
  | enter | leave => nomatch he
  | root => exact ⟨rfl, fun x => by simp [allocateRoot, Event.localNames]⟩
  | own => exact ⟨rfl, fun x => by simp [allocateLocal, Event.localNames, or_comm]⟩

end Step

/-! ## Runs -/

section Run
variable {s t : Nesting} {es fs : List Event}

theorem Run.of_append (h : Run s (es ++ fs) t) : ∃ m, Run s es m ∧ Run m fs t := by
  induction es generalizing s with
  | nil => exact ⟨s, .nil s, h⟩
  | cons e es ih =>
    obtain _ | ⟨first, rest⟩ := h
    obtain ⟨m, hes, hfs⟩ := ih rest
    exact ⟨m, .cons first hes, hfs⟩

theorem Run.reserved (h : Run s es t) : t.names.reserved = s.names.reserved := by
  induction h with
  | nil => rfl
  | cons first _ ih => rw [ih, first.reserved]

/-- A run changes the root scope by the root names that it allocates. -/
theorem Run.mem_root (h : Run s es t) {x : String} :
    x ∈ t.names.root ↔ x ∈ s.names.root ∨ x ∈ es.filterMap Event.rootName? := by
  induction h with
  | nil => simp
  | @cons _ _ _ e es first _ ih =>
    rw [ih, first.mem_root, or_assoc, List.mem_filterMap, List.mem_filterMap,
      List.exists_mem_cons_iff]

/-- Root names are new to the root scope, and so differ from each other. -/
theorem Run.rootNames_nodup (h : Run s es t) :
    (es.filterMap Event.rootName?).Nodup ∧
      ∀ x ∈ es.filterMap Event.rootName?, x ∉ s.names.root := by
  induction h with
  | nil => exact ⟨.nil, nofun⟩
  | @cons s m t e es first _ ih =>
    obtain ⟨hnodup, hnew⟩ := ih
    have hrest : ∀ x ∈ es.filterMap Event.rootName?, x ∉ s.names.root := fun x hx hroot =>
      hnew x hx (first.mem_root.2 (.inl hroot))
    cases hname : e.rootName? with
    | none => rw [List.filterMap_cons_none hname]; exact ⟨hnodup, hrest⟩
    | some name =>
      have hallocated : e.allocated? = some name := by
        cases e with
        | root => exact hname
        | entered | left | own => nomatch hname
      rw [List.filterMap_cons_some hname, List.nodup_cons, List.forall_mem_cons]
      exact ⟨⟨fun hmem => hnew name hmem (first.mem_root.2 (.inr hname)), hnodup⟩,
        (first.allocated_isNew hallocated).2.1, hrest⟩

/-- Events that are balanced come back to the scope that they began in. It keeps its names and gains
all local names of theirs. -/
theorem Run.balanced (h : Run s es t) (hes : Balanced es) :
    t.outer = s.outer ∧ (∀ x ∈ s.names.current, x ∈ t.names.current) ∧
      ∀ e ∈ es, ∀ x ∈ e.localNames, x ∈ t.names.current := by
  induction hes generalizing s t with
  | nil =>
    cases h
    exact ⟨rfl, fun _ => id, nofun⟩
  | allocate he _ ih =>
    obtain _ | ⟨first, rest⟩ := h
    obtain ⟨houter, hcurrent⟩ := first.allocated he
    obtain ⟨houter', hkeep, hlocal⟩ := ih rest
    refine ⟨houter'.trans houter, fun x hx => hkeep x ((hcurrent x).2 (.inl hx)), ?_⟩
    exact List.forall_mem_cons.2 ⟨fun x hx => hkeep x ((hcurrent x).2 (.inr hx)), hlocal⟩
  | @nested inner es used _ _ ihbody ihrest =>
    obtain _ | ⟨⟨names, outer, _⟩, rest⟩ := h
    obtain ⟨m, hinner, hleave⟩ := rest.of_append
    obtain ⟨houter, hkeep, hlocal⟩ := ihbody hinner
    obtain _ | ⟨hstep, hafter⟩ := hleave
    cases hstep with
    | leave finished parent outer' =>
      obtain ⟨rfl, rfl⟩ := List.cons.inj houter
      obtain ⟨houter', hkeep', hlocal'⟩ := ihrest hafter
      have hfinished : ∀ x ∈ finished.current, x ∈ t.names.current := fun x hx =>
        hkeep' x (mem_union.2 (.inr hx))
      refine ⟨houter', fun x hx => hkeep' x (mem_union.2 (.inl hx)),
        List.forall_mem_cons.2 ⟨fun x hx => ?_, ?_⟩⟩
      · exact hfinished x (hkeep x (mem_union.2 (.inr hx)))
      · refine List.forall_mem_append.2 ⟨fun e he x hx => hfinished x (hlocal e he x hx), ?_⟩
        exact List.forall_mem_cons.2 ⟨nofun, hlocal'⟩

/-- The local names of the events in the current scope are in use. -/
theorem Run.inCurrent (h : Run s es t) (hes : InCurrent es) :
    ∀ e ∈ es, ∀ x ∈ e.localNames, x ∈ t.names.current := by
  cases hes with
  | part hes => exact (h.balanced hes).2.2
  | whole used hes =>
    obtain _ | ⟨⟨names, outer, _⟩, rest⟩ := h
    obtain ⟨-, hkeep, hlocal⟩ := rest.balanced hes
    exact List.forall_mem_cons.2 ⟨fun x hx => hkeep x (mem_union.2 (.inr hx)), hlocal⟩

/-- A declaration that is left hands its names on to the declaration around it, and to the closed
scopes. -/
theorem Run.leave {used : List String} (h : Run s (.entered used :: es) t) (hes : Balanced es)
    {u : Nesting} (hleave : Step t .left u) (x : String) :
    (x ∈ u.names.current ↔ x ∈ s.names.current ∨ x ∈ t.names.current) ∧
      (x ∈ u.names.closed ↔ x ∈ t.names.closed ∨ x ∈ t.names.current) := by
  obtain _ | ⟨⟨names, outer, _⟩, rest⟩ := h
  obtain ⟨houter, -⟩ := rest.balanced hes
  cases hleave with
  | leave finished parent outer' =>
    obtain ⟨rfl, rfl⟩ := List.cons.inj houter
    exact ⟨mem_union, mem_union⟩

end Run

theorem Event.mem_names {e : Event} {x : String} :
    x ∈ e.names ↔ x ∈ e.localNames ∨ e.rootName? = some x := by
  cases e <;> simp [names, localNames, rootName?, eq_comm]

/-! ## The names of a file -/

/-- How new a name is that is allocated in the state `s`, after the events `before` of a file that
starts with the root names `root`. -/
structure IsNew (root reserved : List String) (before : List Event) (s : Nesting) (e : Event)
    (name : String) : Prop where
  not_reserved : name ∉ reserved
  not_root : name ∉ s.names.root
  not_current : name ∉ s.names.current
  /-- A root name is new to the declarations that were left, too. -/
  not_closed : e = .root name → name ∉ s.names.closed
  not_initial : name ∉ root
  not_rootName : name ∉ before.filterMap Event.rootName?
  /-- It is none of the names used or allocated in the current scope, or in a declaration in it. -/
  not_recent : ∀ recent, recent <:+ before → InCurrent recent → name ∉ recent.flatMap Event.names

theorem Run.isNew {root reserved : List String} {before : List Event} {s t : Nesting} {e : Event}
    {name : String} (h : Run (.start root reserved) before s) (hstep : Step s e t)
    (hname : e.allocated? = some name) : IsNew root reserved before s e name := by
  obtain ⟨hreserved, hroot, hcurrent, hclosed⟩ := hstep.allocated_isNew hname
  rw [h.reserved] at hreserved
  have hroot' := hroot
  rw [h.mem_root, not_or] at hroot'
  refine ⟨hreserved, hroot, hcurrent, fun he => hclosed (by rw [he]; rfl), fun hmem => ?_,
    hroot'.2, fun recent hrecent hin hmem => ?_⟩
  · exact hroot'.1 (mem_union.2 (.inr hmem))
  · obtain ⟨old, rfl⟩ := hrecent
    obtain ⟨m, -, hrun⟩ := h.of_append
    obtain ⟨d, hd, hx⟩ := List.mem_flatMap.1 hmem
    rcases Event.mem_names.1 hx with hx | hx
    · exact hcurrent (hrun.inCurrent hin d hd name hx)
    · exact hroot (hrun.mem_root.2 (.inr (List.mem_filterMap.2 ⟨d, hd, hx⟩)))

/-- Every name that is allocated in a run is new, root names are pairwise distinct, no scope that is
kept for good loses a name, and a declaration that is left hands its names on. -/
theorem run_allocates_new {root reserved : List String} {events : List Event} {t : Nesting}
    (h : Run (.start root reserved) events t) :
    (∀ before e after, events = before ++ e :: after →
      ∃ s s', Run (.start root reserved) before s ∧ Step s e s' ∧ Run s' after t ∧
        (∀ x ∈ s.names.root, x ∈ s'.names.root) ∧ (∀ x ∈ s.names.closed, x ∈ s'.names.closed) ∧
        ∀ name, e.allocated? = some name → IsNew root reserved before s e name) ∧
    (events.filterMap Event.rootName?).Nodup ∧
    ∀ before used inner after, events = before ++ .entered used :: inner ++ .left :: after →
      Balanced inner → ∃ s m u, Run (.start root reserved) before s ∧
        Run s (.entered used :: inner) m ∧ Step m .left u ∧ Run u after t ∧
        (∀ x, (x ∈ u.names.current ↔ x ∈ s.names.current ∨ x ∈ m.names.current) ∧
          (x ∈ u.names.closed ↔ x ∈ m.names.closed ∨ x ∈ m.names.current)) ∧
        ∀ e ∈ Event.entered used :: inner, ∀ x ∈ e.localNames, x ∈ m.names.current := by
  refine ⟨?_, h.rootNames_nodup.1, ?_⟩
  · rintro before e after rfl
    obtain ⟨s, hbefore, hrest⟩ := h.of_append
    obtain _ | ⟨hstep, hafter⟩ := hrest
    exact ⟨s, _, hbefore, hstep, hafter, fun x hx => hstep.mem_root.2 (.inl hx),
      fun x hx => hstep.closed_subset hx, fun name hname => hbefore.isNew hstep hname⟩
  · rintro before used inner after rfl hinner
    obtain ⟨m, hrun, hrest⟩ := h.of_append
    obtain ⟨s, hbefore, hdeclaration⟩ := hrun.of_append
    obtain _ | ⟨hleave, hafter⟩ := hrest
    exact ⟨s, m, _, hbefore, hdeclaration, hleave, hafter, hdeclaration.leave hinner hleave,
      hdeclaration.inCurrent (.whole used hinner)⟩

/-- A declaration inside another one, with allocations in, between and after them. -/
def nestedEvents : List Event :=
  [.root "class_1", .entered ["x_1"], .own "x_2", .entered ["y"], .own "y_1", .left, .own "y_2",
    .left, .root "y_3"]

/-- A run with one declaration inside another, and what is new in it. -/
theorem nestedEvents_run : ∃ s t, Run (.start ["x"] ["class"]) nestedEvents t ∧
    Run (.start ["x"] ["class"]) (nestedEvents.take 6) s ∧
    IsNew ["x"] ["class"] (nestedEvents.take 6) s (.own "y_2") "y_2" ∧
    (nestedEvents.filterMap Event.rootName?).Nodup := by
  have h : ∃ t, Run (.start ["x"] ["class"]) nestedEvents t :=
    ⟨_, .cons (.root _ _ "class") <| .cons (.enter _ _ _) <| .cons (.own _ _ "x") <|
      .cons (.enter _ _ _) <| .cons (.own _ _ "y") <| .cons (.leave _ _ _) <|
      .cons (.own _ _ "y") <| .cons (.leave _ _ _) <| .cons (.root _ _ "y") <| .nil _⟩
  obtain ⟨t, h⟩ := h
  obtain ⟨hcuts, hnodup, -⟩ := run_allocates_new h
  obtain ⟨s, -, hs, -, -, -, -, hnew⟩ :=
    hcuts (nestedEvents.take 6) (.own "y_2") [.left, .root "y_3"] rfl
  exact ⟨s, t, h, hs, hnew "y_2" rfl, hnodup⟩

end Scopes

end TypedLowering
