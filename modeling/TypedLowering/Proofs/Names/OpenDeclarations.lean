import Mathlib.Data.List.Induction
import TypedLowering.Proofs.Names.Nesting

/-!
# Names of open declarations

Declarations may be open one inside the other. A name that is allocated then is new to the innermost
one. The names of the others are set aside while it is open, so it is new to them, too, if each
declaration is entered with the names that are in use around it (`allocated_isNew_toOpen`). Without
that it need not be (`setAside_reused`).
-/

namespace TypedLowering

namespace Scopes

/-- The names of the open declarations, innermost first, after one more event. Names of a
declaration that is left are names of the one around it. -/
def Event.addTo : List (List String) → Event → List (List String)
  | ds, .entered used => used :: ds
  | inner :: outer :: ds, .left => (inner ++ outer) :: ds
  | _, .left => []
  | d :: ds, .root name | d :: ds, .own name => (name :: d) :: ds
  | [], .root _ | [], .own _ => []

/-- The names used or allocated in each declaration that is open after events, innermost first. -/
def openNames (events : List Event) : List (List String) :=
  events.foldl Event.addTo []

/-- Whether each declaration is entered with the names that are in use around it. -/
def Inherits (events : List Event) : Prop :=
  ∀ before used after, events = before ++ .entered used :: after →
    ∀ d ∈ openNames before, ∀ x ∈ d, x ∈ used

theorem openNames_concat (es : List Event) (e : Event) :
    openNames (es ++ [e]) = e.addTo (openNames es) := by
  rw [openNames, List.foldl_concat, openNames]

theorem Inherits.left {es fs : List Event} (h : Inherits (es ++ fs)) : Inherits es := by
  rintro before used after rfl
  exact h before used (after ++ fs) (by simp)

theorem Run.of_concat {s t : Nesting} {es : List Event} {e : Event} (h : Run s (es ++ [e]) t) :
    ∃ m, Run s es m ∧ Step m e t := by
  obtain ⟨m, hes, hlast⟩ := h.of_append
  obtain _ | ⟨hstep, hnil⟩ := hlast
  cases hnil
  exact ⟨m, hes, hstep⟩

/-! ## Scopes cover the names -/

/-- Whether the names of each declaration are in the root scope or in the scope of the
declaration. -/
def Covers (root : List String) : List (List String) → List (List String) → Prop
  | [], _ => True
  | d :: ds, scope :: scopes => (∀ x ∈ d, x ∈ root ∨ x ∈ scope) ∧ Covers root ds scopes
  | _ :: _, [] => False

theorem Covers.mono {root root' : List String} (hroot : ∀ x ∈ root, x ∈ root') :
    ∀ {ds scopes : List (List String)}, Covers root ds scopes → Covers root' ds scopes
  | [], _, _ => trivial
  | _ :: _, _ :: _, ⟨hd, hds⟩ => ⟨fun x hx => (hd x hx).imp_left (hroot x), hds.mono hroot⟩

/-- A name that is allocated is covered in the innermost declaration. -/
theorem Covers.allocate {root root' scope scope' : List String} {name : String}
    {ds scopes : List (List String)} (h : Covers root ds (scope :: scopes))
    (hroot : ∀ x ∈ root, x ∈ root') (hscope : ∀ x ∈ scope, x ∈ scope')
    (hname : name ∈ root' ∨ name ∈ scope') {e : Event} (he : e = .root name ∨ e = .own name) :
    Covers root' (e.addTo ds) (scope' :: scopes) := by
  cases ds with
  | nil => rcases he with rfl | rfl <;> trivial
  | cons d ds =>
    obtain ⟨hd, hds⟩ := h
    have hcons : Covers root' ((name :: d) :: ds) (scope' :: scopes) :=
      ⟨List.forall_mem_cons.2 ⟨hname, fun x hx => (hd x hx).imp (hroot x) (hscope x)⟩,
        hds.mono hroot⟩
    rcases he with rfl | rfl <;> exact hcons

theorem Step.covers {s t : Nesting} {e : Event} (h : Step s e t) {ds : List (List String)}
    (hds : Covers s.names.root ds (s.names.current :: s.outer)) :
    Covers t.names.root (e.addTo ds) (t.names.current :: t.outer) := by
  cases h with
  | enter names outer used => exact ⟨fun x hx => .inr (mem_union.2 (.inr hx)), hds⟩
  | leave names parent outer =>
    match ds, hds with
    | [], _ | [_], _ => trivial
    | inner :: d :: ds, ⟨hinner, hd, hds⟩ =>
      refine ⟨List.forall_mem_append.2 ⟨fun x hx => ?_, fun x hx => ?_⟩, hds⟩
      · exact (hinner x hx).imp_right fun hx => mem_union.2 (.inr hx)
      · exact (hd x hx).imp_right fun hx => mem_union.2 (.inl hx)
  | root names outer candidate =>
    exact hds.allocate (fun x hx => mem_insert.2 (.inr hx)) (fun _ => id)
      (.inl (mem_insert.2 (.inl rfl))) (.inl rfl)
  | own names outer candidate =>
    exact hds.allocate (fun _ => id) (fun x hx => mem_insert.2 (.inr hx))
      (.inr (mem_insert.2 (.inl rfl))) (.inr rfl)

section Run
variable {root reserved : List String} {es : List Event} {t : Nesting}

theorem Run.covers (h : Run (.start root reserved) es t) :
    Covers t.names.root (openNames es) (t.names.current :: t.outer) := by
  induction es using List.reverseRecOn generalizing t with
  | nil => cases h; trivial
  | append_singleton es e ih =>
    obtain ⟨m, hes, hstep⟩ := h.of_concat
    rw [openNames_concat]
    exact hstep.covers (ih hes)

/-- The names of the innermost declaration are taken. -/
theorem Run.innermost_isTaken (h : Run (.start root reserved) es t) {d : List String}
    (hd : d ∈ (openNames es).head?) : ∀ x ∈ d, t.names.IsTaken x := by
  have hcovers := h.covers
  cases hes : openNames es with
  | nil => rw [hes] at hd; nomatch hd
  | cons d' ds =>
    rw [hes] at hd hcovers
    obtain rfl := Option.some.inj hd
    exact hcovers.1

/-- The innermost of declarations that inherit names has all names of those around it. -/
theorem Inherits.innermost (h : Inherits es) {d : List String} (hd : d ∈ openNames es) {x : String}
    (hx : x ∈ d) : ∃ inner ∈ (openNames es).head?, x ∈ inner := by
  induction es using List.reverseRecOn generalizing d with
  | nil => nomatch hd
  | append_singleton es e ih =>
    replace ih {d : List String} (hd : d ∈ openNames es) (hx : x ∈ d) := ih h.left hd hx
    have hentered : ∀ used, e = .entered used → ∀ d ∈ openNames es, x ∈ d → x ∈ used := by
      rintro used rfl d hd hx
      exact h es used [] rfl d hd x hx
    rw [openNames_concat] at hd ⊢
    match hes : openNames es, e with
    | ds, .entered used =>
      rw [hes] at hd hentered
      refine ⟨used, rfl, ?_⟩
      rcases List.mem_cons.1 hd with rfl | hd
      · exact hx
      · exact hentered used rfl d hd hx
    | inner :: outer :: ds, .left =>
      rw [hes] at hd ih
      refine ⟨inner ++ outer, rfl, ?_⟩
      rcases List.mem_cons.1 hd with rfl | hd
      · exact hx
      · obtain ⟨_, hinner, hx⟩ := ih (List.mem_cons_of_mem _ (List.mem_cons_of_mem _ hd)) hx
        obtain rfl := Option.some.inj hinner
        exact List.mem_append_left _ hx
    | [], .left | [_], .left => rw [hes] at hd; nomatch hd
    | [], .root _ | [], .own _ => rw [hes] at hd; nomatch hd
    | inner :: ds, .root name | inner :: ds, .own name =>
      rw [hes] at hd ih
      refine ⟨name :: inner, rfl, ?_⟩
      rcases List.mem_cons.1 hd with rfl | hd
      · exact hx
      · obtain ⟨_, hinner, hx⟩ := ih (List.mem_cons_of_mem _ hd) hx
        obtain rfl := Option.some.inj hinner
        exact List.mem_cons_of_mem _ hx

end Run

/-! ## Allocations -/

/-- A name that is allocated is new to the innermost of the declarations that are open. It is new to
those around it if each is entered with the names that are in use there. -/
theorem allocated_isNew_toOpen {root reserved : List String} {events : List Event} {t : Nesting}
    (h : Run (.start root reserved) events t) {before after : List Event} {e : Event}
    {name : String} (hcut : events = before ++ e :: after) (hname : e.allocated? = some name) :
    (∀ d ∈ (openNames before).head?, name ∉ d) ∧
      (Inherits before → ∀ d ∈ openNames before, name ∉ d) := by
  subst hcut
  obtain ⟨s, hbefore, hrest⟩ := h.of_append
  obtain _ | ⟨hstep, -⟩ := hrest
  obtain ⟨-, hroot, hcurrent, -⟩ := hstep.allocated_isNew hname
  have hinnermost : ∀ d ∈ (openNames before).head?, name ∉ d := fun d hd hmem =>
    (hbefore.innermost_isTaken hd name hmem).elim hroot hcurrent
  refine ⟨hinnermost, fun hinherits d hd hmem => ?_⟩
  obtain ⟨inner, hinner, hmem⟩ := hinherits.innermost hd hmem
  exact hinnermost inner hinner hmem

/-- A declaration inside another one that is entered with the names of the one around it. -/
def inheritingEvents : List Event :=
  [.entered ["x"], .own "x_1", .entered ["y", "x", "x_1"]]

/-- A declaration that is entered with the names around it gets a name that is new to them. -/
theorem inheritingEvents_allocate : ∃ t,
    Run (.start [] []) (inheritingEvents ++ [.own "x_2"]) t ∧ Inherits inheritingEvents ∧
      openNames inheritingEvents = [["y", "x", "x_1"], ["x_1", "x"]] ∧
      ∀ d ∈ openNames inheritingEvents, "x_2" ∉ d := by
  have h : ∃ t, Run (.start [] []) (inheritingEvents ++ [.own "x_2"]) t :=
    ⟨_, .cons (.enter _ _ _) <| .cons (.own _ _ "x") <| .cons (.enter _ _ _) <|
      .cons (.own _ _ "x") <| .nil _⟩
  have hinherits : Inherits inheritingEvents := by
    intro before used after hevents
    obtain _ | ⟨_, _ | ⟨_, _ | ⟨_, before⟩⟩⟩ := before <;>
      simp only [inheritingEvents, List.nil_append, List.cons_append, List.cons.injEq,
        reduceCtorEq, false_and, and_false, List.nil_eq, List.append_eq_nil_iff] at hevents
    · simp [openNames]
    · obtain ⟨rfl, rfl, hused, rfl⟩ := hevents
      cases hused
      decide
  obtain ⟨t, h⟩ := h
  exact ⟨t, h, hinherits, rfl, (allocated_isNew_toOpen h rfl rfl).2 hinherits⟩

/-- While a declaration is open in another one that uses `x`, both allocators may return `x`. -/
theorem setAside_reused :
    (∃ t, Run (.start [] []) [.entered ["x"], .entered [], .root "x"] t) ∧
    (∃ t, Run (.start [] []) [.entered ["x"], .entered [], .own "x"] t) ∧
    ¬ ∀ (root reserved : List String) (events : List Event) (t : Nesting),
      Run (.start root reserved) events t → ∀ before e after name,
        events = before ++ e :: after → e.allocated? = some name →
          ∀ d ∈ openNames before, name ∉ d := by
  have hroot : ∃ t, Run (.start [] []) [.entered ["x"], .entered [], .root "x"] t :=
    ⟨_, .cons (.enter _ _ _) <| .cons (.enter _ _ _) <| .cons (.root _ _ "x") <| .nil _⟩
  refine ⟨hroot, ?_, fun hnew => ?_⟩
  · exact ⟨_, .cons (.enter _ _ _) <| .cons (.enter _ _ _) <| .cons (.own _ _ "x") <| .nil _⟩
  · obtain ⟨t, hrun⟩ := hroot
    refine hnew _ _ _ t hrun [.entered ["x"], .entered []] (.root "x") [] "x" rfl rfl ["x"] ?_ ?_
    · exact List.mem_cons_of_mem _ List.mem_cons_self
    · exact List.mem_cons_self

end Scopes

end TypedLowering
