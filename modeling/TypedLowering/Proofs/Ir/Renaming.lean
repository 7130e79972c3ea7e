import TypedLowering.Proofs.Ir.Binding

/-!
# What a renaming changes

A renaming changes exactly the free occurrences of its old names, all pairs at once
(`renamed_iff_free`). Only the parameters of a member of an object expression do not stop it, so an
occurrence that they bind is renamed (`memberParameter_renamed`).
-/

namespace TypedLowering.Ir

namespace Renaming

variable {r : Renaming}

@[simp] theorem under_nil (r : Renaming) : r.under [] = r := by
  simp [under]

/-- What becomes of an old name. -/
theorem apply_of_mem (hr : (r.map (·.1)).Nodup) {old new : String} (h : (old, new) ∈ r) :
    r.apply old = new := by
  induction r with
  | nil => nomatch h
  | cons p r ih =>
    obtain ⟨hp, hr⟩ := List.nodup_cons.1 hr
    rw [apply, List.find?_cons]
    rcases List.mem_cons.1 h with rfl | h
    · rw [beq_self_eq_true]
    · have hne : p.1 ≠ old := fun heq => hp (List.mem_map.2 ⟨_, h, heq.symm⟩)
      rw [beq_false_of_ne hne]
      exact ih hr h

/-- Other names stay as they are. -/
theorem apply_of_notMem {name : String} (h : name ∉ r.map (·.1)) : r.apply name = name := by
  have hnone : r.find? (·.1 == name) = none := List.find?_eq_none.2 fun p hp heq =>
    h (eq_of_beq heq ▸ List.mem_map_of_mem hp)
  rw [apply, hnone]

/-- Under binders of a name the name stays as it is. -/
theorem apply_under (r : Renaming) (ids : List Ident) (name : String) :
    (r.under ids).apply name = if ids.any (·.name == name) then name else r.apply name := by
  cases hbound : ids.any (·.name == name) with
  | true =>
    refine apply_of_notMem fun hmem => ?_
    obtain ⟨p, hp, rfl⟩ := List.mem_map.1 hmem
    have hfree : (!ids.any (·.name == p.1)) = true := (List.mem_filter.1 hp).2
    rw [hbound] at hfree
    cases hfree
  | false =>
    have hfind : (r.under ids).find? (·.1 == name) = r.find? (·.1 == name) := by
      rw [under, List.find?_filter]
      congr 1
      funext p
      by_cases hp : p.1 = name
      · simp [hp, hbound]
      · simp [hp]
    rw [apply, hfind]
    rfl

/-- Whether one of the groups stops a renaming of the name. Parameters of members do not. -/
def Stops (gs : List Binders) (name : String) : Prop :=
  ∃ g ∈ gs, g.ofMember = false ∧ g.binds name = true

instance (gs : List Binders) (name : String) : Decidable (Stops gs name) :=
  inferInstanceAs (Decidable (∃ g ∈ gs, g.ofMember = false ∧ g.binds name = true))

theorem stops_cons {g : Binders} {gs : List Binders} {name : String} :
    Stops (g :: gs) name ↔ (g.ofMember = false ∧ g.binds name = true) ∨ Stops gs name := by
  simp [Stops]

/-- What applies in a child in which a node binds names. -/
def inside (r : Renaming) (g : Binders) : Renaming :=
  if g.ofMember then r else r.under g.ids

@[simp] theorem inside_empty (r : Renaming) : r.inside .empty = r :=
  under_nil r

@[simp] theorem inside_of (r : Renaming) (ids : List Ident) : r.inside (.of ids) = r.under ids :=
  rfl

theorem apply_inside (r : Renaming) (g : Binders) (name : String) :
    (r.inside g).apply name =
      if g.ofMember = false ∧ g.binds name = true then name else r.apply name := by
  obtain ⟨ids, ofMember⟩ := g
  cases ofMember with
  | true => simp [inside]
  | false =>
    rw [inside, if_neg Bool.false_ne_true, apply_under]
    simp only [Binders.binds, true_and]

theorem apply_insideAll (r : Renaming) (gs : List Binders) (name : String) :
    (gs.foldl inside r).apply name = if Stops gs name then name else r.apply name := by
  induction gs generalizing r with
  | nil => simp [Stops]
  | cons g gs ih =>
    rw [List.foldl_cons, ih, apply_inside]
    by_cases hg : g.ofMember = false ∧ g.binds name = true <;> by_cases hgs : Stops gs name <;>
      simp [stops_cons, hg, hgs]

/-- Where no parameter of a member has the name, every binder of the name stops a renaming. -/
theorem stops_iff_binder? {gs : List Binders} {name : String}
    (h : ∀ g ∈ gs, g.ofMember = true → g.binds name = false) :
    Stops gs name ↔ binder? name gs ≠ none := by
  rw [Ne, binder?_eq_none, Classical.not_forall]
  constructor
  · rintro ⟨g, hg, -, hbinds⟩
    exact ⟨g, fun hnone => Bool.false_ne_true ((hnone hg).symm.trans hbinds)⟩
  · rintro ⟨g, hbinds⟩
    obtain ⟨hg, hbinds⟩ := Classical.not_imp.1 hbinds
    refine ⟨g, hg, ?_, eq_true_of_ne_false hbinds⟩
    exact eq_false_of_ne_true fun hmember => hbinds (h g hg hmember)

end Renaming

namespace Expr

theorem uncast_rename (r : Renaming) (e : Expr) : (e.rename r).uncast = e.uncast.rename r := by
  induction e using induction_on_children with
  | h e ih =>
    cases e with
    | cast inner ty => exact ih inner List.mem_cons_self
    | _ => rw [uncast, rename, uncast] <;> first | rfl | nofun

theorem scopedChildren_rename (r : Renaming) (e : Expr) :
    (e.rename r).scopedChildren = e.scopedChildren.map fun p =>
      (p.1, p.2.rename (r.inside p.1)) := by
  cases e with
  | object members ty base =>
    cases base <;> simp [rename, scopedChildren, Function.comp_def, Renaming.inside, Binders.empty]
  | tryCatch body handler finalizer =>
    cases handler <;> cases finalizer <;> simp [rename, scopedChildren]
  | option value | throw value => cases value <;> simp [rename, scopedChildren, children]
  | call callee receiver =>
    cases receiver <;> simp [rename, scopedChildren, children, Function.comp_def]
  | _ => simp [rename, scopedChildren, children, Function.comp_def]

/-- What stands somewhere is renamed by the pairs that apply there. -/
theorem at?_rename (r : Renaming) (e : Expr) (path : List Nat) :
    (e.rename r).at? path =
      (e.at? path).map fun p => (p.1, p.2.rename (p.1.foldl Renaming.inside r)) := by
  induction path generalizing e r with
  | nil => rfl
  | cons i path ih =>
    rw [at?, scopedChildren_rename, List.getElem?_map, at?]
    cases e.scopedChildren[i]? with
    | none => rfl
    | some p =>
      simp only [Option.map_some, ih, Option.map_map]
      rfl

/-- A renaming changes no node but identifiers. -/
theorem node_rename (r : Renaming) {e : Expr} (h : ∀ id, e ≠ .ident id) :
    (e.rename r).node = e.node := by
  cases e with
  | ident id => exact absurd rfl (h id)
  | _ => simp [rename, node, mapChildren, Function.comp_def]

/-- A renaming changes an identifier exactly if it has a pair for its name and no binder of that
name stands around it, if these are no parameters of members of object expressions. The binders and
all other nodes stay as they are. -/
theorem renamed_iff_free {r : Renaming} (hr : (r.map (·.1)).Nodup) (e : Expr) (path : List Nat) :
    (e.at? path = none → (e.rename r).at? path = none) ∧
    ∀ gs d, e.at? path = some (gs, d) →
      ∃ d', (e.rename r).at? path = some (gs, d') ∧
        ((∀ id, d ≠ .ident id) → d'.node = d.node) ∧
        ∀ id, d = .ident id → ∃ name, d' = .ident { id with name } ∧
          (∀ new, (id.name, new) ∈ r → ¬Renaming.Stops gs id.name → name = new) ∧
          (id.name ∉ r.map (·.1) ∨ Renaming.Stops gs id.name → name = id.name) ∧
          ((∀ g ∈ gs, g.ofMember = true → g.binds id.name = false) →
            (Renaming.Stops gs id.name ↔ binder? id.name gs ≠ none)) := by
  refine ⟨fun hnone => by rw [at?_rename, hnone]; rfl, fun gs d hpath => ?_⟩
  refine ⟨d.rename (gs.foldl Renaming.inside r), by rw [at?_rename, hpath]; rfl,
    fun hident => node_rename _ hident, ?_⟩
  rintro id rfl
  refine ⟨(gs.foldl Renaming.inside r).apply id.name, by rw [rename], ?_, ?_,
    Renaming.stops_iff_binder?⟩
  · intro new hnew hstops
    rw [Renaming.apply_insideAll, if_neg hstops, Renaming.apply_of_mem hr hnew]
  · intro hsame
    rw [Renaming.apply_insideAll]
    split
    · rfl
    · exact Renaming.apply_of_notMem (hsame.resolve_right ‹_›)

/-- A number of that name. -/
def int (name : String) : Ident :=
  ⟨name, .number .int32, false, false, false, none⟩

/-- `a + b`. -/
def sum : Expr :=
  .binary .plus (.ident (int "a")) (.ident (int "b")) (.number .int32) none

/-- `a + b` and, inside a function with the parameter `b`, once more. -/
def sums : Expr :=
  .sequence [sum, .delegate [int "b"] sum none]

/-- Both pairs apply to the first sum, and only one in the function. -/
theorem sums_renamed :
    ([("a", "b"), ("b", "a")].map (·.1)).Nodup ∧
      sums.at? [0, 1] = some ([.empty, .empty], .ident (int "b")) ∧
      (sums.rename [("a", "b"), ("b", "a")]).at? [0, 1] =
        some ([.empty, .empty], .ident (int "a")) ∧
      sums.at? [1, 0, 1] = some ([.empty, .of [int "b"], .empty], .ident (int "b")) ∧
      (sums.rename [("a", "b"), ("b", "a")]).at? [1, 0, 1] =
        some ([.empty, .of [int "b"], .empty], .ident (int "b")) := by
  have hr : ([("a", "b"), ("b", "a")].map (·.1)).Nodup := by decide
  refine ⟨hr, rfl, ?_, rfl, ?_⟩
  · obtain ⟨_, hat, -, hident⟩ := (renamed_iff_free hr sums [0, 1]).2 _ _ rfl
    obtain ⟨name, rfl, hnew, -⟩ := hident _ rfl
    obtain rfl : name = "a" := hnew "a" (by decide) (by decide)
    exact hat
  · obtain ⟨_, hat, -, hident⟩ := (renamed_iff_free hr sums [1, 0, 1]).2 _ _ rfl
    obtain ⟨name, rfl, -, hsame, -⟩ := hident _ rfl
    obtain rfl : name = "b" := hsame (.inr (by decide))
    exact hat

/-- An object whose method `m` returns its parameter `a`. -/
def identityObject : Expr :=
  .object [⟨"m", [int "a"], .ident (int "a"), .method⟩] .any none

/-- What a parameter of a method binds is renamed, and not bound any more. -/
theorem memberParameter_renamed :
    identityObject.rename [("a", "x")] =
      .object [⟨"m", [int "a"], .ident (int "x"), .method⟩] .any none ∧
    ¬ ∀ (r : Renaming) (e : Expr) (path : List Nat) (gs : List Binders) (id : Ident),
      (r.map (·.1)).Nodup → e.at? path = some (gs, .ident id) → binder? id.name gs ≠ none →
        (e.rename r).at? path = some (gs, .ident id) := by
  refine ⟨rfl, fun hbound => ?_⟩
  let gs : List Binders := [⟨[int "a"], true⟩]
  have hkept : some (gs, Expr.ident (int "x")) = some (gs, Expr.ident (int "a")) :=
    hbound [("a", "x")] identityObject [0] gs (int "a") (by decide) rfl (by decide)
  have hident := Expr.ident.inj (Prod.mk.inj (Option.some.inj hkept)).2
  exact absurd (congrArg Ident.name hident) (by decide)

end Expr

end TypedLowering.Ir
