import Mathlib.Algebra.GroupWithZero.Nat
import Mathlib.Algebra.Order.BigOperators.Group.List
import Mathlib.Algebra.Order.Group.Nat
import TypedLowering.Lowering.Inlining
import TypedLowering.Proofs.Ir.WellFormed
import TypedLowering.Proofs.Lowering.Within

/-!
# What cannot fail

`Lower.Succeeds` says of a computation that it gives a result, and leaves the handlers around as
they were. `Ready` says of a node in a context that it is well-formed there, with the targets in
reach, and bounds how far lowering can go from it: the classification of such a node succeeds
(`Ready.isStatement`). -/

namespace TypedLowering

open Ir (Expr Target Surroundings)

/-- A search that asks nothing of the monad. -/
theorem anyM_pure {m : Type → Type} [Monad m] [LawfulMonad m] {α : Type} {p : α → m Bool}
    {xs : List α} (h : ∀ x ∈ xs, ∃ b, p x = pure b) : ∃ b, xs.anyM p = pure b := by
  induction xs with
  | nil => exact ⟨false, List.anyM_nil⟩
  | cons x xs ih =>
    obtain ⟨b, hb⟩ := h x List.mem_cons_self
    obtain ⟨c, hc⟩ := ih fun y hy => h y (List.mem_cons_of_mem _ hy)
    rw [List.anyM_cons, hb, pure_bind]
    cases b with
    | true => exact ⟨true, rfl⟩
    | false => exact ⟨c, hc⟩

namespace Lower

variable {α β : Type} {caught : Bool}

/-- The same computation has the same result. -/
theorem pure_injective {a b : α} (h : (pure a : Lower α) = pure b) : a = b :=
  Except.ok.inj (congrArg Prod.fst (congrFun h default))

/-- Whether a computation gives a result wherever there is a handler around, if it needs one. -/
def Succeeds (caught : Bool) (m : Lower α) : Prop :=
  ∀ s, (caught = true → s.caught ≠ []) → ∃ a t, m s = (.ok a, t) ∧ t.caught = s.caught

namespace Succeeds

/-- A result that is given is one. -/
theorem pure (a : α) : Succeeds caught (Pure.pure a) :=
  fun s _ => ⟨a, s, rfl, rfl⟩

/-- Two computations that succeed do so in sequence. -/
theorem bind {m : Lower α} {f : α → Lower β} (hm : Succeeds caught m)
    (hf : ∀ a, Succeeds caught (f a)) : Succeeds caught (m >>= f) := by
  intro s hs
  obtain ⟨a, u, hma, hu⟩ := hm s hs
  obtain ⟨b, t, hfa, ht⟩ := hf a u fun hcaught => hu ▸ hs hcaught
  exact ⟨b, t, (bind_ok hma).trans hfa, ht.trans hu⟩

/-- A choice succeeds if the branch that is taken does. -/
theorem ite {c : Prop} [Decidable c] {m n : Lower α} (hm : c → Succeeds caught m)
    (hn : ¬ c → Succeeds caught n) : Succeeds caught (if c then m else n) := by
  split
  · exact hm ‹c›
  · exact hn ‹¬ c›

/-- A value that is there is a result. -/
theorem ofOption {e : LowerError} {o : Option α} (h : o.isSome) :
    Succeeds caught (.ofOption e o) := by
  obtain ⟨a, rfl⟩ := Option.isSome_iff_exists.1 h
  exact .pure a

/-- A local can always be allocated. -/
theorem allocateLocal (candidate : String) : Succeeds caught (.allocateLocal candidate) :=
  fun _ _ => ⟨_, _, rfl, rfl⟩

/-- The names of a loop can always be allocated. -/
theorem allocateTailCall (label : String) (params : List Ir.Ident) :
    Succeeds caught (.allocateTailCall label params) :=
  fun _ _ => ⟨_, _, rfl, rfl⟩

/-- A member can always be imported. -/
theorem importMember (path selector : String) : Succeeds caught (.importMember path selector) :=
  fun _ _ => ⟨_, _, rfl, rfl⟩

/-- An import can always be resolved. -/
theorem resolveImport (file : SourceFile) (ref : Ir.ImportRef) :
    Succeeds caught (.resolveImport file ref) :=
  fun _ _ => ⟨_, _, rfl, rfl⟩

/-- The loop around can always be marked. -/
theorem markLooped : Succeeds caught .markLooped :=
  fun _ _ => ⟨_, _, rfl, rfl⟩

/-- A function succeeds if its body does. -/
theorem inFunction {m : Lower α} (h : Succeeds caught m) : Succeeds caught (.inFunction m) := by
  intro s hs
  obtain ⟨a, t, hm, ht⟩ := h { s with looped := false } hs
  exact ⟨(a, t.looped), { t with looped := s.looped }, by rw [Lower.inFunction, hm], ht⟩

/-- Inside a handler there is one around. -/
theorem inHandler {m : Lower α} (param : String) (h : Succeeds true m) :
    Succeeds caught (.inHandler param m) := by
  intro s _
  obtain ⟨a, t, hm, ht⟩ := h { s with caught := param :: s.caught } fun _ => List.cons_ne_nil _ _
  exact ⟨a, { t with caught := t.caught.tail }, by rw [Lower.inHandler, hm],
    congrArg List.tail ht⟩

/-- The parameter of the innermost handler, where there is one. -/
theorem rethrow {e : LowerError} {f : String → Lower β} (h : caught = true)
    (hf : ∀ x, Succeeds caught (f x)) :
    Succeeds caught (do let x ← Lower.ofOption e (← caught?); f x) := by
  intro s hs
  obtain ⟨x, hx⟩ := Option.isSome_iff_exists.1 (List.isSome_head?.2 (hs h))
  obtain ⟨b, t, hfx, ht⟩ := hf x s hs
  have hcaught : caught? s = (.ok (some x), s) := Prod.ext (congrArg Except.ok hx) rfl
  exact ⟨b, t, (bind_ok hcaught).trans ((bind_ok rfl).trans hfx), ht⟩

/-- A declaration succeeds if what is lowered in it does. -/
theorem inDeclaration {m : Lower α} (used : List String) (h : Succeeds caught m) :
    Succeeds caught (.inDeclaration used m) := by
  intro s hs
  obtain ⟨a, t, hm, ht⟩ := h { s with names := (s.names.enter used).2 } hs
  exact ⟨a, { t with names := t.names.leave s.names.current },
    by rw [Lower.inDeclaration]; dsimp only; rw [hm]; rfl, ht⟩

end Succeeds

end Lower

/-- Without inline functions no call is expanded. -/
theorem expandInline_eq {file : SourceFile} (h : file.settings.project.inlines = [])
    (callee : Expr) (args : List Expr) : expandInline file callee args = pure none := by
  funext s
  have hnone : ∀ name, file.settings.inline? name = none := fun name => by
    rw [Settings.inline?, h]
    rfl
  unfold expandInline
  split
  · rw [hnone]
    rfl
  · rfl

/-! ## Nodes that can be lowered -/

/-- The targets that a success node may choose from: they come first among those of the context, and
their bodies are well-formed without targets of their own. -/
structure Context.Offers (ctx : Context) (w : Surroundings) (reach : List Target) : Prop where
  length : reach.length = w.targets
  isPrefix : reach <+: ctx.targets
  bodies : ∀ t ∈ reach, t.body.WellFormed ctx.file.settings ⟨0, w.caught⟩

/-- The nodes that lowering can come to from a node with these targets in reach. -/
def weight (reach : List Target) (e : Expr) : Nat :=
  e.size + (reach.map (·.body.size)).sum

/-- Whether a node is well-formed in a context without inline functions, and lowering goes no deeper
than `k` nodes from it. -/
structure ReadyAt (k : Nat) (w : Surroundings) (reach : List Target) (ctx : Context) (e : Expr) :
    Prop where
  inlines : ctx.file.settings.project.inlines = []
  offers : ctx.Offers w reach
  wellFormed : e.WellFormed ctx.file.settings w
  weight : weight reach e ≤ k

/-- The same for some targets in reach. -/
def Ready (k : Nat) (caught : Bool) (ctx : Context) (e : Expr) : Prop :=
  ∃ targets reach, ReadyAt k ⟨targets, caught⟩ reach ctx e

/-- Every node has some weight. -/
theorem weight_pos (reach : List Target) (e : Expr) : 0 < weight reach e := by
  rw [weight, Expr.size, Expr.subterms_eq, List.length_cons]
  omega

/-- A child weighs less than its node. -/
theorem weight_lt_of_mem_children {reach : List Target} {c e : Expr} (h : c ∈ e.children) :
    weight reach c < weight reach e :=
  Nat.add_lt_add_right (Expr.size_lt_of_mem_children h) _

namespace Ready

variable {k : Nat} {caught : Bool} {ctx : Context} {e : Expr}

/-- A node that is ready for a depth is ready for more. -/
theorem mono (h : Ready k caught ctx e) {n : Nat} (hk : k ≤ n) : Ready n caught ctx e := by
  obtain ⟨targets, reach, hinlines, hoffers, hwf, hweight⟩ := h
  exact ⟨targets, reach, hinlines, hoffers, hwf, Nat.le_trans hweight hk⟩

/-- A node that is ready for a depth has some depth. -/
theorem pos (h : Ready k caught ctx e) : 0 < k := by
  obtain ⟨targets, reach, hready⟩ := h
  exact Nat.lt_of_lt_of_le (weight_pos reach e) hready.weight

/-- The targets in reach are the same in a context for the same file and the same targets. -/
theorem congr (h : Ready k caught ctx e) {ctx' : Context} (hfile : ctx'.file = ctx.file)
    (htargets : ctx'.targets = ctx.targets) : Ready k caught ctx' e := by
  obtain ⟨targets, reach, hinlines, ⟨hlength, hprefix, hbodies⟩, hwf, hweight⟩ := h
  refine ⟨targets, reach, ?_, ⟨hlength, ?_, ?_⟩, ?_, hweight⟩
  · rw [hfile]; exact hinlines
  · rw [htargets]; exact hprefix
  · rw [hfile]; exact hbodies
  · rw [hfile]; exact hwf

/-- A node is ready without the loop around. -/
theorem withoutTailCall (h : Ready k caught ctx e) : Ready k caught ctx.withoutTailCall e :=
  h.congr rfl rfl

/-- A node is ready with a loop around. -/
theorem withTailCall (h : Ready k caught ctx e) (loop : TailCall) :
    Ready k caught (ctx.withTailCall loop) e :=
  h.congr rfl rfl

/-- In a context where nodes are ready, nothing is expanded. -/
theorem inlines (h : Ready k caught ctx e) : ctx.file.settings.project.inlines = [] := by
  obtain ⟨targets, reach, hready⟩ := h
  exact hready.inlines

/-- A node that is ready fits its surroundings. -/
theorem fits (h : Ready k caught ctx e) :
    ∃ w : Surroundings, w.caught = caught ∧ e.Fits ctx.file.settings w := by
  obtain ⟨targets, reach, hready⟩ := h
  exact ⟨⟨targets, caught⟩, rfl, hready.wellFormed.fits⟩

/-- A part of a node for which nothing changes. -/
theorem part (h : Ready (k + 1) caught ctx e) {c : Expr}
    (hc : ∀ w : Surroundings, (w, c) ∈ e.parts w) : Ready k caught ctx c := by
  obtain ⟨targets, reach, hinlines, hoffers, hwf, hweight⟩ := h
  have hlt : weight reach c < weight reach e :=
    weight_lt_of_mem_children (Expr.mem_children_of_mem_parts (hc .top))
  exact ⟨targets, reach, hinlines, hoffers, hwf.part (hc _),
    Nat.le_of_lt_succ (Nat.lt_of_lt_of_le hlt hweight)⟩

/-- The children of a node that is ready are ready for less depth. -/
theorem child (h : Ready (k + 1) caught ctx e)
    (hparts : ∀ w : Surroundings, e.parts w = e.children.map (w, ·)) :
    ∀ c ∈ e.children, Ready k caught ctx c :=
  fun _ hc => h.part fun w => hparts w ▸ List.mem_map_of_mem hc

/-- What stands under the casts of a node that is ready is ready. -/
theorem uncast (h : Ready k caught ctx e) : Ready k caught ctx e.uncast := by
  induction e using Expr.induction_on_children generalizing k with
  | h e ih =>
    cases e with
    | cast inner ty =>
      cases k with
      | zero => exact absurd h.pos (Nat.lt_irrefl 0)
      | succ k =>
        have hinner : Ready k caught ctx inner :=
          h.child (fun _ => rfl) inner (List.mem_singleton_self _)
        exact (ih inner (List.mem_singleton_self _) hinner).mono (Nat.le_succ k)
    | _ => exact h

/-- The body of a handler. -/
theorem handler {body : Expr} {hd : Ir.Handler} {finalizer : Option Expr}
    {loc : Option Ir.Location}
    (h : Ready (k + 1) caught ctx (.tryCatch body (some hd) finalizer loc)) :
    Ready k true ctx hd.body := by
  obtain ⟨targets, reach, hinlines, ⟨hlength, hprefix, hbodies⟩, hwf, hweight⟩ := h
  have hpart : (({ targets, caught := true } : Surroundings), hd.body) ∈
      (Expr.tryCatch body (some hd) finalizer loc).parts ⟨targets, caught⟩ :=
    List.mem_append_left _ (List.mem_cons_of_mem _ (List.mem_singleton_self _))
  have hlt : weight reach hd.body < weight reach (.tryCatch body (some hd) finalizer loc) :=
    weight_lt_of_mem_children (Expr.mem_children_of_mem_parts hpart)
  exact ⟨targets, reach, hinlines, ⟨hlength, hprefix, fun t ht => (hbodies t ht).handled⟩,
    hwf.part hpart, Nat.le_of_lt_succ (Nat.lt_of_lt_of_le hlt hweight)⟩

/-- The dispatcher of a tree, with the targets of the tree. -/
theorem dispatcher {d : Expr} {ts : List Target}
    (h : Ready (k + 1) caught ctx (.decisionTree d ts)) :
    Ready k caught (ctx.withTargets ts) d := by
  obtain ⟨targets, reach, hinlines, hoffers, hwf, hweight⟩ := h
  refine ⟨ts.length, ts, hinlines, ⟨rfl, List.prefix_rfl, fun t ht => ?_⟩,
    hwf.part List.mem_cons_self, ?_⟩
  · exact hwf.part (List.mem_cons_of_mem _ (List.mem_map_of_mem ht))
  · have hsize : (Expr.decisionTree d ts).size = d.size + (ts.map (·.body.size)).sum + 1 := by
      rw [Expr.size, Expr.subterms_eq, Expr.children, List.length_cons, List.flatMap_cons,
        List.length_append, List.length_flatMap, List.map_map]
      rfl
    rw [TypedLowering.weight] at hweight ⊢
    omega

/-- The body of a target, which comes after the tree. -/
theorem target {d : Expr} {ts : List Target} (h : Ready (k + 1) caught ctx (.decisionTree d ts))
    {t : Target} (ht : t ∈ ts) : Ready k caught ctx t.body := by
  obtain ⟨targets, reach, hinlines, hoffers, hwf, hweight⟩ := h
  have hpart : ((⟨0, caught⟩ : Surroundings), t.body) ∈
      (Expr.decisionTree d ts).parts ⟨targets, caught⟩ :=
    List.mem_cons_of_mem _ (List.mem_map_of_mem ht)
  have hlt := Expr.size_lt_of_mem_children (Expr.mem_children_of_mem_parts hpart)
  refine ⟨0, [], hinlines, ⟨rfl, List.nil_prefix, nofun⟩, hwf.part hpart, ?_⟩
  rw [TypedLowering.weight] at hweight ⊢
  simp only [List.map_nil, List.sum_nil] at hlt ⊢
  omega

/-- The body of a target that a success node selects. -/
theorem selected {index : Nat} {values : List Expr} {ty : Ir.Ty}
    (h : Ready (k + 1) caught ctx (.success index values ty)) :
    ∃ t, ctx.targets[index]? = some t ∧ Ready k caught ctx t.body := by
  obtain ⟨targets, reach, hinlines, ⟨hlength, ⟨more, hprefix⟩, hbodies⟩, hwf, hweight⟩ := h
  have hindex : index < reach.length := hlength ▸ hwf.fits
  have hmem : reach[index] ∈ reach := List.getElem_mem hindex
  refine ⟨reach[index], ?_, 0, [], hinlines, ⟨rfl, List.nil_prefix, nofun⟩, hbodies _ hmem, ?_⟩
  · rw [← hprefix, List.getElem?_append_left hindex, List.getElem?_eq_getElem hindex]
  · have hsum : reach[index].body.size ≤ (reach.map (·.body.size)).sum :=
      List.single_le_sum (fun _ _ => Nat.zero_le _) _ (List.mem_map_of_mem hmem)
    have hpos := weight_pos [] (Expr.success index values ty)
    rw [TypedLowering.weight] at hweight hpos ⊢
    simp only [List.map_nil, List.sum_nil] at hpos ⊢
    omega

/-! ## Classification -/

/-- Classification comes to an end after as many nodes as lowering does. -/
theorem isStatementWithin (h : Ready k caught ctx e) (prefer : Bool) :
    ∃ b, TypedLowering.isStatementWithin k ctx.targets prefer e = Pure.pure b := by
  induction k generalizing ctx e prefer with
  | zero => exact absurd h.pos (Nat.lt_irrefl 0)
  | succ k ih =>
    unfold TypedLowering.isStatementWithin
    cases e with
    | cast inner ty => exact ih (h.child (fun _ => rfl) inner (List.mem_singleton_self _)) prefer
    | ifThenElse guard thenExpr elseExpr loc =>
      cases prefer with
      | true => exact ⟨true, rfl⟩
      | false =>
        have hchild := h.child fun _ => rfl
        obtain ⟨b, hb⟩ := ih (hchild thenExpr (.tail _ (.head _))) false
        obtain ⟨c, hc⟩ := ih (hchild elseExpr (.tail _ (.tail _ (.head _)))) false
        cases b with
        | true => exact ⟨true, by simp [hb]⟩
        | false => exact ⟨c, by simp [hb, hc]⟩
    | decisionTree dispatcher inner =>
      cases prefer with
      | true => exact ⟨true, rfl⟩
      | false =>
        obtain ⟨b, hb⟩ := ih h.dispatcher false
        obtain ⟨c, hc⟩ := anyM_pure fun t (ht : t ∈ inner) => ih (h.target ht) false
        rw [Context.targets_withTargets] at hb
        cases b with
        | true => exact ⟨true, by simp [hb]⟩
        | false => exact ⟨c, by simp [hb, hc]⟩
    | success index values ty =>
      obtain ⟨t, ht, hbody⟩ := h.selected
      obtain ⟨b, hb⟩ := ih hbody false
      dsimp only
      rw [ht]
      cases values.isEmpty with
      | true => exact ⟨b, hb⟩
      | false => exact ⟨true, rfl⟩
    | _ => exact ⟨_, rfl⟩

/-- The depth of a context is enough. -/
theorem weight_le_depth {reach : List Target} (h : reach <+: ctx.targets) (e : Expr) :
    2 * TypedLowering.weight reach e ≤ ctx.depth e := by
  obtain ⟨more, hprefix⟩ := h
  have hnodes : TypedLowering.weight reach e ≤ ctx.nodes e := by
    rw [TypedLowering.weight, Context.nodes, List.flatMap_cons, List.length_append,
      List.flatMap_append, List.length_append, ← hprefix, List.map_append, List.flatMap_append,
      List.length_append, List.length_flatMap, List.map_map]
    exact Nat.add_le_add_left (Nat.le_trans (Nat.le_add_right _ _) (Nat.le_add_right _ _)) _
  have hsquare : ctx.nodes e + 1 ≤ (ctx.nodes e + 1) * (ctx.nodes e + 1) :=
    Nat.le_mul_of_pos_left _ (Nat.succ_pos _)
  rw [Context.depth]
  omega

/-- The weight of a node is within the depth of its context. -/
theorem exists_depth (h : Ready k caught ctx e) :
    ∃ n, 2 * n ≤ ctx.depth e ∧ Ready n caught ctx e := by
  obtain ⟨targets, reach, hready⟩ := h
  exact ⟨TypedLowering.weight reach e, weight_le_depth hready.offers.isPrefix e, targets, reach,
    hready.inlines, hready.offers, hready.wellFormed, Nat.le_refl _⟩

/-- The classification of a node that is ready does not fail. -/
theorem isStatement (h : Ready k caught ctx e) (prefer : Bool) :
    ∃ b, Lower.isStatement ctx prefer e = Pure.pure b := by
  obtain ⟨n, hdepth, hn⟩ := h.exists_depth
  obtain ⟨b, hb⟩ := (hn.mono (n := ctx.depth e) (by omega)).isStatementWithin prefer
  exact ⟨b, congrArg Lower.ofExcept hb⟩

/-- A well-formed expression with nothing around, in any context. -/
theorem of_wellFormed (hinlines : ctx.file.settings.project.inlines = [])
    (h : e.WellFormed ctx.file.settings .top) :
    Ready (TypedLowering.weight [] e) false ctx e :=
  ⟨0, [], hinlines, ⟨rfl, List.nil_prefix, nofun⟩, h, Nat.le_refl _⟩

end Ready

end TypedLowering
