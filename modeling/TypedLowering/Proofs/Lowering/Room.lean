import TypedLowering.Proofs.Ir.Binders
import TypedLowering.Proofs.Lowering.Declarations
import TypedLowering.Proofs.Lowering.Outcome
import TypedLowering.Proofs.Lowering.Slots
import TypedLowering.Proofs.Lowering.Uses

/-!
# Room for one name

A declaration takes the names that it uses before it is lowered, and lowering only makes names that
are not taken. So for any one name: what is lowered binds it once if it is taken at the start, and
if not, lowering makes it once at most. `Lower.Adds` counts how often a computation makes the name,
and `Room` says that an expression binds it no more often than it is taken. All counts are against
the same bound, that a name is taken or not.
-/

namespace TypedLowering

open Ir (Expr Ident Target)

instance (s : Scopes) (x : String) : Decidable (s.IsTaken x) :=
  inferInstanceAs (Decidable (_ ∨ _))

/-- How often a name is taken for the declaration being lowered. -/
def LowerState.takes (s : LowerState) (x : String) : Nat :=
  if s.names.IsTaken x then 1 else 0

/-- A name is taken once at most. -/
theorem LowerState.takes_le (s : LowerState) (x : String) : s.takes x ≤ 1 := by
  rw [takes]
  split <;> decide

/-- A name that is taken stays so. -/
theorem LowerState.takes_mono {s t : LowerState} {x : String}
    (h : s.names.IsTaken x → t.names.IsTaken x) : s.takes x ≤ t.takes x := by
  rw [takes, takes]
  split
  · rw [if_pos (h ‹_›)]
  · exact Nat.zero_le _

/-- A name that is made was not taken. -/
theorem LowerState.takes_allocateLocal (s : LowerState) (x candidate : String) :
    ({ s with names := (s.names.allocateLocal candidate).2 } : LowerState).takes x =
      s.takes x + [(s.names.allocateLocal candidate).1].count x := by
  rw [takes, takes, List.count_singleton]
  by_cases hx : (s.names.allocateLocal candidate).1 = x
  · have hnew : ¬ s.names.IsTaken x := hx ▸ s.names.allocateLocal_not_isTaken candidate
    rw [if_pos (Scopes.allocateLocal_isTaken.2 (.inr hx.symm)), if_neg hnew,
      if_pos (beq_iff_eq.2 hx)]
  · have hiff : (s.names.allocateLocal candidate).2.IsTaken x ↔ s.names.IsTaken x :=
      Scopes.allocateLocal_isTaken.trans (or_iff_left fun heq => hx heq.symm)
    rw [if_neg (mt beq_iff_eq.1 hx), Nat.add_zero]
    exact if_congr hiff rfl rfl

/-- Whether in each of the lists, which are those of the names that blocks declare, a name comes
once at most. -/
def Once (x : String) (blocks : List (List String)) : Prop :=
  ∀ names ∈ blocks, names.count x ≤ 1

namespace Once

variable {x : String} {names : List String} {as bs : List (List String)}

/-- Without blocks, no block declares the name. -/
@[simp] theorem nil : Once x [] :=
  nofun

/-- A name is declared once in each block if it is in the first and in the others. -/
@[simp] theorem cons_iff : Once x (names :: bs) ↔ names.count x ≤ 1 ∧ Once x bs :=
  List.forall_mem_cons

/-- A name is declared once in each block of two lists if it is in each list. -/
@[simp] theorem append_iff : Once x (as ++ bs) ↔ Once x as ∧ Once x bs :=
  List.forall_mem_append

end Once

namespace Lower

variable {α β : Type}

/-- Where `m` gives a result and the name is taken `k` times already, `m` makes it some number of
times, and the result is as stated for this number. -/
def Adds (x : String) (k : Nat) (m : Lower α) (Q : Nat → α → Prop) : Prop :=
  ∀ s a t, m s = (.ok a, t) → k ≤ s.takes x → ∃ d, t.takes x = s.takes x + d ∧ Q d a

namespace Adds

variable {x : String} {k : Nat} {m : Lower α} {Q R : Nat → α → Prop}

/-- A weaker statement holds where a stronger one does, and only one binding has room. -/
theorem imp (h : Adds x k m Q) (hR : ∀ d a, k + d ≤ 1 → Q d a → R d a) : Adds x k m R := by
  intro s a t hm hk
  obtain ⟨d, ht, hQ⟩ := h s a t hm hk
  have hle := t.takes_le x
  exact ⟨d, ht, hR d a (by omega) hQ⟩

/-- What holds for some takes holds for more. -/
theorem mono {j : Nat} (h : Adds x j m Q) (hj : j ≤ k) : Adds x k m Q :=
  fun s a t hm hk => h s a t hm (hj.trans hk)

/-- What holds of the results, told how often the name is made. -/
theorem of_extends (hm : ∀ s a t, m s = (.ok a, t) → Extends s t)
    (h : ∀ s a t d, m s = (.ok a, t) → t.takes x = s.takes x + d → Q d a) : Adds x k m Q := by
  intro s a t hma _
  obtain ⟨d, hd⟩ := Nat.exists_eq_add_of_le
    (LowerState.takes_mono (x := x) ((hm s a t hma).grows.taken x))
  exact ⟨d, hd, h s a t d hma hd⟩

/-- Every result is a result. -/
theorem of_below (hm : Below m m) : Adds x k m fun _ _ => True :=
  of_extends (fun _ _ _ => hm.state) fun _ _ _ _ _ _ => trivial

/-- A result that is given makes no name. -/
theorem pure {a : α} (h : k ≤ 1 → Q 0 a) : Adds x k (Pure.pure a) Q := by
  intro s b t hb hk
  obtain ⟨rfl, rfl⟩ := pure_eq_ok.1 hb
  exact ⟨0, rfl, h (hk.trans (s.takes_le x))⟩

/-- What two computations make adds up. -/
theorem bind {f : α → Lower β} {S : Nat → β → Prop} (hm : Adds x k m Q)
    (hf : ∀ d a, Q d a → Adds x (k + d) (f a) fun d' => S (d + d')) : Adds x k (m >>= f) S := by
  intro s b t h hk
  obtain ⟨a, u, hma, hfa⟩ := bind_eq_ok.1 h
  obtain ⟨d, hu, hQ⟩ := hm s a u hma hk
  obtain ⟨d', ht, hS⟩ := hf d a hQ u b t hfa (by omega)
  exact ⟨d + d', by omega, hS⟩

/-- A failure has no result. -/
theorem fail (e : LowerError) : Adds x k (.fail e) Q :=
  fun _ _ _ h => absurd h fail_ne_ok

/-- A value that may be missing makes no name. -/
theorem ofOption (e : LowerError) (o : Option α) :
    Adds x k (.ofOption e o) fun d a => d = 0 ∧ o = some a := by
  intro s a t h _
  obtain ⟨ho, rfl⟩ := ofOption_eq_ok.1 h
  exact ⟨0, rfl, rfl, ho⟩

/-- Asking whether a node needs statements makes no name. -/
theorem isStatement (ctx : Context) (prefer : Bool) (e : Expr) :
    Adds x k (.isStatement ctx prefer e) fun d b =>
      d = 0 ∧ TypedLowering.isStatement ctx prefer e = .ok b := by
  intro s b t h _
  obtain ⟨hb, rfl⟩ := isStatement_eq_ok.1 h
  exact ⟨0, rfl, rfl, hb⟩

/-- A choice may use its condition. -/
theorem ite {c : Prop} [Decidable c] {n : Lower α} (hm : c → Adds x k m Q)
    (hn : ¬ c → Adds x k n Q) : Adds x k (if c then m else n) Q := by
  split
  · exact hm ‹_›
  · exact hn ‹_›

/-- A local that is allocated counts if it has the name. -/
theorem allocateLocal (candidate : String) :
    Adds x k (.allocateLocal candidate) fun d name => [name].count x = d := by
  intro s name t h _
  obtain ⟨hname, ht⟩ := Prod.mk.inj h
  obtain rfl := Except.ok.inj hname
  exact ⟨_, ht ▸ s.takes_allocateLocal x candidate, rfl⟩

/-- The parameters that a loop copies are among those of the function. -/
theorem allocateTailCall (label : String) (params : List Ident) :
    Adds x k (.allocateTailCall label params) fun _ loop =>
      ((loop.bindings.map (·.1)).map (·.name)).count x ≤ (params.map (·.name)).count x := by
  refine of_extends (fun _ _ _ => (Below.allocateTailCall label params).state) ?_
  intro _ loop _ _ h _
  obtain ⟨-, hparams, names, hslots, -⟩ := TailCall.allocateTailCall_spec h
  have hbindings : loop.bindings.map (·.1) = loop.params :=
    List.map_fst_zip (Nat.le_of_eq (hparams ▸ TailCall.length_allocateSlots hslots))
  rw [hbindings, hparams]
  exact ((declaredParams_sublist params).map _).count_le x

/-- A function makes what its body makes. -/
theorem inFunction (h : Adds x k m Q) : Adds x k (.inFunction m) fun d r => Q d r.1 := by
  rintro s ⟨a, looped⟩ t hm hk
  obtain ⟨u, hma, -, rfl⟩ := inFunction_eq_ok.1 hm
  have hu := h _ a u hma hk
  exact hu

/-- A handler makes what its body makes. -/
theorem inHandler {param : String} (h : Adds x k m Q) : Adds x k (.inHandler param m) Q := by
  intro s a t hm hk
  obtain ⟨u, hma, rfl⟩ := inHandler_eq_ok.1 hm
  have hu := h _ a u hma hk
  exact hu

/-- In a declaration that binds the name once at most, and only if it is among those that the
declaration uses, the name is made once at most, and never if it is a root name. -/
theorem inDeclaration {used : List String} {s t : LowerState} {a : α} (h : Adds x k m Q)
    (hm : inDeclaration used m s = (.ok a, t)) (hk : k ≤ 1) (hused : 0 < k → x ∈ used) :
    ∃ d, k + d ≤ 1 ∧ (x ∈ s.names.root → d = 0) ∧ Q d a := by
  obtain ⟨u, hma, -⟩ := inDeclaration_eq_ok.1 hm
  have htaken : x ∈ s.names.root ∨ x ∈ used →
      LowerState.takes { s with names := (s.names.enter used).2 } x = 1 := fun hx =>
    if_pos (hx.imp_right fun hx => Scopes.mem_union.2 (.inr hx))
  have hle : k ≤ LowerState.takes { s with names := (s.names.enter used).2 } x := by
    rcases Nat.eq_zero_or_pos k with rfl | hpos
    · exact Nat.zero_le _
    · exact hk.trans (htaken (.inr (hused hpos))).ge
  obtain ⟨d, hu, hQ⟩ := h _ a u hma hle
  have hutakes := u.takes_le x
  refine ⟨d, by omega, fun hroot => ?_, hQ⟩
  have hone := htaken (.inl hroot)
  omega

end Adds

end Lower

/-! ## Expansions -/

variable {load : String → List String} {x : String}

/-- The expansion of a call binds its parameters, and what arguments and body bind. -/
theorem weight_bindParams_le (params : List Ident) (args : List Expr) (body : Expr) :
    (bindParams params args body).weight load x ≤ (params.map (·.name)).count x +
      (args.map (Expr.weight load x)).sum + body.weight load x := by
  induction params generalizing args with
  | nil => exact Nat.le_add_left _ _
  | cons p ps ih =>
    cases args with
    | nil => exact Nat.le_add_left _ _
    | cons arg args =>
      have hcons : bindParams (p :: ps) (arg :: args) body =
          .letIn p arg (bindParams ps args body) := rfl
      have hrest := ih args
      rw [hcons, Expr.weight_letIn, List.map_cons, List.map_cons, List.sum_cons,
        count_cons_add x p.name (ps.map _)]
      omega

/-- The expansion of a call selects no target if its arguments and its body do not. -/
theorem closed_bindParams {params : List Ident} {args : List Expr} {body : Expr}
    (hargs : ∀ arg ∈ args, arg.Closed) (hbody : body.Closed) :
    (bindParams params args body).Closed := by
  induction params generalizing args with
  | nil => exact hbody
  | cons p ps ih =>
    cases args with
    | nil => exact hbody
    | cons arg args =>
      obtain ⟨harg, hargs⟩ := List.forall_mem_cons.1 hargs
      have hrest := ih hargs
      refine ⟨Expr.selectsAtEnd_iff.2 ⟨List.forall_mem_singleton.2 harg.selected, ?_⟩, ?_⟩
      · exact List.forall_mem_cons.2 ⟨harg.atEnd, List.forall_mem_singleton.2 hrest.atEnd⟩
      · exact List.append_eq_nil_iff.2 ⟨harg.selected, hrest.selected⟩

/-- The new parameters of an inline function are made. -/
theorem takes_freshParams {s : LowerState} {params fresh : List Ident} {names : Scopes}
    (h : freshParams s.names params = (fresh, names)) :
    ({ s with names } : LowerState).takes x = s.takes x + (fresh.map (·.name)).count x := by
  have hfresh := freshParams_spec h
  have hroot : names.root = s.names.root := by rw [hfresh.unchanged]
  have htaken : names.IsTaken x ↔ x ∈ fresh.map (·.name) ∨ s.names.IsTaken x := by
    rw [Scopes.IsTaken, Scopes.IsTaken, hroot, hfresh.current]
    exact or_left_comm
  rw [LowerState.takes, LowerState.takes]
  by_cases hx : x ∈ fresh.map (·.name)
  · rw [if_pos (htaken.2 (.inl hx)), if_neg (hfresh.isNew x hx).2,
      List.count_eq_one_of_mem hfresh.distinct hx]
  · rw [List.count_eq_zero_of_not_mem hx, Nat.add_zero]
    exact if_congr (htaken.trans (or_iff_right hx)) rfl rfl

/-- Whether what a file and the targets in reach give access to is as `Room` needs it: an expansion
of an inline function binds a name no more often than `load` tells, and no success node belongs to a
tree further out. -/
structure Bounded (load : String → List String) (x : String) (file : SourceFile)
    (targets : List Target) : Prop where
  inlines : ∀ i ∈ file.settings.project.inlines,
    i.2.body.weight load x ≤ (load i.1).count x ∧ i.2.body.Closed
  targets : ∀ t ∈ targets, t.body.Closed

/-- The targets of a tree bind the name once at most, as those around do. -/
theorem Bounded.tree {file : SourceFile} {targets inner : List Target} {dispatcher : Expr}
    (h : Bounded load x file targets) (he : (Expr.decisionTree dispatcher inner).SelectsAtEnd) :
    Bounded load x file inner :=
  ⟨h.inlines, fun _ ht => he.closedPart (List.mem_map_of_mem ht)⟩

/-- Whether code for an expression binds a name `k` times at most, the targets that it selects
included, unless they are only stored. -/
structure Room (load : String → List String) (x : String) (targets : List Target) (stores : Bool)
    (k : Nat) (e : Expr) : Prop where
  atEnd : e.SelectsAtEnd
  own : e.weight load x ≤ k
  selects : stores = false → ∀ i ∈ e.selected, ∀ t ∈ targets[i]?,
    e.weight load x + t.weight load x ≤ k

namespace Room

variable {targets : List Target} {stores : Bool} {k : Nat} {e c : Expr}

/-- An expression that selects no target of the tree around it. -/
theorem of_closed (he : e.Closed) (hk : e.weight load x ≤ k) : Room load x targets stores k e :=
  ⟨he.atEnd, hk, fun _ _ hi => absurd (he.selected ▸ hi) List.not_mem_nil⟩

/-- A part of a node that does not end it. -/
theorem closedPart (h : Room load x targets stores k e) (hc : c ∈ e.closedParts)
    {targets' : List Target} {stores' : Bool} : Room load x targets' stores' k c :=
  of_closed (h.atEnd.closedPart hc)
    ((Expr.weight_le_of_child load x (Expr.mem_children_of_mem_closedParts hc)).trans h.own)

/-- A child of a node, with what is left beside some of what the node binds. -/
theorem beside (h : Room load x targets stores k e) (hc : c ∈ e.children)
    (hself : e.selectsItself = false) {j : Nat} (hj : c.weight load x + j ≤ e.weight load x) :
    Room load x targets stores (k - j) c := by
  have hsub : c.selected ⊆ e.selected := fun i hi =>
    Expr.selected_eq_flatMap hself ▸ List.mem_flatMap.2 ⟨c, hc, hi⟩
  refine ⟨h.atEnd.of_child hc, ?_, fun hstores i hi t ht => ?_⟩
  · have hown := h.own
    omega
  · have hselects := h.selects hstores i (hsub hi) t ht
    omega

/-- A child has the room of its node if the node selects nothing itself. -/
theorem child (h : Room load x targets stores k e) (hc : c ∈ e.children)
    (hself : e.selectsItself = false) : Room load x targets stores k c :=
  h.beside hc hself (j := 0) (Expr.weight_le_of_child load x hc)

/-- A node that none of its children ends. -/
theorem operation (h : Room load x targets stores k e) (hparts : e.closedParts = e.children)
    (hself : e.selectsItself = false) : Room load x targets false k e :=
  of_closed (h.atEnd.closed hparts hself) h.own

/-- The dispatcher of a tree, with the targets that it selects. -/
theorem tree {dispatcher : Expr} {inner : List Target}
    (h : Room load x targets stores k (.decisionTree dispatcher inner)) :
    Room load x inner stores k dispatcher := by
  have hown := h.own
  rw [Expr.weight_decisionTree] at hown
  refine ⟨h.atEnd.of_child List.mem_cons_self, by omega, fun _ i _ t ht => ?_⟩
  have ht : t.weight load x ≤ (inner.map (Target.weight load x)).sum :=
    List.single_le_sum (fun _ _ => Nat.zero_le _) _ (List.mem_map_of_mem (List.mem_of_getElem? ht))
  omega

/-- The dispatcher of a tree whose targets are stored. -/
theorem stored {dispatcher : Expr} {inner : List Target}
    (h : Room load x targets stores k (.decisionTree dispatcher inner)) :
    Room load x inner true (dispatcher.weight load x) dispatcher :=
  ⟨h.tree.atEnd, Nat.le_refl _, nofun⟩

/-- What the parts of such a tree bind: the dispatcher, the targets and their bodies. -/
theorem tree_le {dispatcher : Expr} {inner : List Target}
    (h : Room load x targets stores k (.decisionTree dispatcher inner)) :
    dispatcher.weight load x + ((inner.map fun t => (t.bound.map (·.name)).count x).sum +
      (inner.map fun t => t.body.weight load x).sum) ≤ k := by
  have hsum : (inner.map (Target.weight load x)).sum =
      (inner.map fun t => (t.bound.map (·.name)).count x).sum +
        (inner.map fun t => t.body.weight load x).sum := List.sum_map_add
  exact hsum ▸ Expr.weight_decisionTree load x dispatcher inner ▸ h.own

/-- What comes after the first node of a sequence. -/
theorem rest {es : List Expr} (h : Room load x targets stores k (.sequence (e :: c :: es))) :
    Room load x targets stores (k - e.weight load x) (.sequence (c :: es)) := by
  have hweight : ∀ es, (Expr.sequence es).weight load x = (es.map (Expr.weight load x)).sum :=
    fun es => (Expr.weight_eq load x _).trans (Nat.zero_add _)
  have hsplit : (Expr.sequence (e :: c :: es)).weight load x =
      e.weight load x + (Expr.sequence (c :: es)).weight load x := by
    rw [hweight, hweight, List.map_cons, List.sum_cons]
  have hselected : (Expr.sequence (c :: es)).selected ⊆ (Expr.sequence (e :: c :: es)).selected :=
    List.subset_append_right _ _
  have hown := h.own
  refine ⟨Expr.selectsAtEnd_iff.2 ⟨fun d hd => ?_, fun d hd => ?_⟩, by omega, ?_⟩
  · exact (h.atEnd.closedPart (List.mem_cons_of_mem _ hd)).selected
  · exact h.atEnd.of_child (List.mem_cons_of_mem _ hd)
  · intro hstores i hi t ht
    have hselects := h.selects hstores i (hselected hi) t ht
    omega

/-- A success node in place, with what its target binds. -/
theorem success_le {index : Nat} {values : List Expr} {ty : Ir.Ty} {t : Target}
    (h : Room load x targets false k (.success index values ty)) (ht : targets[index]? = some t) :
    (values.map (Expr.weight load x)).sum + t.weight load x ≤ k :=
  (Nat.add_le_add_right (Expr.sum_children_le load x _) _).trans
    (h.selects rfl index List.mem_cons_self t ht)

/-- A target that is selected has the room of the success node. -/
theorem target {index : Nat} {values : List Expr} {ty : Ir.Ty} {t : Target} {file : SourceFile}
    (h : Room load x targets false k (.success index values ty))
    (hfile : Bounded load x file targets) (ht : targets[index]? = some t) :
    Room load x targets stores k t.body := by
  refine .of_closed (hfile.targets t (List.mem_of_getElem? ht)) ?_
  have hle := h.success_le ht
  rw [Target.weight] at hle
  omega

end Room

/-- The body of an inline function under the name that it is called by. -/
theorem exists_inline {settings : Settings} {name : String} {inline : InlineFunction}
    (h : settings.inline? name = some inline) : (name, inline) ∈ settings.project.inlines := by
  obtain ⟨i, hi, rfl⟩ := Option.map_eq_some_iff.1 h
  have hname := List.find?_some hi
  exact beq_iff_eq.1 hname ▸ List.mem_reverse.1 (List.mem_of_find?_eq_some hi)

/-- An expansion binds a name no more often than the call may, if it is not made for a parameter. -/
theorem Lower.Adds.expandInline {file : SourceFile} {targets : List Target}
    (hfile : Bounded load x file targets) {k : Nat} {callee : Expr} {args : List Expr}
    {isNew : Bool} {ty : Ir.Ty} {loc : Option Ir.Location}
    (he : Room load x targets false k (.call callee none args isNew ty loc)) :
    Adds x k (TypedLowering.expandInline file callee args) fun d o =>
      ∀ e ∈ o, Room load x targets false (k + d) e := by
  intro s o t ho _
  rcases expandInline_cases file callee args s with
    ⟨_, heq⟩ | ⟨ref, inline, fresh, names, ⟨ty', loc', hcallee⟩, hinline, -, hparams, heq⟩
  · rw [heq] at ho
    obtain ⟨hnone, rfl⟩ := Prod.mk.inj ho
    obtain rfl := Except.ok.inj hnone
    exact ⟨0, rfl, nofun⟩
  · rw [heq] at ho
    obtain ⟨hsome, rfl⟩ := Prod.mk.inj ho
    obtain rfl := Except.ok.inj hsome
    refine ⟨_, takes_freshParams hparams, fun e hmem => ?_⟩
    obtain rfl := Option.some.inj hmem
    obtain ⟨hload, hbody⟩ := hfile.inlines (ref.selector, inline) (exists_inline hinline)
    dsimp only at hload hbody
    refine .of_closed (closed_bindParams (fun arg harg => ?_) (hbody.rename _)) ?_
    · exact he.atEnd.closedPart (List.mem_cons_of_mem _ harg)
    · have hown : ((Expr.call callee none args isNew ty loc).ownBinders load) =
          load ref.selector := by
        simp [Expr.ownBinders, Expr.uses, Expr.inlined?, hcallee]
      have hcall := he.own
      have hexpansion : (bindParams fresh args _).weight load x ≤ _ :=
        weight_bindParams_le fresh args (inline.body.rename (paramRenaming inline.args fresh))
      rw [Expr.weight_eq, hown, Expr.children, List.map_cons, List.sum_cons] at hcall
      rw [Expr.weight_rename] at hexpansion
      simp only [Option.toList_none, List.nil_append] at hcall
      omega

end TypedLowering
