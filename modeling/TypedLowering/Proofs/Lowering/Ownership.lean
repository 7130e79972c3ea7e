import TypedLowering.Proofs.Ir.Ownership
import TypedLowering.Proofs.Lowering.Success
import TypedLowering.Proofs.Lowering.Uses

/-!
# Nodes that do not see the targets around

A node whose success nodes choose from the first targets of two lists only, or have targets of their
own, cannot tell the lists apart (`Indistinct`): it needs statements with the one if it does with
the other (`Indistinct.isStatement`), and so do its parts. -/

namespace TypedLowering

open Ir (Expr Target)

/-- Whether the success nodes of an expression only choose from targets that come first in both
lists, and that have no success nodes in their bodies. -/
def Indistinct (ts ts' : List Target) (e : Expr) : Prop :=
  ∃ reach, reach <+: ts ∧ reach <+: ts' ∧ (∀ t ∈ reach, t.body.Scoped 0) ∧ e.Scoped reach.length

/-- Whether the bodies of inline functions have no success nodes of trees around. -/
def SourceFile.HasClosedInlines (file : SourceFile) : Prop :=
  ∀ i ∈ file.settings.project.inlines, i.2.body.Scoped 0

namespace Context

/-- Targets and the loop are changed independently. -/
theorem withoutTailCall_withTargets (ctx : Context) (ts : List Target) :
    (ctx.withTargets ts).withoutTailCall = ctx.withoutTailCall.withTargets ts := rfl

/-- Targets and the loop are changed independently. -/
theorem withTailCall_withTargets (ctx : Context) (ts : List Target) (loop : TailCall) :
    (ctx.withTargets ts).withTailCall loop = (ctx.withTailCall loop).withTargets ts := rfl

/-- The targets that were given last count. -/
theorem withTargets_withTargets (ctx : Context) (ts us : List Target) :
    (ctx.withTargets ts).withTargets us = ctx.withTargets us := rfl

end Context

namespace Indistinct

variable {ts ts' : List Target} {e : Expr}

/-- An expression without success nodes of trees around sees no targets at all. -/
theorem of_closed (h : e.Scoped 0) (ts ts' : List Target) : Indistinct ts ts' e :=
  ⟨[], List.nil_prefix, List.nil_prefix, nofun, h⟩

/-- If a node cannot tell the lists apart, then neither can a child among the same targets. -/
theorem child (h : Indistinct ts ts' e) (hscopes : ∀ k, e.scopes k = e.children.map (k, ·))
    {c : Expr} (hc : c ∈ e.children) : Indistinct ts ts' c := by
  obtain ⟨reach, hts, hts', hbodies, he⟩ := h
  exact ⟨reach, hts, hts', hbodies, he.child (hscopes _) hc⟩

/-- If a node cannot tell the lists apart, then neither can what is below its casts. -/
theorem uncast (h : Indistinct ts ts' e) : Indistinct ts ts' e.uncast := by
  induction e using Expr.induction_on_children with
  | h e ih =>
    cases e with
    | cast inner ty =>
      exact ih inner (List.mem_singleton_self _) (h.child (fun _ => rfl)
        (List.mem_singleton_self _))
    | _ => exact h

/-- The bodies of targets see no targets around. -/
theorem target {d : Expr} {inner : List Target} (h : Indistinct ts ts' (.decisionTree d inner))
    {t : Target} (ht : t ∈ inner) : Indistinct ts ts' t.body := by
  obtain ⟨reach, -, -, -, he⟩ := h
  exact of_closed (he.target ht) ts ts'

/-- A success node selects the same target from both lists. -/
theorem selected {index : Nat} {values : List Expr} {ty : Ir.Ty}
    (h : Indistinct ts ts' (.success index values ty)) :
    ∃ t, ts[index]? = some t ∧ ts'[index]? = some t ∧ Indistinct ts ts' t.body := by
  obtain ⟨reach, ⟨more, rfl⟩, ⟨more', rfl⟩, hbodies, he⟩ := h
  have hindex : index < reach.length := he.selects rfl
  refine ⟨reach[index], ?_, ?_, of_closed (hbodies _ (List.getElem_mem hindex)) _ _⟩
  · rw [List.getElem?_append_left hindex, List.getElem?_eq_getElem hindex]
  · rw [List.getElem?_append_left hindex, List.getElem?_eq_getElem hindex]

/-! ## Classification -/

/-- Searches with the same tests are the same. -/
theorem anyM_congr {m : Type → Type} [Monad m] {α : Type} {p q : α → m Bool} {xs : List α}
    (h : ∀ x ∈ xs, p x = q x) : xs.anyM p = xs.anyM q := by
  induction xs with
  | nil => rfl
  | cons x xs ih =>
    rw [List.anyM_cons, List.anyM_cons, h x List.mem_cons_self,
      ih fun y hy => h y (List.mem_cons_of_mem _ hy)]

/-- The dispatcher of a tree with its targets, and the bodies of these, weigh less than the tree. -/
theorem weight_dispatcher_lt (reach : List Target) (d : Expr) (inner : List Target) :
    weight inner d < weight reach (.decisionTree d inner) := by
  have hsize : (Expr.decisionTree d inner).size = d.size + (inner.map (·.body.size)).sum + 1 := by
    rw [Expr.size, Expr.subterms_eq, Expr.children, List.length_cons, List.flatMap_cons,
      List.length_append, List.length_flatMap, List.map_map]
    rfl
  rw [weight, weight, hsize]
  omega

/-- The body of a target weighs less than the tree. -/
theorem weight_target_lt (reach : List Target) {d : Expr} {inner : List Target} {t : Target}
    (ht : t ∈ inner) : weight [] t.body < weight reach (.decisionTree d inner) := by
  have hchild : t.body ∈ (Expr.decisionTree d inner).children :=
    List.mem_cons_of_mem _ (List.mem_map_of_mem ht)
  have hlt := Expr.size_lt_of_mem_children hchild
  rw [weight, weight, List.map_nil, List.sum_nil]
  omega

/-- The body of a target in reach weighs less than a success node. -/
theorem weight_selected_lt {reach : List Target} {t : Target} (ht : t ∈ reach) (index : Nat)
    (values : List Expr) (ty : Ir.Ty) :
    weight [] t.body < weight reach (.success index values ty) := by
  have hsum : t.body.size ≤ (reach.map (·.body.size)).sum :=
    List.single_le_sum (fun _ _ => Nat.zero_le _) _ (List.mem_map_of_mem ht)
  have hpos := weight_pos [] (Expr.success index values ty)
  rw [weight] at hpos
  rw [weight, weight, List.map_nil, List.sum_nil]
  simp only [List.map_nil, List.sum_nil] at hpos
  omega

/-- Paths that are long enough come to the same classification. -/
theorem isStatementWithin_eq {n m : Nat} {reach : List Target} (hts : reach <+: ts)
    (hts' : reach <+: ts') (hbodies : ∀ t ∈ reach, t.body.Scoped 0) (he : e.Scoped reach.length)
    (hn : weight reach e ≤ n) (hm : weight reach e ≤ m) (prefer : Bool) :
    isStatementWithin n ts prefer e = isStatementWithin m ts' prefer e := by
  induction n generalizing m reach ts ts' e prefer with
  | zero => exact absurd (weight_pos reach e) (Nat.not_lt_of_le hn)
  | succ n ih =>
    cases m with
    | zero => exact absurd (weight_pos reach e) (Nat.not_lt_of_le hm)
    | succ m =>
      have hlt : ∀ {w}, w < weight reach e → w ≤ n ∧ w ≤ m := fun hw =>
        ⟨Nat.le_of_lt_succ (Nat.lt_of_lt_of_le hw hn), Nat.le_of_lt_succ (Nat.lt_of_lt_of_le hw hm)⟩
      have hchild : ∀ c ∈ e.children, e.scopes reach.length = e.children.map (reach.length, ·) →
          ∀ prefer, isStatementWithin n ts prefer c = isStatementWithin m ts' prefer c := by
        intro c hc hscopes prefer
        obtain ⟨hcn, hcm⟩ := hlt (weight_lt_of_mem_children hc)
        exact ih hts hts' hbodies (he.child hscopes hc) hcn hcm prefer
      cases e with
      | cast inner ty => exact hchild inner (List.mem_singleton_self _) rfl prefer
      | ifThenElse guard thenExpr elseExpr loc =>
        simp only [isStatementWithin, hchild thenExpr (.tail _ (.head _)) rfl,
          hchild elseExpr (.tail _ (.tail _ (.head _))) rfl]
      | decisionTree d inner =>
        have hdispatcher : isStatementWithin n inner false d =
          isStatementWithin m inner false d := by
          obtain ⟨hdn, hdm⟩ := hlt (weight_dispatcher_lt reach d inner)
          exact ih List.prefix_rfl List.prefix_rfl (fun t ht => he.target ht) he.dispatcher hdn hdm
            false
        have htargets : inner.anyM (fun t => isStatementWithin n ts false t.body) =
            inner.anyM fun t => isStatementWithin m ts' false t.body := anyM_congr fun t ht => by
          obtain ⟨htn, htm⟩ := hlt (weight_target_lt reach ht)
          exact ih (List.nil_prefix (l := ts)) (List.nil_prefix (l := ts')) (List.forall_mem_nil _)
            (he.target ht) htn htm false
        simp only [isStatementWithin, hdispatcher, htargets]
      | success index values ty =>
        have hindex : index < reach.length := he.selects rfl
        have hmem : reach[index] ∈ reach := List.getElem_mem hindex
        obtain ⟨hbn, hbm⟩ := hlt (weight_selected_lt hmem index values ty)
        have hbody := ih (List.nil_prefix (l := ts)) (List.nil_prefix (l := ts'))
          (List.forall_mem_nil _) (hbodies _ hmem) hbn hbm false
        have hget : ∀ {us}, reach <+: us → us[index]? = some reach[index] := by
          rintro us ⟨more, rfl⟩
          rw [List.getElem?_append_left hindex, List.getElem?_eq_getElem hindex]
        simp only [isStatementWithin, hget hts, hget hts', hbody]
      | _ => rfl

/-- Whether statements are needed is the same with both lists. -/
theorem isStatement (h : Indistinct ts ts' e) (ctx : Context) (prefer : Bool) :
    TypedLowering.isStatement (ctx.withTargets ts) prefer e =
      TypedLowering.isStatement (ctx.withTargets ts') prefer e := by
  obtain ⟨reach, hts, hts', hbodies, he⟩ := h
  have hdepth : ∀ us, reach <+: us → weight reach e ≤ (ctx.withTargets us).depth e := fun us hus =>
    Nat.le_trans (Nat.le_mul_of_pos_left _ Nat.zero_lt_two) (Ready.weight_le_depth hus e)
  exact isStatementWithin_eq hts hts' hbodies he (hdepth ts hts) (hdepth ts' hts') prefer

/-- Whether a node needs statements is the same with either list. -/
theorem check (h : Indistinct ts ts' e) (ctx : Context) (prefer : Bool) :
    Lower.isStatement (ctx.withTargets ts) prefer e =
      Lower.isStatement (ctx.withTargets ts') prefer e :=
  congrArg Lower.ofExcept (h.isStatement ctx prefer)

/-- A success node needs statements if it binds values or if the body of its target, outside the
tree, does. -/
theorem isStatement_success {ctx : Context} {ts : List Target} {index : Nat} {t : Target}
    (ht : ts[index]? = some t) (hbody : t.body.Scoped 0) (prefer : Bool) (values : List Expr)
    (ty : Ir.Ty) :
    TypedLowering.isStatement (ctx.withTargets ts) prefer (.success index values ty) =
      if values.isEmpty then TypedLowering.isStatement ctx false t.body else .ok true := by
  have hweight : ∀ (ctx : Context) (reach : List Target) (e : Expr), reach <+: ctx.targets →
      weight reach e ≤ ctx.depth e := fun ctx reach e hreach =>
    Nat.le_trans (Nat.le_mul_of_pos_left _ Nat.zero_lt_two) (Ready.weight_le_depth hreach e)
  have hdepth := hweight (ctx.withTargets ts) ts (.success index values ty) List.prefix_rfl
  have hlt := weight_selected_lt (List.mem_of_getElem? ht) index values ty
  rw [TypedLowering.isStatement, TypedLowering.isStatement]
  cases hn : (ctx.withTargets ts).depth (.success index values ty) with
  | zero =>
    rw [hn] at hdepth
    exact absurd (Nat.lt_of_lt_of_le hlt hdepth) (Nat.not_lt_zero _)
  | succ n =>
    rw [hn] at hdepth
    have hbodies := isStatementWithin_eq (List.nil_prefix (l := ts))
      (List.nil_prefix (l := ctx.targets)) (List.forall_mem_nil _) hbody
      (Nat.le_of_lt_succ (Nat.lt_of_lt_of_le hlt hdepth))
      (hweight ctx [] t.body List.nil_prefix) false
    simp only [isStatementWithin, Context.targets_withTargets, ht, hbodies]

/-! ## Inline functions -/

/-- The success nodes of an expansion are those of the arguments and of the body. -/
theorem scoped_bindParams {k : Nat} {params : List Ir.Ident} {args : List Expr} {body : Expr}
    (hargs : ∀ arg ∈ args, arg.Scoped k) (hbody : body.Scoped k) :
    (bindParams params args body).Scoped k := by
  induction params generalizing args with
  | nil => exact hbody
  | cons p ps ih =>
    cases args with
    | nil => exact hbody
    | cons arg args =>
      obtain ⟨harg, hargs⟩ := List.forall_mem_cons.1 hargs
      exact .node (fun _ _ _ he => (by cases he))
        (List.forall_mem_cons.2 ⟨harg, List.forall_mem_singleton.2 (ih hargs)⟩)

/-- The expansion of a call sees as much of the targets as the call. -/
theorem expansion {file : SourceFile} {callee expanded : Expr} {args : List Expr} {isNew : Bool}
    {ty : Ir.Ty} {loc : Option Ir.Location} {s t : LowerState}
    (hinlines : file.HasClosedInlines) (h : Indistinct ts ts' (.call callee none args isNew ty loc))
    (hexpanded : expandInline file callee args s = (.ok (some expanded), t)) :
    Indistinct ts ts' expanded := by
  obtain ⟨reach, hts, hts', hbodies, he⟩ := h
  refine ⟨reach, hts, hts', hbodies, ?_⟩
  obtain ⟨journal, hnone⟩ | ⟨_, inline, fresh, names, -, hinline, -, -, hsome⟩ :=
    Lower.expandInline_cases file callee args s
  · rw [hnone] at hexpanded
    cases hexpanded
  · rw [hsome] at hexpanded
    cases hexpanded
    obtain ⟨i, hi, rfl⟩ := mem_inlines hinline
    exact scoped_bindParams (fun arg harg => he.child rfl (List.mem_cons_of_mem _ harg))
      (((hinlines i hi).rename _).mono (Nat.zero_le _))

end Indistinct

/-- What follows only matters for the results that there are. -/
theorem Lower.bind_congr {α β : Type} {m : Lower α} {f g : α → Lower β}
    (h : ∀ s a t, m s = (.ok a, t) → f a = g a) : m >>= f = m >>= g := by
  funext s
  rcases hm : m s with ⟨e | a, t⟩
  · rw [bind_error hm, bind_error hm]
  · rw [bind_ok hm, bind_ok hm, h s a t hm]

end TypedLowering
