import Mathlib.Algebra.Order.BigOperators.Group.List
import Mathlib.Algebra.Order.Ring.Nat
import Mathlib.Data.List.Count
import TypedLowering.Ir.Declaration
import TypedLowering.Proofs.Ir.Renaming
import TypedLowering.Proofs.Ir.Uses
import TypedLowering.Proofs.Lowering.Temporaries

/-!
# How often an expression binds a name

`binders` lists the variables that code for an expression may bind, and `weight` counts a name among
them. A call of an inline function counts for what its expansion may bind. A renaming changes no
weight (`weight_rename`).

`SelectsAtEnd` says where success nodes stand: what a node computes on the way has none of the tree
around it, and neither have the bodies of targets.
-/

namespace TypedLowering

/-- The first of some names, counted apart. -/
theorem count_cons_add (x y : String) (names : List String) :
    (y :: names).count x = [y].count x + names.count x := by
  rw [← List.singleton_append, List.count_append]

/-- The variable that a use binds. -/
def Use.bound? : Use → Option String
  | .binder x => some x
  | .name _ | .template _ | .entity _ => none

/-- The names that binders bind are theirs. -/
@[simp] theorem Use.filterMap_bound?_binders (ids : List Ir.Ident) :
    (Use.binders ids).filterMap Use.bound? = ids.map (·.name) := by
  induction ids with
  | nil => rfl
  | cons id ids ih =>
    have hcons : (Use.binders (id :: ids)).filterMap Use.bound? =
        id.name :: (Use.binders ids).filterMap Use.bound? := rfl
    rw [hcons, ih, List.map_cons]

namespace Ir.Expr

/-- The inline function that a call may be expanded to. -/
def inlined? : Expr → Option String
  | .call callee none _ _ _ _ =>
    match callee.uncast with
    | .imported ref _ _ => some ref.selector
    | _ => none
  | _ => none

variable (load : String → List String)

/-- The variables that a node binds itself. What the expansion of an inline function binds is given
by `load`. -/
def ownBinders (e : Expr) : List String :=
  e.uses.filterMap Use.bound? ++ e.inlined?.toList.flatMap load

/-- The variables that code for an expression may bind. -/
def binders (e : Expr) : List String :=
  e.subterms.flatMap (ownBinders load)

variable (x : String)

/-- How often a name is among them. -/
def weight (e : Expr) : Nat :=
  (e.binders load).count x

/-- A node weighs what it binds itself and what its children do. -/
theorem weight_eq (e : Expr) :
    e.weight load x = (e.ownBinders load).count x + (e.children.map (weight load x)).sum := by
  rw [weight, binders, subterms_eq, List.flatMap_cons, List.count_append, List.flatMap_assoc,
    List.count_flatMap]
  rfl

/-- The children of a node weigh no more than the node. -/
theorem sum_children_le (e : Expr) : (e.children.map (weight load x)).sum ≤ e.weight load x := by
  rw [e.weight_eq]
  exact Nat.le_add_left _ _

/-- A child weighs no more than its node. -/
theorem weight_le_of_child {c e : Expr} (h : c ∈ e.children) : c.weight load x ≤ e.weight load x :=
  (List.single_le_sum (fun _ _ => Nat.zero_le _) _ (List.mem_map_of_mem h)).trans
    (sum_children_le load x e)

/-- The expression under casts weighs no more. -/
theorem weight_uncast_le (e : Expr) : e.uncast.weight load x ≤ e.weight load x := by
  induction e using induction_on_children with
  | h e ih =>
    cases e with
    | cast inner ty =>
      exact (ih inner List.mem_cons_self).trans (weight_le_of_child load x List.mem_cons_self)
    | _ => exact Nat.le_refl _

/-- A let binds its identifier, and what its value and its body bind. -/
theorem weight_letIn (id : Ident) (value body : Expr) : (letIn id value body).weight load x =
    [id.name].count x + value.weight load x + body.weight load x := by
  rw [weight_eq]
  simp only [ownBinders, uses, inlined?, children, Use.filterMap_bound?_binders, List.map_cons,
    List.map_nil, Option.toList_none, List.flatMap_nil, List.append_nil, List.sum_cons,
    List.sum_nil]
  omega

/-- A function binds its parameters, and what its body binds. -/
theorem weight_delegate (args : List Ident) (body : Expr) (name : Option String) :
    (delegate args body name).weight load x =
      (args.map (·.name)).count x + body.weight load x := by
  rw [weight_eq]
  simp only [ownBinders, uses, inlined?, children, Use.filterMap_bound?_binders, List.map_cons,
    List.map_nil, Option.toList_none, List.flatMap_nil, List.append_nil, List.sum_cons,
    List.sum_nil, Nat.add_zero]

/-- A function of one parameter binds it, and what its body binds. -/
theorem weight_lambda (arg : Ident) (body : Expr) (name : Option String) :
    (lambda arg body name).weight load x = [arg.name].count x + body.weight load x :=
  weight_delegate load x [arg] body name

end Ir.Expr

/-- How often code for a target may bind a name. -/
def Ir.Target.weight (load : String → List String) (x : String) (t : Ir.Target) : Nat :=
  (t.bound.map (·.name)).count x + t.body.weight load x

/-- How often code for a binding may bind a name. -/
def Ir.Binding.weight (load : String → List String) (x : String) (b : Ir.Binding) : Nat :=
  [b.ident.name].count x + b.value.weight load x

namespace Ir.Expr

variable (load : String → List String) (x : String)

/-- A decision tree binds what its dispatcher and its targets bind. -/
theorem weight_decisionTree (dispatcher : Expr) (targets : List Target) :
    (decisionTree dispatcher targets).weight load x =
      dispatcher.weight load x + (targets.map (Target.weight load x)).sum := by
  have hown : ((decisionTree dispatcher targets).ownBinders load).count x =
      (targets.map fun t => (t.bound.map (·.name)).count x).sum := by
    simp only [ownBinders, uses, inlined?, Option.toList_none, List.flatMap_nil, List.append_nil]
    induction targets with
    | nil => rfl
    | cons t ts ih =>
      rw [List.flatMap_cons, List.filterMap_append, List.count_append, ih,
        Use.filterMap_bound?_binders, List.map_cons, List.sum_cons]
  have hsum : (targets.map (Target.weight load x)).sum =
      (targets.map fun t => (t.bound.map (·.name)).count x).sum +
        (targets.map fun t => t.body.weight load x).sum := List.sum_map_add
  rw [weight_eq, hown, hsum, children, List.map_cons, List.sum_cons, List.map_map]
  simp only [Function.comp_def]
  omega

/-- A recursive let binds what its bindings and its body bind. -/
theorem weight_letRec (bs : List Binding) (body : Expr) : (letRec bs body).weight load x =
    (bs.map (Binding.weight load x)).sum + body.weight load x := by
  have hown : ((letRec bs body).ownBinders load).count x =
      (bs.map fun b => [b.ident.name].count x).sum := by
    simp only [ownBinders, uses, inlined?, Option.toList_none, List.flatMap_nil, List.append_nil,
      Use.filterMap_bound?_binders]
    induction bs with
    | nil => rfl
    | cons b bs ih =>
      rw [List.map_cons, List.map_cons, count_cons_add, ih, List.map_cons, List.sum_cons]
  have hsum : (bs.map (Binding.weight load x)).sum =
      (bs.map fun b => [b.ident.name].count x).sum + (bs.map fun b => b.value.weight load x).sum :=
    List.sum_map_add
  rw [weight_eq, hown, hsum, children, List.map_append, List.sum_append, List.map_map]
  simp only [Function.comp_def, List.map_cons, List.map_nil, List.sum_cons, List.sum_nil]
  omega

/-- A member of an object weighs no more than the object. -/
theorem weight_member_le {members : List ObjectMember} {ty : Ty} {base : Option Expr}
    {m : ObjectMember} (h : m ∈ members) : (m.args.map (·.name)).count x + m.body.weight load x ≤
      (object members ty base).weight load x := by
  have hargs : (m.args.map (·.name)).count x ≤
      ((object members ty base).ownBinders load).count x := by
    have hsub : List.Sublist (m.args.map (·.name))
        ((members.flatMap fun m => Use.binders m.args).filterMap Use.bound?) := by
      obtain ⟨before, after, rfl⟩ := List.append_of_mem h
      rw [List.flatMap_append, List.flatMap_cons, List.filterMap_append, List.filterMap_append,
        Use.filterMap_bound?_binders]
      exact (List.sublist_append_left _ _).trans (List.sublist_append_right _ _)
    exact (hsub.trans (List.sublist_append_left _ _)).count_le x
  have hbody : m.body.weight load x ≤
      ((object members ty base).children.map (weight load x)).sum :=
    List.single_le_sum (fun _ _ => Nat.zero_le _) _
      (List.mem_map_of_mem (List.mem_append_left _ (List.mem_map_of_mem h)))
  rw [weight_eq load x (object members ty base)]
  omega

/-! ## Renaming -/

/-- What renamings leave as it is in the children of a node is the same in the children of a renamed
node. -/
theorem map_children_rename {α : Type} {f : Expr → α} {r : Renaming} {e : Expr}
    (h : ∀ c ∈ e.children, ∀ r : Renaming, f (c.rename r) = f c) :
    (e.rename r).children.map f = e.children.map f := by
  rw [← map_snd_scopedChildren, ← map_snd_scopedChildren, scopedChildren_rename, List.map_map,
    List.map_map, List.map_map]
  refine List.map_congr_left fun p hp => h p.2 ?_ _
  exact map_snd_scopedChildren e ▸ List.mem_map_of_mem hp

/-- A renamed call is of the same inline function. -/
theorem inlined?_rename (r : Renaming) (e : Expr) : (e.rename r).inlined? = e.inlined? := by
  cases e with
  | call callee receiver args =>
    cases receiver with
    | some => rfl
    | none =>
      rw [rename, renameOption, inlined?, inlined?, uncast_rename]
      cases callee.uncast <;> rfl
  | _ => rfl

/-- A renamed node binds the same names itself. -/
@[simp] theorem ownBinders_rename (r : Renaming) (e : Expr) :
    (e.rename r).ownBinders load = e.ownBinders load := by
  rw [ownBinders, ownBinders, inlined?_rename]
  congr 1
  cases e with
  | object members => simp [rename, uses, List.flatMap_map]
  | decisionTree dispatcher targets => simp [rename, uses, List.flatMap_map]
  | letRec bs => simp [rename, uses, Function.comp_def]
  | tryCatch body handler => cases handler <;> simp [rename, uses]
  | _ => rfl

/-- A renaming leaves the variables that are bound alone. -/
@[simp] theorem weight_rename (r : Renaming) (e : Expr) :
    (e.rename r).weight load x = e.weight load x := by
  induction e using induction_on_children generalizing r with
  | h e ih =>
    rw [weight_eq, ownBinders_rename, map_children_rename fun c hc r => ih c hc r, ← weight_eq]

/-- Whether a node selects a target, or owns the success nodes in it. -/
def selectsItself : Expr → Bool
  | .decisionTree .. | .success .. => true
  | _ => false

/-- The success nodes of any other node are those of its children. -/
theorem selected_eq_flatMap {e : Expr} (h : e.selectsItself = false) :
    e.selected = e.children.flatMap selected := by
  cases e with
  | decisionTree | success => cases h
  | _ => simp [selected, children, List.flatMap_append]

/-- Success nodes keep their targets. -/
@[simp] theorem selected_rename (r : Renaming) (e : Expr) : (e.rename r).selected = e.selected := by
  induction e using induction_on_children generalizing r with
  | h e ih =>
    have hchildren := congrArg List.flatten (map_children_rename (r := r) ih)
    rw [← List.flatMap_def, ← List.flatMap_def] at hchildren
    cases e with
    | decisionTree => rfl
    | success index values ty =>
      rw [rename, selected, selected, selectedList_eq, selectedList_eq]
      exact congrArg _ hchildren
    | _ => rw [selected_eq_flatMap, selected_eq_flatMap, hchildren] <;> rfl

/-! ## Where success nodes stand -/

/-- The children of a node that do not end it, and the bodies of targets. -/
def closedParts : Expr → List Expr
  | .cast .. => []
  | .ifThenElse guard _ _ _ => [guard]
  | .letIn _ value _ => [value]
  | .letRec bindings _ => bindings.map (·.value)
  | .sequence exprs => exprs.dropLast
  | .tryCatch _ _ finalizer _ => finalizer.toList
  | .decisionTree _ targets => targets.map (·.body)
  | e => e.children

/-- What must select no target is a child. -/
theorem mem_children_of_mem_closedParts {c e : Expr} (h : c ∈ e.closedParts) : c ∈ e.children := by
  cases e with
  | cast => nomatch h
  | ifThenElse => exact List.mem_singleton.1 h ▸ List.mem_cons_self
  | letIn => exact List.mem_singleton.1 h ▸ List.mem_cons_self
  | letRec => exact List.mem_append_left _ h
  | sequence => exact List.dropLast_subset _ h
  | tryCatch => exact List.mem_cons_of_mem _ (List.mem_append_right _ h)
  | decisionTree => exact List.mem_cons_of_mem _ h
  | _ => exact h

/-- Whether success nodes only stand where the dispatcher of their tree ends. -/
def SelectsAtEnd (e : Expr) : Prop :=
  ∀ d ∈ e.subterms, ∀ c ∈ d.closedParts, c.selected = []

/-- Whether, in addition, the success nodes in an expression are all of trees in it. -/
structure Closed (e : Expr) : Prop where
  atEnd : e.SelectsAtEnd
  selected : e.selected = []

instance (e : Expr) : Decidable e.SelectsAtEnd :=
  inferInstanceAs (Decidable (∀ d ∈ e.subterms, ∀ c ∈ d.closedParts, c.selected = []))

instance (e : Expr) : Decidable e.Closed :=
  decidable_of_iff (e.SelectsAtEnd ∧ e.selected = [])
    ⟨fun h => ⟨h.1, h.2⟩, fun h => ⟨h.atEnd, h.selected⟩⟩

variable {e : Expr}

/-- Success nodes stand at the end if they do in all children, and in none that has to be closed. -/
theorem selectsAtEnd_iff : e.SelectsAtEnd ↔
    (∀ c ∈ e.closedParts, c.selected = []) ∧ ∀ c ∈ e.children, c.SelectsAtEnd := by
  constructor
  · exact fun h => ⟨h e e.self_mem_subterms,
      fun c hc d hd => h d (mem_subterms.2 (.inr ⟨c, hc, hd⟩))⟩
  · rintro ⟨he, hc⟩ d hd
    rcases mem_subterms.1 hd with rfl | ⟨c, hmem, hd⟩
    · exact he
    · exact hc c hmem d hd

/-- In a child, success nodes stand at the end. -/
theorem SelectsAtEnd.of_child {c : Expr} (h : e.SelectsAtEnd) (hc : c ∈ e.children) :
    c.SelectsAtEnd :=
  (selectsAtEnd_iff.1 h).2 c hc

/-- A part that has to be closed selects no target. -/
theorem SelectsAtEnd.closedPart {c : Expr} (h : e.SelectsAtEnd) (hc : c ∈ e.closedParts) :
    c.Closed :=
  ⟨h.of_child (mem_children_of_mem_closedParts hc), (selectsAtEnd_iff.1 h).1 c hc⟩

/-- A node that none of its children ends has no success nodes of the tree around it. -/
theorem SelectsAtEnd.closed (h : e.SelectsAtEnd) (hparts : e.closedParts = e.children)
    (hself : e.selectsItself = false) : e.Closed := by
  refine ⟨h, ?_⟩
  rw [selected_eq_flatMap hself, List.flatMap_eq_nil_iff]
  exact fun c hc => (h.closedPart (hparts ▸ hc)).selected

/-- A renaming does not move success nodes. -/
theorem SelectsAtEnd.rename (h : e.SelectsAtEnd) (r : Renaming) : (e.rename r).SelectsAtEnd := by
  induction e using induction_on_children generalizing r with
  | h e ih =>
    refine selectsAtEnd_iff.2 ⟨?_, fun c hc => ?_⟩
    · have hchildren := map_children_rename (e := e) (r := r) fun c _ r => selected_rename r c
      have hparts : (e.rename r).closedParts.map selected = e.closedParts.map selected := by
        cases e with
        | tryCatch body handler finalizer =>
          cases finalizer <;> simp [Expr.rename, closedParts]
        | letIn | letRec | ifThenElse | cast | decisionTree =>
          simp [Expr.rename, closedParts, Function.comp_def]
        | sequence es =>
          simp [Expr.rename, closedParts, ← List.map_dropLast, Function.comp_def]
        | _ => exact hchildren
      intro c hc
      obtain ⟨d, hd, heq⟩ := List.mem_map.1 (hparts ▸ List.mem_map_of_mem hc)
      exact heq ▸ (h.closedPart hd).selected
    · obtain ⟨d, hd, r', -, rfl⟩ := exists_of_mem_children_rename hc
      exact ih d hd (h.of_child hd) r'

/-- A renaming does not make a closed expression select a target. -/
theorem Closed.rename (h : e.Closed) (r : Renaming) : (e.rename r).Closed :=
  ⟨h.atEnd.rename r, (selected_rename r e).trans h.selected⟩

/-- What stands under the casts of a closed expression is closed. -/
theorem Closed.uncast (h : e.Closed) : e.uncast.Closed := by
  induction e using induction_on_children with
  | h e ih =>
    cases e with
    | cast inner ty =>
      refine ih inner List.mem_cons_self ⟨h.atEnd.of_child List.mem_cons_self, h.selected⟩
    | _ => exact h

/-- The body of a function that is bound, possibly under casts. -/
theorem Closed.functionBody {params : List Ident} {body : Expr} {name : Option String}
    (h : e.Closed) (he : e.uncast = .delegate params body name ∨
      ∃ arg, params = [arg] ∧ e.uncast = .lambda arg body name)
    (load : String → List String) (x : String) :
    body.Closed ∧ (params.map (·.name)).count x + body.weight load x ≤ e.weight load x := by
  have hclosed := h.uncast
  have hweight := e.weight_uncast_le load x
  rcases he with he | ⟨arg, rfl, he⟩
  · rw [he] at hclosed hweight
    exact ⟨hclosed.atEnd.closedPart List.mem_cons_self,
      weight_delegate load x params body name ▸ hweight⟩
  · rw [he] at hclosed hweight
    exact ⟨hclosed.atEnd.closedPart List.mem_cons_self,
      weight_lambda load x arg body name ▸ hweight⟩

end Ir.Expr

/-! ## Declarations -/

/-- The variables that a function of a file or a method binds. -/
def Ir.Member.binders (load : String → List String) (m : Ir.Member) : List String :=
  m.args.map (·.name) ++ m.body.binders load

namespace Ir.Leaf

/-- The variables that code for a declaration may bind inside. -/
def binders (load : String → List String) : Leaf → List String
  | .action a => a.body.binders load
  | .member m => m.binders load
  | .classDecl c => (c.constructor.toList ++ c.members).flatMap (Member.binders load)

/-- The names that a declaration declares for its file. -/
def declared : Leaf → List String
  | .action _ => []
  | .member m => [m.name]
  | .classDecl c => [c.name]

/-- Whether a declaration is an action. -/
def isAction : Leaf → Bool
  | .action _ => true
  | .member _ | .classDecl _ => false

end Ir.Leaf

end TypedLowering
