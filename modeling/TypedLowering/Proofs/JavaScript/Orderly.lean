import TypedLowering.Proofs.Control.World
import TypedLowering.Proofs.Ir.Renaming
import TypedLowering.Proofs.Ir.Uses
import TypedLowering.Proofs.Lowering.Dispatcher

/-!
# What is evaluated in order

A few nodes are evaluated in the order of their children in JavaScript only if some of the children
have no effects that could be noticed (`InOrder`): the limit of a counting loop comes before its
start, or again with each iteration, and the base of an object before its members; the place of an
assignment comes after a value that needs statements; and what is tested for any type is left out.
`Orderly` says that all nodes of an expression are fine. A renaming to variables that are not
watched keeps this. -/

namespace TypedLowering.Ir.Expr

open Control

/-- Whether nobody notices that an expression is evaluated: it is a constant, or a variable that is
not watched. -/
def Silent (W : World) (e : Expr) : Prop :=
  match e.uncast with
  | .literal .. => True
  | .ident id => id.isThis = true ∨ W.Overlooks id.name
  | _ => False

/-- Whether an expression is a variable. -/
def isVariable (e : Expr) : Bool :=
  match e.uncast with
  | .ident id => !id.isThis
  | _ => false

/-- Whether an expression is an imported value. -/
def isImported : Expr → Bool
  | .imported .. => true
  | _ => false

/-- Whether an expression names what is defined elsewhere. -/
def isReference (e : Expr) : Bool :=
  match e.uncast with
  | .ident _ | .imported .. => true
  | _ => false

/-- Whether an expression is an operation, whatever becomes of its operands. A call without
arguments may become anything if its callee is imported. -/
def isComputed (e : Expr) : Bool :=
  match e.uncast with
  | .getIndex .. | .unary .. | .binary .. | .logical .. | .curry .. => true
  | .get _ access _ _ => match access with
    | .optionValue => false
    | _ => true
  | .apply _ args _ _ => !args.isEmpty
  | .call callee receiver args _ _ _ =>
    receiver.isSome || !args.isEmpty || !callee.uncast.isImported
  | _ => false

/-- Whether a node is evaluated in the order of its children. A call without arguments has a callee
that is no function literal. -/
def InOrder (W : World) : Expr → Prop
  | .aggregate (.anonymous fields) values _ => fields.length = values.length
  | .object _ _ (some base) => base.Silent W
  | .call callee receiver args isNew _ _ =>
    isNew = true ∨ receiver.isSome = true ∨ discardUnitArg args ≠ [] ∨ callee.isReference = true ∨
      callee.isComputed = true
  | .test value (.type .any) _ => value.Silent W
  | .set target none _ _ => target.isVariable = true
  | .set target (some _) value _ =>
    target.Silent W ∨ value.IsPlain ∧ value.needsStatements = false
  | .setIndex target index value _ =>
    target.Silent W ∧ index.Silent W ∨ value.IsPlain ∧ value.needsStatements = false
  | .forLoop id start limit _ _ _ =>
    W.Overlooks id.name ∧ (limit.Silent W ∨ start.Silent W ∧ limit.isComputed = true)
  | .tryCatch _ handler _ _ => ∀ h, handler = some h → W.Overlooks h.param.name
  | _ => True

/-- The children of a node, with the numbers of values that their success nodes pass to targets. The
bodies of targets have no success nodes of their own. -/
def arms (arities : List Nat) : Expr → List (List Nat × Expr)
  | .decisionTree dispatcher ts =>
    (ts.map (·.bound.length), dispatcher) :: ts.map fun t => ([], t.body)
  | e => e.children.map (arities, ·)

/-- An expression all of whose nodes are evaluated in the order of their children. -/
inductive Orderly (W : World) : List Nat → Expr → Prop
  | node {arities : List Nat} {e : Expr} (inOrder : e.InOrder W)
      (selects : ∀ index values ty, e = .success index values ty →
        arities[index]? = some values.length)
      (parts : ∀ p ∈ e.arms arities, Orderly W p.1 p.2) : Orderly W arities e

variable {W : World} {arities : List Nat} {e : Expr}

namespace Orderly

/-- An orderly node is evaluated in the order of its children. -/
theorem inOrder (h : Orderly W arities e) : e.InOrder W := by
  cases h with
  | node inOrder _ _ => exact inOrder

/-- An orderly success node has as many values as its target binds. -/
theorem selects {index : Nat} {values : List Expr} {ty : Ty}
    (h : Orderly W arities (.success index values ty)) :
    arities[index]? = some values.length := by
  cases h with
  | node _ selects _ => exact selects index values ty rfl

/-- The parts of an orderly node are orderly. -/
theorem part (h : Orderly W arities e) {p : List Nat × Expr} (hp : p ∈ e.arms arities) :
    Orderly W p.1 p.2 := by
  cases h with
  | node _ _ parts => exact parts p hp

/-- The children of a node that is no tree. -/
theorem child (h : Orderly W arities e) (harms : e.arms arities = e.children.map (arities, ·))
    {c : Expr} (hc : c ∈ e.children) : Orderly W arities c := by
  have hp : (arities, c) ∈ e.arms arities := harms ▸ List.mem_map_of_mem hc
  exact h.part hp

/-- The dispatcher of an orderly tree is orderly with its targets around. -/
theorem dispatcher {d : Expr} {ts : List Target} (h : Orderly W arities (.decisionTree d ts)) :
    Orderly W (ts.map (·.bound.length)) d :=
  h.part List.mem_cons_self

/-- The bodies of the targets of an orderly tree are orderly. -/
theorem target {d : Expr} {ts : List Target} (h : Orderly W arities (.decisionTree d ts))
    {t : Target} (ht : t ∈ ts) : Orderly W [] t.body :=
  h.part (List.mem_cons_of_mem _ (List.mem_map_of_mem ht))

/-- Targets in reach do no harm where there are no success nodes. -/
theorem closed (h : Orderly W [] e) (arities : List Nat) : Orderly W arities e := by
  generalize hnone : ([] : List Nat) = none at h
  induction h with
  | @node _ e inOrder selects parts ih =>
    subst hnone
    refine .node inOrder (fun index values ty he => ?_) fun p hp => ?_
    · cases selects index values ty he
    · cases e with
      | decisionTree => exact parts p hp
      | _ =>
        obtain ⟨c, hc, rfl⟩ := List.mem_map.1 hp
        exact ih ([], c) (List.mem_map_of_mem hc) rfl

end Orderly

/-! ## Renaming -/

/-- A renaming keeps a name or gives one of its new ones. -/
theorem apply_cases (r : Renaming) (x : String) : r.apply x = x ∨ ∃ p ∈ r, r.apply x = p.2 := by
  rw [Renaming.apply]
  split
  · rename_i old new hfind
    exact .inr ⟨_, List.mem_of_find?_eq_some hfind, rfl⟩
  · exact .inl rfl

/-- What is not noticed is not noticed under other names either, if these are not watched. -/
theorem Silent.rename {r : Renaming} (h : e.Silent W) (hr : ∀ p ∈ r, W.Overlooks p.2) :
    (e.rename r).Silent W := by
  rw [Silent] at h ⊢
  rw [uncast_rename]
  cases hu : e.uncast with
  | literal => trivial
  | ident id =>
    rw [hu] at h
    refine h.imp_right fun hid => ?_
    show W.Overlooks (r.apply id.name)
    rcases apply_cases r id.name with heq | ⟨p, hp, heq⟩
    · rwa [heq]
    · rw [heq]
      exact hr p hp
  | _ =>
    rw [hu] at h
    cases h

/-- A renamed variable is a variable. -/
theorem isVariable_rename (r : Renaming) (e : Expr) : (e.rename r).isVariable = e.isVariable := by
  rw [isVariable, isVariable, uncast_rename]
  cases e.uncast <;> rfl

/-- A renamed reference is a reference. -/
theorem isReference_rename (r : Renaming) (e : Expr) :
    (e.rename r).isReference = e.isReference := by
  rw [isReference, isReference, uncast_rename]
  cases e.uncast <;> rfl

/-- A renamed unit constant is one. -/
theorem isUnitConstant_rename (r : Renaming) (e : Expr) :
    (e.rename r).isUnitConstant = e.isUnitConstant := by
  rw [isUnitConstant, isUnitConstant, uncast_rename]
  cases e.uncast <;> rfl

/-- A renamed receiver is one. -/
theorem isReceiver_rename (r : Renaming) (e : Expr) : (e.rename r).isReceiver = e.isReceiver := by
  rw [isReceiver, isReceiver, uncast_rename]
  cases e.uncast <;> rfl

/-- A renaming does not change whether a value is computed. -/
theorem isComputed_rename (r : Renaming) (e : Expr) : (e.rename r).isComputed = e.isComputed := by
  have himported : ∀ e : Expr, (e.rename r).isImported = e.isImported := fun e => by
    cases e <;> rfl
  rw [isComputed, isComputed, uncast_rename]
  cases e.uncast with
  | apply f args => cases args <;> rfl
  | call callee receiver args =>
    simp only [Expr.rename, uncast_rename, himported, renameOption_eq, renameList_eq,
      Option.isSome_map, List.isEmpty_map]
  | _ => rfl

/-- The unit argument is left out of renamed arguments alike. -/
theorem discardUnitArg_rename (r : Renaming) (args : List Expr) :
    discardUnitArg (args.map (Expr.rename r)) = (discardUnitArg args).map (Expr.rename r) := by
  match args with
  | [] => rfl
  | [only] =>
    simp only [List.map_cons, List.map_nil, discardUnitArg, isUnitConstant_rename]
    split <;> rfl
  | [receiver, unit] =>
    simp only [List.map_cons, List.map_nil, discardUnitArg, isUnitConstant_rename,
      isReceiver_rename]
    split <;> rfl
  | _ :: _ :: _ :: _ => rfl

/-- An expression is plain if it is neither a tree nor a success node, and its children are
plain. -/
theorem isPlain_iff : e.IsPlain ↔
    ((∀ dispatcher targets, e ≠ .decisionTree dispatcher targets) ∧
      ∀ index values ty, e ≠ .success index values ty) ∧ ∀ c ∈ e.children, c.IsPlain := by
  constructor
  · exact fun h => ⟨h e e.self_mem_subterms, fun c hc => h.of_child hc⟩
  · rintro ⟨he, hc⟩ d hd
    rcases mem_subterms.1 hd with rfl | ⟨c, hmem, hd⟩
    · exact he
    · exact hc c hmem d hd

/-- A renamed plain expression is plain. -/
theorem IsPlain.rename (h : e.IsPlain) (r : Renaming) : (e.rename r).IsPlain := by
  induction e using induction_on_children generalizing r with
  | h e ih =>
    obtain ⟨he, hchildren⟩ := isPlain_iff.1 h
    refine isPlain_iff.2 ⟨?_, fun c hc => ?_⟩
    · cases e with
      | decisionTree d ts => exact absurd rfl (he.1 d ts)
      | success index values ty => exact absurd rfl (he.2 index values ty)
      | _ => constructor <;> (intros; rw [Expr.rename]; rintro ⟨⟩)
    · obtain ⟨d, hd, r', -, rfl⟩ := exists_of_mem_children_rename hc
      exact ih d hd (hchildren d hd) r'

/-- A renamed node needs statements alike. -/
theorem needsStatements_rename (r : Renaming) (e : Expr) :
    (e.rename r).needsStatements = e.needsStatements := by
  induction e using induction_on_children generalizing r with
  | h e ih =>
    cases e with
    | cast inner ty => exact ih inner List.mem_cons_self r
    | ifThenElse guard thenExpr elseExpr loc =>
      rw [Expr.rename, needsStatements, needsStatements, ih thenExpr (by simp [children]),
        ih elseExpr (by simp [children])]
    | _ => rfl

/-- A renaming to names that are overlooked keeps the order. -/
theorem InOrder.rename {r : Renaming} (h : e.InOrder W) (hr : ∀ p ∈ r, W.Overlooks p.2) :
    (e.rename r).InOrder W := by
  have hvalue : ∀ {value : Expr}, value.IsPlain ∧ value.needsStatements = false →
      (value.rename r).IsPlain ∧ (value.rename r).needsStatements = false :=
    fun ⟨hplain, hneeds⟩ => ⟨hplain.rename r, (needsStatements_rename r _).trans hneeds⟩
  cases e with
  | aggregate kind values =>
    cases kind with
    | anonymous fields =>
      rw [Expr.rename, renameList_eq]
      exact Eq.trans h (List.length_map _).symm
    | _ => trivial
  | object members ty base =>
    cases base with
    | none => trivial
    | some base => exact Silent.rename h hr
  | call callee receiver args =>
    rw [Expr.rename, InOrder, renameOption_eq, renameList_eq, discardUnitArg_rename,
      isReference_rename, isComputed_rename, Option.isSome_map, ne_eq, List.map_eq_nil_iff]
    exact h
  | test value kind =>
    cases kind with
    | type ty =>
      cases ty with
      | any => exact Silent.rename h hr
      | _ => trivial
    | _ => trivial
  | set target field =>
    cases field with
    | none => exact (isVariable_rename r target).trans h
    | some name => exact Or.imp (fun ht => Silent.rename ht hr) hvalue h
  | setIndex =>
    exact Or.imp (And.imp (fun ht => Silent.rename ht hr) fun hi => Silent.rename hi hr) hvalue h
  | forLoop id start limit =>
    refine And.imp_right (Or.imp (fun hl => Silent.rename hl hr) (And.imp (fun hs =>
      Silent.rename hs hr) fun hl => ?_)) h
    exact (isComputed_rename r limit).trans hl
  | tryCatch body handler =>
    intro hd hrenamed
    rw [renameHandler_eq] at hrenamed
    obtain ⟨hd', hhandler, rfl⟩ := Option.map_eq_some_iff.1 hrenamed
    exact h hd' hhandler
  | _ => trivial

/-- The parts of a renamed expression are renamed parts. -/
theorem exists_of_mem_arms_rename {r : Renaming} {p : List Nat × Expr}
    (h : p ∈ (e.rename r).arms arities) :
    ∃ q ∈ e.arms arities, ∃ r' ⊆ r, p = (q.1, q.2.rename r') := by
  have hsame : ∀ {e : Expr}, (e.rename r).arms arities = (e.rename r).children.map (arities, ·) →
      e.arms arities = e.children.map (arities, ·) → p ∈ (e.rename r).arms arities →
      ∃ q ∈ e.arms arities, ∃ r' ⊆ r, p = (q.1, q.2.rename r') := by
    intro e hrenamed he hp
    rw [hrenamed] at hp
    obtain ⟨c, hc, rfl⟩ := List.mem_map.1 hp
    obtain ⟨d, hd, r', hr', rfl⟩ := exists_of_mem_children_rename hc
    exact ⟨(arities, d), he ▸ List.mem_map_of_mem hd, r', hr', rfl⟩
  cases e with
  | decisionTree dispatcher ts =>
    rw [Expr.rename, renameTargets_eq] at h
    rcases List.mem_cons.1 h with rfl | h
    · refine ⟨_, List.mem_cons_self, r, List.Subset.refl r, ?_⟩
      rw [List.map_map]
      rfl
    · obtain ⟨t', ht', rfl⟩ := List.mem_map.1 h
      obtain ⟨t, ht, rfl⟩ := List.mem_map.1 ht'
      exact ⟨([], t.body), List.mem_cons_of_mem _ (List.mem_map_of_mem ht), r.under t.bound,
        fun p hp => (List.mem_filter.1 hp).1, rfl⟩
  | _ => exact hsame (by rw [Expr.rename]; rfl) rfl h

/-- The order does not depend on the names of variables that are not watched. -/
theorem Orderly.rename {r : Renaming} (h : Orderly W arities e)
    (hr : ∀ p ∈ r, W.Overlooks p.2) : Orderly W arities (e.rename r) := by
  induction h generalizing r with
  | @node arities e inOrder selects _ ih =>
    refine .node (inOrder.rename hr) (fun index values ty he => ?_) fun p hp => ?_
    · cases e with
      | success index' values' ty' =>
        rw [Expr.rename, renameList_eq] at he
        cases he
        rw [List.length_map]
        exact selects index values' ty rfl
      | _ => rw [Expr.rename] at he; cases he
    · obtain ⟨q, hq, r', hr', rfl⟩ := exists_of_mem_arms_rename hp
      exact ih q hq fun p hp => hr p (hr' hp)

end TypedLowering.Ir.Expr
