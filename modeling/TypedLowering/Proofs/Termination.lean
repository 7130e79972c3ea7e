import Mathlib.Data.List.Chain
import Mathlib.Data.List.Perm.Subperm
import Mathlib.Data.List.ProdSigma
import Mathlib.Logic.Relation
import TypedLowering.Lowering.Classification
import TypedLowering.Proofs.Ir.Subterms
import TypedLowering.Proofs.ReturnDiscipline

/-!
# When classifications end

To classify an expression, other questions are answered first (`Question.Asks`): about branches,
about dispatchers and targets of decision trees, and, for a success node, about the body of the
target that it selects from the targets in reach. These stay in reach while the body is classified.
So an answer is given after finitely many steps exactly if no question leads back to itself
(`isStatement_returns_iff`), and the bound on the depth of `isStatement` is never the reason why
there is none. The target of a nested tree that goes on with a target of the tree around leads back
to itself (`nestedTarget_endless`).
-/

namespace TypedLowering

open Ir (Expr Location Target Ty)
open Relation (ReflTransGen TransGen)

/-- Whether an expression needs statements, where success nodes select from these targets. -/
structure Question where
  targets : List Target
  prefer : Bool
  expr : Expr

namespace Question

variable {n : Nat} {q q' : Question}

/-- The answer that is found on paths of bounded length. -/
def within (n : Nat) (q : Question) : Except LowerError Bool :=
  isStatementWithin n q.targets q.prefer q.expr

/-- The answer is found after finitely many steps. -/
def Answers (q : Question) (b : Bool) : Prop :=
  ∃ n, q.within n = .ok b

/-- To answer a question, another one is asked. The second branch of a conditional and the targets
of a tree are only come to if nothing before them needs statements. -/
inductive Asks : Question → Question → Prop where
  | cast {targets : List Target} {prefer : Bool} {inner : Expr} {ty : Ty} :
    Asks ⟨targets, prefer, .cast inner ty⟩ ⟨targets, prefer, inner⟩
  | thenBranch {targets : List Target} {guard thenExpr elseExpr : Expr} {loc : Option Location} :
    Asks ⟨targets, false, .ifThenElse guard thenExpr elseExpr loc⟩ ⟨targets, false, thenExpr⟩
  | elseBranch {targets : List Target} {guard thenExpr elseExpr : Expr} {loc : Option Location} :
    Answers ⟨targets, false, thenExpr⟩ false →
      Asks ⟨targets, false, .ifThenElse guard thenExpr elseExpr loc⟩ ⟨targets, false, elseExpr⟩
  | dispatcher {targets inner : List Target} {dispatcher : Expr} :
    Asks ⟨targets, false, .decisionTree dispatcher inner⟩ ⟨inner, false, dispatcher⟩
  | target {targets before after : List Target} {dispatcher : Expr} {t : Target} :
    Answers ⟨before ++ t :: after, false, dispatcher⟩ false →
      (∀ t' ∈ before, Answers ⟨targets, false, t'.body⟩ false) →
        Asks ⟨targets, false, .decisionTree dispatcher (before ++ t :: after)⟩
          ⟨targets, false, t.body⟩
  | selected {targets : List Target} {prefer : Bool} {index : Nat} {ty : Ty} {t : Target} :
    targets[index]? = some t →
      Asks ⟨targets, prefer, .success index [] ty⟩ ⟨targets, false, t.body⟩

/-- If the question is about a success node, its target exists. -/
def Resolves (q : Question) : Prop :=
  ∀ index values ty, q.expr = .success index values ty → index < q.targets.length

/-- No question that is asked on the way leads back to itself. -/
def Grounded (q : Question) : Prop :=
  ∀ q', ReflTransGen Asks q q' → ¬ TransGen Asks q' q'

/-! ## Answers in sequence -/

/-- The answer is yes if one of two is; the second is only looked for if the first is no. -/
def either (a b : Except LowerError Bool) : Except LowerError Bool :=
  match a with
  | .ok false => b
  | answer => answer

/-- A search fails in its first part, or in the second after the first answered no. -/
theorem either_eq_error {a b : Except LowerError Bool} {err : LowerError} :
    either a b = .error err ↔ a = .error err ∨ a = .ok false ∧ b = .error err := by
  rcases a with err' | _ | _ <;> simp [either]

/-- More steps do not change a search that has come to its end. -/
theorem either_eq_of_settled {a a' b b' : Except LowerError Bool}
    (ha : a ≠ .error .endless → a' = a) (hb : b ≠ .error .endless → b' = b)
    (h : either a b ≠ .error .endless) : either a' b' = either a b := by
  rcases a with err | _ | _
  · rw [ha h]
    rfl
  · rw [ha nofun]
    exact hb h
  · rw [ha nofun]
    rfl

section Search

variable {α : Type} {f g : α → Except LowerError Bool} {xs : List α}

/-- A search over items asks the first one and then the others. -/
theorem anyM_cons (x : α) : (x :: xs).anyM f = either (f x) (xs.anyM f) := by
  rw [List.anyM]
  rcases f x with err | _ | _ <;> rfl

/-- A search fails where a test fails after others that all said no. -/
theorem anyM_eq_error {err : LowerError} : xs.anyM f = .error err ↔
    ∃ before x after, xs = before ++ x :: after ∧ (∀ y ∈ before, f y = .ok false) ∧
      f x = .error err := by
  induction xs with
  | nil => exact ⟨nofun, fun ⟨before, x, after, heq, _⟩ => by cases before <;> cases heq⟩
  | cons x xs ih =>
    rw [anyM_cons, either_eq_error, ih]
    constructor
    · rintro (hx | ⟨hx, before, z, after, rfl, hbefore, hz⟩)
      · exact ⟨[], x, xs, rfl, nofun, hx⟩
      · exact ⟨x :: before, z, after, rfl, List.forall_mem_cons.2 ⟨hx, hbefore⟩, hz⟩
    · rintro ⟨_ | ⟨y, before⟩, z, after, heq, hbefore, hz⟩ <;> cases heq
      · exact .inl hz
      · obtain ⟨hx, hbefore⟩ := List.forall_mem_cons.1 hbefore
        exact .inr ⟨hx, before, z, after, rfl, hbefore, hz⟩

/-- Before a test that fails come only tests that fail likewise or say no. -/
theorem anyM_append_eq_error {err : LowerError} {x : α} (after : List α)
    (h : ∀ y ∈ xs, f y = .error err ∨ f y = .ok false) (hx : f x = .error err) :
    (xs ++ x :: after).anyM f = .error err := by
  induction xs with
  | nil => exact anyM_eq_error.2 ⟨[], x, after, rfl, nofun, hx⟩
  | cons y xs ih =>
    obtain ⟨hy, h⟩ := List.forall_mem_cons.1 h
    rw [List.cons_append, anyM_cons, either_eq_error]
    exact hy.imp_right fun hy => ⟨hy, ih h⟩

/-- More steps do not change a search over items that has come to its end. -/
theorem anyM_eq_of_settled (hfg : ∀ x, f x ≠ .error .endless → g x = f x)
    (h : xs.anyM f ≠ .error .endless) : xs.anyM g = xs.anyM f := by
  induction xs with
  | nil => rfl
  | cons x xs ih =>
    rw [anyM_cons] at h ⊢
    rw [anyM_cons]
    exact either_eq_of_settled (hfg x) ih h

end Search

/-- A conditional asks about its branches. -/
theorem within_ifThenElse (n : Nat) (targets : List Target) (guard thenExpr elseExpr : Expr)
    (loc : Option Location) :
    within (n + 1) ⟨targets, false, .ifThenElse guard thenExpr elseExpr loc⟩ =
      either (within n ⟨targets, false, thenExpr⟩) (within n ⟨targets, false, elseExpr⟩) := by
  simp only [within, isStatementWithin, Bool.false_eq_true, if_false]
  rcases isStatementWithin n targets false thenExpr with err | _ | _ <;> rfl

/-- A decision tree asks about its dispatcher and about its targets. -/
theorem within_decisionTree (n : Nat) (targets inner : List Target) (dispatcher : Expr) :
    within (n + 1) ⟨targets, false, .decisionTree dispatcher inner⟩ =
      either (within n ⟨inner, false, dispatcher⟩)
        (inner.anyM fun t => within n ⟨targets, false, t.body⟩) := by
  simp only [within, isStatementWithin, Bool.false_eq_true, if_false]
  rcases isStatementWithin n inner false dispatcher with err | _ | _ <;> rfl

/-- A success node without values asks about the target that it selects. -/
theorem within_success (n : Nat) {targets : List Target} (prefer : Bool) {index : Nat} (ty : Ty)
    {t : Target} (ht : targets[index]? = some t) :
    within (n + 1) ⟨targets, prefer, .success index [] ty⟩ =
      within n ⟨targets, false, t.body⟩ := by
  simp [within, isStatementWithin, ht]

/-! ## More steps -/

/-- An answer stays when longer paths are allowed. -/
theorem within_succ (h : q.within n ≠ .error .endless) : q.within (n + 1) = q.within n := by
  induction n generalizing q with
  | zero => exact absurd rfl h
  | succ n ih =>
    obtain ⟨targets, prefer, e⟩ := q
    cases e with
    | cast inner ty => exact @ih ⟨targets, prefer, inner⟩ h
    | ifThenElse guard thenExpr elseExpr loc =>
      cases prefer with
      | true => rfl
      | false =>
        rw [within_ifThenElse] at h ⊢
        rw [within_ifThenElse]
        exact either_eq_of_settled ih ih h
    | decisionTree dispatcher inner =>
      cases prefer with
      | true => rfl
      | false =>
        rw [within_decisionTree] at h ⊢
        rw [within_decisionTree]
        exact either_eq_of_settled ih (anyM_eq_of_settled fun t => ih) h
    | success index values ty =>
      cases ht : targets[index]? with
      | none => simp only [within, isStatementWithin, ht]
      | some t =>
        cases values with
        | cons => simp [within, isStatementWithin, ht]
        | nil =>
          rw [within_success _ _ _ ht] at h ⊢
          rw [within_success _ _ _ ht]
          exact ih h
    | _ => rfl

/-- An answer within some steps is the answer within more. -/
theorem within_of_le {m : Nat} (hnm : n ≤ m) (h : q.within n ≠ .error .endless) :
    q.within m = q.within n := by
  induction hnm with
  | refl => rfl
  | step _ ih => rw [within_succ (by rwa [ih]), ih]

/-- Whenever the search ends, it ends with the answer. -/
theorem Answers.within_eq {b : Bool} (hb : q.Answers b) (h : q.within n ≠ .error .endless) :
    q.within n = .ok b := by
  obtain ⟨m, hm⟩ := hb
  rw [← within_of_le (Nat.le_max_left n m) h, within_of_le (Nat.le_max_right n m), hm]
  rw [hm]
  nofun

/-! ## Where a search fails -/

/-- A search fails with a question that it asks, or because a target is missing. -/
theorem within_succ_eq_error {err : LowerError} (h : q.within (n + 1) = .error err) :
    (∃ q', q.Asks q' ∧ q'.within n = .error err) ∨ err ≠ .endless ∧ ¬ q.Resolves := by
  obtain ⟨targets, prefer, e⟩ := q
  cases e with
  | cast inner ty => exact .inl ⟨_, .cast, h⟩
  | ifThenElse guard thenExpr elseExpr loc =>
    cases prefer with
    | true => cases h
    | false =>
      rw [within_ifThenElse, either_eq_error] at h
      rcases h with h | ⟨hthen, h⟩
      · exact .inl ⟨_, .thenBranch, h⟩
      · exact .inl ⟨_, .elseBranch ⟨n, hthen⟩, h⟩
  | decisionTree dispatcher inner =>
    cases prefer with
    | true => cases h
    | false =>
      rw [within_decisionTree, either_eq_error, anyM_eq_error] at h
      rcases h with h | ⟨hdispatcher, before, t, after, rfl, hbefore, h⟩
      · exact .inl ⟨_, .dispatcher, h⟩
      · exact .inl ⟨_, .target ⟨n, hdispatcher⟩ fun t' ht' => ⟨n, hbefore t' ht'⟩, h⟩
  | success index values ty =>
    cases ht : targets[index]? with
    | none =>
      simp only [within, isStatementWithin, ht] at h
      obtain rfl := Except.error.inj h
      refine .inr ⟨nofun, fun hresolves => ?_⟩
      exact absurd (hresolves index values ty rfl) (Nat.not_lt.2 (List.getElem?_eq_none_iff.1 ht))
    | some t =>
      cases values with
      | cons => simp [within, isStatementWithin, ht] at h
      | nil => exact .inl ⟨_, .selected ht, (within_success n prefer ty ht).symm.trans h⟩
  | _ => cases h

/-- A search that asks an endless question is endless. -/
theorem Asks.within_eq_endless (h : q.Asks q') (hq' : q'.within n = .error .endless) :
    q.within (n + 1) = .error .endless := by
  have hno : ∀ {c : Question}, c.Answers false →
      c.within n = .error .endless ∨ c.within n = .ok false := fun hc =>
    Classical.or_iff_not_imp_left.2 hc.within_eq
  cases h with
  | cast => exact hq'
  | thenBranch => rw [within_ifThenElse, either_eq_error]; exact .inl hq'
  | elseBranch hthen =>
    rw [within_ifThenElse, either_eq_error]
    exact (hno hthen).imp_right fun hthen => ⟨hthen, hq'⟩
  | dispatcher => rw [within_decisionTree, either_eq_error]; exact .inl hq'
  | target hdispatcher hbefore =>
    rw [within_decisionTree, either_eq_error]
    exact (hno hdispatcher).imp_right fun hdispatcher =>
      ⟨hdispatcher, anyM_append_eq_error _ (fun t' ht' => hno (hbefore t' ht')) hq'⟩
  | selected ht => rw [within_success _ _ _ ht]; exact hq'

/-- No bound is enough for a question that leads back to itself. -/
theorem within_of_cycle (n : Nat) (h : TransGen Asks q q) : q.within n = .error .endless := by
  induction n generalizing q with
  | zero => rfl
  | succ n ih =>
    obtain ⟨q', hask, hback⟩ := TransGen.head'_iff.1 h
    exact hask.within_eq_endless (ih (TransGen.tail' hback hask))

/-- A question from which a cycle is reached is never answered. -/
theorem within_of_reaches_cycle (n : Nat) (h : ReflTransGen Asks q q')
    (hq' : TransGen Asks q' q') : q.within n = .error .endless := by
  induction h using ReflTransGen.head_induction_on generalizing n with
  | refl => exact within_of_cycle n hq'
  | head hask _ ih =>
    cases n with
    | zero => rfl
    | succ n => exact hask.within_eq_endless (ih n)

/-- A question that is not grounded is never answered. -/
theorem within_of_not_grounded (n : Nat) (h : ¬ q.Grounded) : q.within n = .error .endless := by
  simp only [Grounded, Classical.not_forall, Classical.not_not] at h
  obtain ⟨q', hreached, hcycle⟩ := h
  exact within_of_reaches_cycle n hreached hcycle

/-! ## The questions in reach -/

/-- An endless search asks as many questions in a row as its bound allows. -/
theorem exists_chain (h : q.within n = .error .endless) :
    ∃ qs : List Question, qs.length = n ∧ (q :: qs).IsChain Asks := by
  induction n generalizing q with
  | zero => exact ⟨[], rfl, .singleton q⟩
  | succ n ih =>
    rcases within_succ_eq_error h with ⟨q', hask, hq'⟩ | ⟨hne, -⟩
    · obtain ⟨qs, hlength, hchain⟩ := ih hq'
      exact ⟨q' :: qs, congrArg (· + 1) hlength, .cons_cons hask hchain⟩
    · exact absurd rfl hne

/-- All questions of a chain are reached from its first one. -/
theorem reached_of_chain {qs : List Question} (h : (q :: qs).IsChain Asks) :
    ∀ q' ∈ q :: qs, ReflTransGen Asks q q' :=
  h.induction _ _ (fun _ _ hask hreached => hreached.tail hask) fun _ => .refl

/-- Without a way back all questions in a row are different. -/
theorem Grounded.nodup {qs : List Question} (hq : q.Grounded) (h : (q :: qs).IsChain Asks) :
    (q :: qs).Nodup := by
  have hpairs : (q :: qs).Pairwise (TransGen Asks) :=
    List.isChain_iff_pairwise.1 (h.imp fun _ _ => .single)
  refine hpairs.imp_of_mem fun {a b} ha _ hab heq => ?_
  subst heq
  exact hq a (reached_of_chain h a ha) hab

end Question

namespace Context

variable {ctx : Context} {e : Expr} {q q' : Question}

/-- The nodes that a classification of `e` can come to, and others. -/
def nodesInReach (ctx : Context) (e : Expr) : List Expr :=
  let bodies := ctx.targets.map (·.body) ++ ctx.file.settings.project.inlines.map (·.2.body)
  (e :: bodies).flatMap Expr.subterms

/-- The targets of a tree. -/
def innerTargets? : Expr → Option (List Target)
  | .decisionTree _ inner => some inner
  | _ => none

/-- The lists of targets that success nodes may select from. -/
def targetsInReach (ctx : Context) (e : Expr) : List (List Target) :=
  ctx.targets :: (ctx.nodesInReach e).filterMap innerTargets?

/-- The questions that the classification of `e` can ask, and others. -/
def questions (ctx : Context) (e : Expr) : List Question :=
  (ctx.targetsInReach e ×ˢ [false, true] ×ˢ ctx.nodesInReach e).map fun p => ⟨p.1, p.2.1, p.2.2⟩

/-- The questions in reach are those about nodes and targets in reach. -/
theorem mem_questions : q ∈ ctx.questions e ↔
    q.targets ∈ ctx.targetsInReach e ∧ q.expr ∈ ctx.nodesInReach e := by
  obtain ⟨targets, prefer, expr⟩ := q
  cases prefer <;> simp [questions]

/-- There are no more questions in reach than the depth of the context. -/
theorem length_questions (ctx : Context) (e : Expr) : (ctx.questions e).length ≤ ctx.depth e := by
  have htargets : (ctx.targetsInReach e).length ≤ ctx.nodes e + 1 :=
    Nat.succ_le_succ (List.length_filterMap_le _ _)
  have hlength : (ctx.questions e).length = (ctx.targetsInReach e).length * (2 * ctx.nodes e) := by
    simp only [questions, List.length_map, List.length_product, List.length_cons, List.length_nil]
    rfl
  have hfactor : 2 * ctx.nodes e ≤ 8 * (ctx.nodes e + 1) := by omega
  rw [hlength, depth, Nat.mul_left_comm 8]
  exact Nat.mul_le_mul htargets hfactor

/-- A child of a node in reach is in reach. -/
theorem child_mem_nodesInReach {c d : Expr} (hd : d ∈ ctx.nodesInReach e) (hc : c ∈ d.children) :
    c ∈ ctx.nodesInReach e := by
  obtain ⟨body, hbody, hd⟩ := List.mem_flatMap.1 hd
  exact List.mem_flatMap.2
    ⟨body, hbody, Expr.subterms_trans (Expr.mem_subterms_of_child hc) hd⟩

/-- The body of a target in reach is in reach. -/
theorem body_mem_nodesInReach {targets : List Target} {t : Target}
    (h : targets ∈ ctx.targetsInReach e) (ht : t ∈ targets) : t.body ∈ ctx.nodesInReach e := by
  rcases List.mem_cons.1 h with rfl | h
  · refine List.mem_flatMap.2 ⟨t.body, ?_, t.body.self_mem_subterms⟩
    exact List.mem_cons_of_mem _ (List.mem_append_left _ (List.mem_map_of_mem ht))
  · obtain ⟨d, hd, hinner⟩ := List.mem_filterMap.1 h
    cases d with
    | decisionTree dispatcher inner =>
      obtain rfl := Option.some.inj hinner
      exact child_mem_nodesInReach hd (List.mem_cons_of_mem _ (List.mem_map_of_mem ht))
    | _ => nomatch hinner

/-- A question in reach asks questions in reach. -/
theorem mem_questions_of_asks (hq : q ∈ ctx.questions e) (h : q.Asks q') :
    q' ∈ ctx.questions e := by
  rw [mem_questions] at hq ⊢
  obtain ⟨htargets, hexpr⟩ := hq
  cases h with
  | cast => exact ⟨htargets, child_mem_nodesInReach hexpr List.mem_cons_self⟩
  | thenBranch => exact ⟨htargets, child_mem_nodesInReach hexpr (.tail _ (.head _))⟩
  | elseBranch => exact ⟨htargets, child_mem_nodesInReach hexpr (.tail _ (.tail _ (.head _)))⟩
  | dispatcher =>
    exact ⟨List.mem_cons_of_mem _ (List.mem_filterMap.2 ⟨_, hexpr, rfl⟩),
      child_mem_nodesInReach hexpr List.mem_cons_self⟩
  | target =>
    exact ⟨htargets, child_mem_nodesInReach hexpr (List.mem_cons_of_mem _ (by simp))⟩
  | selected ht =>
    exact ⟨htargets, body_mem_nodesInReach htargets (List.mem_of_getElem? ht)⟩

/-- The question that the classification of `e` answers. -/
def question (ctx : Context) (prefer : Bool) (e : Expr) : Question :=
  ⟨ctx.targets, prefer, e⟩

/-- All questions that are asked on the way are in reach. -/
theorem reached_mem_questions {prefer : Bool}
    (h : ReflTransGen Question.Asks (ctx.question prefer e) q) : q ∈ ctx.questions e := by
  induction h with
  | refl =>
    exact mem_questions.2
      ⟨List.mem_cons_self, List.mem_flatMap.2 ⟨e, List.mem_cons_self, e.self_mem_subterms⟩⟩
  | tail _ hask ih => exact mem_questions_of_asks ih hask

/-- The target that a success node selects. -/
def selectedIndex? : Expr → Option Nat
  | .success index _ _ => some index
  | _ => none

/-- Success nodes have their targets if all lists in reach are long enough for all of them. -/
theorem resolves_of_reached {prefer : Bool}
    (h : ∀ index ∈ (ctx.nodesInReach e).filterMap selectedIndex?,
      ∀ targets ∈ ctx.targetsInReach e, index < targets.length)
    (hq : ReflTransGen Question.Asks (ctx.question prefer e) q) : q.Resolves := by
  intro index values ty heq
  obtain ⟨htargets, hexpr⟩ := mem_questions.1 (reached_mem_questions hq)
  exact h index (List.mem_filterMap.2 ⟨_, hexpr, by rw [heq]; rfl⟩) q.targets htargets

end Context

/-- The bound on the depth is enough where no question leads back to itself: an endless search asks
more questions in a row than there are in reach. -/
theorem isStatement_eq_endless {ctx : Context} {prefer : Bool} {e : Expr} :
    isStatement ctx prefer e = .error .endless ↔ ¬ (ctx.question prefer e).Grounded := by
  constructor
  · intro h hgrounded
    obtain ⟨qs, hlength, hchain⟩ := Question.exists_chain (q := ctx.question prefer e) h
    have hsubset : ctx.question prefer e :: qs ⊆ ctx.questions e := fun q hq =>
      Context.reached_mem_questions (Question.reached_of_chain hchain q hq)
    have hle := (List.subperm_of_subset (hgrounded.nodup hchain) hsubset).length_le
    have hbound := Context.length_questions ctx e
    rw [List.length_cons, hlength] at hle
    omega
  · exact Question.within_of_not_grounded _

/-- A search that fails without being endless has come to a success node without a target. -/
theorem Question.exists_not_resolves {n : Nat} {q : Question} {err : LowerError}
    (h : q.within n = .error err) (herr : err ≠ .endless) :
    ∃ q', ReflTransGen Question.Asks q q' ∧ ¬ q'.Resolves := by
  induction n generalizing q with
  | zero => exact absurd (Except.error.inj h).symm herr
  | succ n ih =>
    rcases Question.within_succ_eq_error h with ⟨q', hask, hq'⟩ | ⟨-, hq⟩
    · obtain ⟨q'', hreached, hq''⟩ := ih hq'
      exact ⟨q'', hreached.head hask, hq''⟩
    · exact ⟨q, .refl, hq⟩

/-- Where each success node that is come to has its target, the classification returns an answer
exactly if no question on the way leads back to itself. It is the answer that is found after
finitely many steps, however many these are. -/
theorem isStatement_returns_iff {ctx : Context} {prefer : Bool} {e : Expr}
    (h : ∀ q, ReflTransGen Question.Asks (ctx.question prefer e) q → q.Resolves) :
    ((∃ b, isStatement ctx prefer e = .ok b) ↔ (ctx.question prefer e).Grounded) ∧
    ∀ b, isStatement ctx prefer e = .ok b ↔
      ∃ n, isStatementWithin n ctx.targets prefer e = .ok b := by
  refine ⟨⟨?_, fun hgrounded => ?_⟩, fun b => ⟨fun hb => ⟨_, hb⟩, fun hb => ?_⟩⟩
  · rintro ⟨b, hb⟩
    by_contra hcycle
    exact nomatch hb.symm.trans (isStatement_eq_endless.2 hcycle)
  · rcases hanswer : isStatement ctx prefer e with err | b
    · by_cases herr : err = .endless
      · exact absurd hgrounded (isStatement_eq_endless.1 (herr ▸ hanswer))
      · obtain ⟨q, hreached, hq⟩ :=
          Question.exists_not_resolves (q := ctx.question prefer e) hanswer herr
        exact absurd (h q hreached) hq
    · exact ⟨b, rfl⟩
  · refine Question.Answers.within_eq (q := ctx.question prefer e) hb fun hendless => ?_
    obtain ⟨n, hn⟩ := hb
    exact nomatch hn.symm.trans
      (Question.within_of_not_grounded n (isStatement_eq_endless.1 hendless))

/-! ## Two trees -/

/-- The first of two targets goes on with the second one. -/
def forwardTargets : List Target :=
  [⟨[], .success 1 [] .boolean⟩, ⟨[], .ident (flag "a")⟩]

/-- A dispatcher that chooses between them. -/
def forwardEnd : Expr :=
  .ifThenElse (.ident (flag "c")) (.success 0 [] .boolean) (.success 1 [] .boolean) none

/-- The context of that dispatcher. -/
def forwardContext : Context := (Context.ofFile bareFile).withTargets forwardTargets

/-- Both success nodes come to the same body, and none of the questions on the way comes back. -/
theorem forwardEnd_returns :
    (∀ q, ReflTransGen Question.Asks (forwardContext.question false forwardEnd) q → q.Resolves) ∧
      isStatement forwardContext false forwardEnd = .ok false ∧
      (forwardContext.question false forwardEnd).Grounded := by
  have hresolves : ∀ q,
      ReflTransGen Question.Asks (forwardContext.question false forwardEnd) q → q.Resolves :=
    fun _ => Context.resolves_of_reached (by decide)
  have hanswer : isStatement forwardContext false forwardEnd = .ok false := rfl
  exact ⟨hresolves, hanswer, (isStatement_returns_iff hresolves).1.1 ⟨false, hanswer⟩⟩

/-- A tree whose only target goes on with the first target of the tree around. -/
def handOver : Expr :=
  .decisionTree (.success 0 [] .boolean) [⟨[], .success 0 [] .boolean⟩]

/-- That target has a body without success nodes. -/
def handOverContext : Context :=
  (Context.ofFile bareFile).withTargets [⟨[], .ident (flag "a")⟩]

/-- All success nodes have targets, and outside of the tree the body of its target is classified. In
the tree the classification takes the body for a success node of the tree itself, so that it never
returns. -/
theorem nestedTarget_endless :
    (∀ q, ReflTransGen Question.Asks (handOverContext.question false handOver) q → q.Resolves) ∧
      isStatement handOverContext false (.success 0 [] .boolean) = .ok false ∧
      ∀ n, isStatementWithin n handOverContext.targets false handOver = .error .endless := by
  let again : Question := ⟨[⟨[], .success 0 [] .boolean⟩], false, .success 0 [] .boolean⟩
  have hagain : again.Asks again := .selected (t := ⟨[], .success 0 [] .boolean⟩) rfl
  exact ⟨fun _ => Context.resolves_of_reached (by decide), rfl, fun n =>
    Question.within_of_reaches_cycle n (.single .dispatcher) (.single hagain)⟩

end TypedLowering
