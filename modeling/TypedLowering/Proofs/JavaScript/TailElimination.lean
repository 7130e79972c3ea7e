import TypedLowering.Proofs.LoopJumps
import TypedLowering.Proofs.Lowering.Dispatcher

/-!
# Every self tail call becomes a jump

The tail positions of a function are those that its value comes from: casts, branches of
conditionals, bodies of lets, last items of sequences and targets of decision trees lead to them
from the body (`TailPosition`). A success node selects a target of the tree that it belongs to, and
the body of the target belongs to the tree around. With a loop around, a node in tail position is
lowered to statements all the way down to these positions (`TailCode`), so a function with
parameters that calls itself in a tail position is a loop, and none of these calls is left
(`function_eliminatesTailCalls`).

A target that is selected in place is lowered with the targets of its own tree in force instead of
those of the tree around. So the bodies of such targets must not end in success nodes of a tree
around (`SelectsInside`); where one does, the wrong target is lowered, and a self call in the right
one is lost (`nestedRetry_isLost`).
-/

namespace TypedLowering

namespace Ir.Expr

/-- The nodes that the body of a function ends with, each with the lists of targets that success
nodes select from there: those of the trees around, innermost first. A tree whose targets are
selected once each goes on with them in place, after the success nodes of its dispatcher. A tree
with shared targets goes on with all of them after its dispatcher. Either way the body of a target
stands where the tree does, outside of the tree. -/
inductive TailPosition : List (List Target) → Expr → List (List Target) → Expr → Prop
  | here {trees : List (List Target)} {e : Expr} : TailPosition trees e trees e
  | cast {trees trees' : List (List Target)} {inner d : Expr} {ty : Ty} :
    TailPosition trees inner trees' d → TailPosition trees (.cast inner ty) trees' d
  | thenBranch {trees trees' : List (List Target)} {guard thenExpr elseExpr d : Expr}
      {loc : Option Location} :
    TailPosition trees thenExpr trees' d →
      TailPosition trees (.ifThenElse guard thenExpr elseExpr loc) trees' d
  | elseBranch {trees trees' : List (List Target)} {guard thenExpr elseExpr d : Expr}
      {loc : Option Location} :
    TailPosition trees elseExpr trees' d →
      TailPosition trees (.ifThenElse guard thenExpr elseExpr loc) trees' d
  | letBody {trees trees' : List (List Target)} {id : Ident} {value body d : Expr} :
    TailPosition trees body trees' d → TailPosition trees (.letIn id value body) trees' d
  | letRecBody {trees trees' : List (List Target)} {bindings : List Binding} {body d : Expr} :
    TailPosition trees body trees' d → TailPosition trees (.letRec bindings body) trees' d
  | lastItem {trees trees' : List (List Target)} {es : List Expr} {last d : Expr} :
    TailPosition trees last trees' d → TailPosition trees (.sequence (es ++ [last])) trees' d
  | dispatcher {trees trees' : List (List Target)} {inner : List Target} {dispatcher d : Expr} :
    dispatcher.sharedTargets inner.length = [] →
      TailPosition (inner :: trees) dispatcher trees' d →
      TailPosition trees (.decisionTree dispatcher inner) trees' d
  | target {trees trees' : List (List Target)} {inner : List Target} {dispatcher d : Expr}
      {t : Target} :
    dispatcher.sharedTargets inner.length ≠ [] → t ∈ inner → TailPosition trees t.body trees' d →
      TailPosition trees (.decisionTree dispatcher inner) trees' d
  | selected {targets : List Target} {trees trees' : List (List Target)} {index : Nat}
      {values : List Expr} {ty : Ty} {d : Expr} {t : Target} :
    targets[index]? = some t → TailPosition trees t.body trees' d →
      TailPosition (targets :: trees) (.success index values ty) trees' d

/-- An expression with no success node of a tree around in tail position. -/
def SelectsInside (e : Expr) : Prop :=
  ∀ index values ty, ¬ TailPosition [] e [] (.success index values ty)

/-- Whether no target that is selected in place, in tail position, ends in success nodes of a tree
around. -/
def BodiesSelectInside (trees : List (List Target)) (e : Expr) : Prop :=
  ∀ targets rest index values ty t,
    TailPosition trees e (targets :: rest) (.success index values ty) →
      targets[index]? = some t → t.body.SelectsInside

/-- What selects no target of a tree around has no part that does. -/
theorem SelectsInside.part {e d : Expr} (h : e.SelectsInside)
    (hd : ∀ {trees c}, TailPosition [] d trees c → TailPosition [] e trees c) : d.SelectsInside :=
  fun index values ty hc => h index values ty (hd hc)

/-- If no target that is selected in a node leads out, then neither does one selected in a part of
it. -/
theorem BodiesSelectInside.part {trees trees' : List (List Target)} {e d : Expr}
    (h : BodiesSelectInside trees e)
    (hd : ∀ {inner c}, TailPosition trees' d inner c → TailPosition trees e inner c) :
    BodiesSelectInside trees' d :=
  fun targets rest index values ty t hc => h targets rest index values ty t (hd hc)

/-- Whether success nodes in tail position that select from the innermost of these trees find
their targets in that list, all the way down. -/
structure SelectsFrom (targets : List Target) (trees : List (List Target)) (e : Expr) : Prop where
  own : trees.head? = some targets ∨ e.SelectsInside
  bodies : BodiesSelectInside trees e

namespace SelectsFrom

variable {targets : List Target} {trees : List (List Target)}

/-- If a node selects from the targets, then so does a part of it. -/
theorem part {e d : Expr} (h : SelectsFrom targets trees e)
    (hd : ∀ {trees inner c}, TailPosition trees d inner c → TailPosition trees e inner c) :
    SelectsFrom targets trees d :=
  ⟨h.own.imp_right fun hin => hin.part hd, h.bodies.part hd⟩

/-- In the dispatcher of a tree the targets of the tree are in force. -/
theorem dispatcher {inner : List Target} {d : Expr}
    (h : SelectsFrom targets trees (.decisionTree d inner))
    (hplain : d.sharedTargets inner.length = []) : SelectsFrom inner (inner :: trees) d :=
  ⟨.inl rfl, h.bodies.part (.dispatcher hplain)⟩

/-- A success node selects its target from the innermost tree, whose body ends in no success node
of a tree around. -/
theorem selected {index : Nat} {values : List Expr} {ty : Ty} {t : Target}
    (h : SelectsFrom targets trees (.success index values ty)) (ht : targets[index]? = some t) :
    ∃ rest, trees = targets :: rest ∧ ∀ targets', SelectsFrom targets' rest t.body := by
  have hown : trees.head? = some targets :=
    h.own.resolve_right fun hin => hin index values ty .here
  obtain ⟨rest, rfl⟩ := List.head?_eq_some_iff.1 hown
  exact ⟨rest, rfl, fun _ => ⟨.inr (h.bodies targets rest index values ty t .here ht),
    h.bodies.part (.selected ht)⟩⟩

end SelectsFrom

/-- Whether other nodes in tail position may stand inside. -/
def passesTail : Expr → Bool
  | .cast .. | .ifThenElse .. | .letIn .. | .letRec .. | .decisionTree .. | .success .. => true
  | .sequence es => !es.isEmpty
  | _ => false

end Ir.Expr

namespace TailCall

/-- Whether the node is a call of the function itself, without a receiver, and with an argument for
each slot. -/
def IsSelfCall (loop : TailCall) : Ir.Expr → Prop
  | .call callee none args false _ _ =>
    loop.isSelf callee = true ∧ (discardUnitArg args).length = loop.slots.length
  | _ => False

/-- Whether a self call stands in tail position. -/
def Recurs (loop : TailCall) (trees : List (List Ir.Target)) (e : Ir.Expr) : Prop :=
  ∃ inner d, Ir.Expr.TailPosition trees e inner d ∧ loop.IsSelfCall d

/-- In tail position all self calls are recognized. -/
theorem recognizes_iff {ε : Type} {loop : TailCall} {strategy : Strategy ε}
    (htail : strategy.isTail = true) {callee : Ir.Expr} {receiver : Option Ir.Expr}
    {args : List Ir.Expr} {isNew : Bool} (ty : Ir.Ty) (loc : Option Ir.Location) :
    loop.recognizes strategy callee receiver args isNew = true ↔
      loop.IsSelfCall (.call callee receiver args isNew ty loc) := by
  cases receiver <;> cases isNew <;> simp [recognizes, IsSelfCall, htail]

/-- A node that no tail position stands inside recurs only if it is a self call. -/
theorem Recurs.isSelfCall {loop : TailCall} {trees : List (List Ir.Target)} {e : Ir.Expr}
    (h : loop.Recurs trees e) (he : e.passesTail = false) : loop.IsSelfCall e := by
  obtain ⟨_, d, hd, hself⟩ := h
  cases hd with
  | here => exact hself
  | lastItem => simp [Ir.Expr.passesTail] at he
  | _ => cases he

end TailCall

namespace JavaScript

open Control Lower

/-- Statements that do not leave the statement list other than by raising. -/
abbrev Proceeds (stmts : List Stmt) : Prop :=
  Obeys false noJumps (flows stmts)

/-- How the arguments of a self call are written to the slots. -/
def WritesSlots (loop : TailCall) (args : List Ir.Expr) (stmts : List Stmt) : Prop :=
  ∃ n ctx s t, (rules n).slotWrites ctx loop.bindings (discardUnitArg args) s = (.ok stmts, t)

mutual

/-- The statements of a node in tail position, with a loop around: each self call in tail position
writes the slots and jumps to the loop. -/
inductive TailCode (loop : TailCall) : List (List Ir.Target) → Ir.Expr → List Stmt → Prop
  | jump {trees : List (List Ir.Target)} {callee : Ir.Expr} {args : List Ir.Expr} {ty : Ir.Ty}
      {loc : Option Ir.Location} {writes : List Stmt} :
    loop.IsSelfCall (.call callee none args false ty loc) → WritesSlots loop args writes →
      TailCode loop trees (.call callee none args false ty loc)
        (writes ++ [.of (.continueTo (some loop.label))])
  | cast {trees : List (List Ir.Target)} {inner : Ir.Expr} {ty : Ir.Ty} {stmts : List Stmt} :
    TailCode loop trees inner stmts → TailCode loop trees (.cast inner ty) stmts
  | conditional {trees : List (List Ir.Target)} {guard thenExpr elseExpr : Ir.Expr}
      {loc : Option Ir.Location} {test : Expr} {thenStmts elseStmts : List Stmt} :
    TailCode loop trees thenExpr thenStmts → TailCode loop trees elseExpr elseStmts →
      TailCode loop trees (.ifThenElse guard thenExpr elseExpr loc)
        [⟨loc, .ifElse test thenStmts elseStmts⟩]
  | letBody {trees : List (List Ir.Target)} {id : Ir.Ident} {value body : Ir.Expr}
      {before stmts : List Stmt} :
    Proceeds before → TailCode loop trees body stmts →
      TailCode loop trees (.letIn id value body) (before ++ stmts)
  | letRecBody {trees : List (List Ir.Target)} {bindings : List Ir.Binding} {body : Ir.Expr}
      {before stmts : List Stmt} :
    Proceeds before → TailCode loop trees body stmts →
      TailCode loop trees (.letRec bindings body) (before ++ stmts)
  | lastItem {trees : List (List Ir.Target)} {es : List Ir.Expr} {last : Ir.Expr}
      {before stmts : List Stmt} :
    Proceeds before → TailCode loop trees last stmts →
      TailCode loop trees (.sequence (es ++ [last])) (before ++ stmts)
  | dispatcher {trees : List (List Ir.Target)} {inner : List Ir.Target} {dispatcher : Ir.Expr}
      {stmts : List Stmt} :
    dispatcher.sharedTargets inner.length = [] → TailCode loop (inner :: trees) dispatcher stmts →
      TailCode loop trees (.decisionTree dispatcher inner) stmts
  | switch {trees : List (List Ir.Target)} {inner : List Ir.Target} {dispatcher : Ir.Expr}
      {before : List Stmt} {join : String} {cases : List SwitchCase} :
    dispatcher.sharedTargets inner.length ≠ [] → Proceeds before →
      TailCases loop trees inner cases →
        TailCode loop trees (.decisionTree dispatcher inner)
          (before ++ [.of (.switch (.ident join) cases)])
  | selected {targets : List Ir.Target} {trees : List (List Ir.Target)} {index : Nat}
      {values : List Ir.Expr} {ty : Ir.Ty} {t : Ir.Target} {before stmts : List Stmt} :
    targets[index]? = some t → Proceeds before → TailCode loop trees t.body stmts →
      TailCode loop (targets :: trees) (.success index values ty) (before ++ stmts)
  | other {trees : List (List Ir.Target)} {e : Ir.Expr} {stmts : List Stmt} :
    e.passesTail = false → ¬ loop.IsSelfCall e → TailCode loop trees e stmts

/-- The cases of a `switch` over the targets of a tree in tail position, in order. -/
inductive TailCases (loop : TailCall) :
    List (List Ir.Target) → List Ir.Target → List SwitchCase → Prop
  | nil {trees : List (List Ir.Target)} : TailCases loop trees [] []
  | cons {trees : List (List Ir.Target)} {t : Ir.Target} {ts : List Ir.Target}
      {test : Option Expr} {stmts exit : List Stmt} {cases : List SwitchCase} :
    TailCode loop trees t.body stmts → exit = [] ∨ exit = [.of (.breakTo none)] →
      TailCases loop trees ts cases →
        TailCases loop trees (t :: ts) (⟨test, stmts ++ exit⟩ :: cases)

end

/-- Whether nodes in tail position are lowered as such, to that depth, and whether then the loop is
used if there is a self call. -/
def Eliminates (n : Nat) : Prop :=
  ∀ {ctx : Context} {strategy : Strategy Expr} {e : Ir.Expr} {s t : LowerState} {stmts : List Stmt}
    {loop : TailCall},
    (rules n).stmts ctx strategy e s = (.ok stmts, t) → ctx.tailCall = some loop →
      strategy.isTail = true → ∀ {trees : List (List Ir.Target)},
        Ir.Expr.SelectsFrom ctx.targets trees e →
        TailCode loop trees e stmts ∧ (loop.Recurs trees e → t.looped = true)

section

variable {n : Nat} {ctx : Context} {strategy : Strategy Expr} {e : Ir.Expr} {s t : LowerState}
  {stmts : List Stmt} {loop : TailCall} {trees : List (List Ir.Target)}

/-! ## One rule at a time -/

/-- A self tail call is lowered to a jump. -/
theorem tailCall_eliminates {callee : Ir.Expr} {receiver : Option Ir.Expr} {args : List Ir.Expr}
    {isNew : Bool} {ty : Ir.Ty} {loc : Option Ir.Location}
    (hself : loop.IsSelfCall (.call callee receiver args isNew ty loc))
    (h : (rules n).tailCall ctx loop args s = (.ok stmts, t)) :
    TailCode loop trees (.call callee receiver args isNew ty loc) stmts ∧ t.looped = true := by
  simp only [Parts.tailCall, bind_eq_ok, pure_eq_ok, markLooped_eq_ok] at h
  obtain ⟨_, u, rfl, writes, v, hwrites, rfl, rfl⟩ := h
  have hlooped := (((rules_grow n).slotWrites _ _ _).grows hwrites).looped rfl
  cases receiver with
  | some => exact hself.elim
  | none =>
    cases isNew with
    | true => exact hself.elim
    | false => exact ⟨.jump hself ⟨n, ctx, _, _, hwrites⟩, hlooped⟩

/-- A node without tail positions inside. -/
theorem other_eliminates (he : e.passesTail = false) (hself : ¬ loop.IsSelfCall e) :
    TailCode loop trees e stmts ∧ (loop.Recurs trees e → t.looped = true) :=
  ⟨.other he hself, fun hrec => absurd (hrec.isSelfCall he) hself⟩

variable (ih : Eliminates n) (hctx : ctx.tailCall = some loop) (htail : strategy.isTail = true)
include ih hctx htail

/-- The tail calls of both branches become jumps. -/
theorem conditional_eliminates {guard thenExpr elseExpr : Ir.Expr} {loc : Option Ir.Location}
    (h : (rules n).conditional ctx strategy guard thenExpr elseExpr loc s = (.ok stmts, t))
    (hfrom : Ir.Expr.SelectsFrom ctx.targets trees (.ifThenElse guard thenExpr elseExpr loc)) :
    TailCode loop trees (.ifThenElse guard thenExpr elseExpr loc) stmts ∧
      (loop.Recurs trees (.ifThenElse guard thenExpr elseExpr loc) → t.looped = true) := by
  simp only [Parts.conditional, bind_eq_ok, pure_eq_ok] at h
  obtain ⟨test, u, -, thenStmts, v, hthen, elseStmts, w, helse, rfl, rfl⟩ := h
  obtain ⟨hthenCode, hthenLooped⟩ := ih hthen hctx htail (hfrom.part .thenBranch)
  obtain ⟨helseCode, helseLooped⟩ := ih helse hctx htail (hfrom.part .elseBranch)
  refine ⟨.conditional hthenCode helseCode, ?_⟩
  rintro ⟨_, d, hd, hself⟩
  cases hd with
  | here => exact hself.elim
  | thenBranch hd =>
    exact (((rules_grow n).stmts _ _ _).grows helse).looped (hthenLooped ⟨_, d, hd, hself⟩)
  | elseBranch hd => exact helseLooped ⟨_, d, hd, hself⟩

/-- The tail calls of the last item become jumps, and the other items do not matter. -/
theorem sequence_eliminates {es : List Ir.Expr} {last : Ir.Expr}
    (h : (rules n).sequence ctx strategy (es ++ [last]) s = (.ok stmts, t))
    (hfrom : Ir.Expr.SelectsFrom ctx.targets trees last) :
    ∃ before rest, stmts = before ++ rest ∧ Proceeds before ∧
      TailCode loop trees last rest ∧ (loop.Recurs trees last → t.looped = true) := by
  induction es generalizing s stmts with
  | nil =>
    obtain ⟨hcode, hlooped⟩ := ih h hctx htail hfrom
    exact ⟨[], stmts, rfl, .nil, hcode, hlooped⟩
  | cons e es ihs =>
    have hcons : (rules n).sequence ctx strategy (e :: es ++ [last]) = (do
        let first ← (rules n).stmts ctx.withoutTailCall .effect e
        let rest ← (rules n).sequence ctx strategy (es ++ [last])
        return first ++ rest) := by
      cases es <;> rfl
    rw [hcons] at h
    simp only [bind_eq_ok, pure_eq_ok] at h
    obtain ⟨first, u, hfirst, rest, _, hrest, rfl, rfl⟩ := h
    obtain ⟨before, rest, rfl, hbefore, hcode, hlooped⟩ := ihs hrest
    refine ⟨first ++ before, rest, (List.append_assoc ..).symm, ?_, hcode, hlooped⟩
    rw [Proceeds, flows_append]
    exact (plain_obeys (rules_obey n) hfirst).append hbefore

/-- The tail calls of the targets become jumps in their cases. -/
theorem cases_eliminate {index : Nat} {ts : List Ir.Target} {cases : List SwitchCase}
    (h : (rules n).cases ctx strategy index ts s = (.ok cases, t))
    (hfrom : ∀ target ∈ ts, Ir.Expr.SelectsFrom ctx.targets trees target.body) :
    TailCases loop trees ts cases ∧
      ((∃ target ∈ ts, loop.Recurs trees target.body) → t.looped = true) := by
  induction ts generalizing index s cases with
  | nil =>
    obtain ⟨rfl, -⟩ := pure_eq_ok.1 h
    exact ⟨.nil, nofun⟩
  | cons target ts ihs =>
    simp only [Parts.cases, bind_eq_ok, pure_eq_ok] at h
    obtain ⟨body, u, hbody, rest, v, hrest, rfl, rfl⟩ := h
    obtain ⟨hcode, hlooped⟩ := ih hbody hctx htail (hfrom target List.mem_cons_self)
    obtain ⟨hcases, hrestLooped⟩ := ihs hrest fun t' ht' => hfrom t' (List.mem_cons_of_mem _ ht')
    refine ⟨.cons hcode ?_ hcases, ?_⟩
    · cases strategy with
      | ret => exact .inl rfl
      | effect | assign | join => exact .inr rfl
    · rintro ⟨t', ht', hrec⟩
      rcases List.mem_cons.1 ht' with rfl | ht'
      · exact (((rules_grow n).cases _ _ _ _).grows hrest).looped (hlooped hrec)
      · exact hrestLooped ⟨t', ht', hrec⟩

/-- The tail calls of a decision tree become jumps, in place or behind a switch. -/
theorem decisionTree_eliminates {dispatcher : Ir.Expr} {targets : List Ir.Target}
    (h : (rules n).decisionTree ctx strategy dispatcher targets s = (.ok stmts, t))
    (hfrom : Ir.Expr.SelectsFrom ctx.targets trees (.decisionTree dispatcher targets)) :
    TailCode loop trees (.decisionTree dispatcher targets) stmts ∧
      (loop.Recurs trees (.decisionTree dispatcher targets) → t.looped = true) := by
  rw [Parts.decisionTree] at h
  split at h
  · rename_i hplain
    have hplain := List.isEmpty_iff.1 hplain
    obtain ⟨hcode, hlooped⟩ := ih h hctx htail (hfrom.dispatcher hplain)
    refine ⟨.dispatcher hplain hcode, ?_⟩
    rintro ⟨_, d, hd, hself⟩
    cases hd with
    | here => exact hself.elim
    | dispatcher _ hd => exact hlooped ⟨_, d, hd, hself⟩
    | target hshared => exact absurd hplain hshared
  · rename_i hshared
    have hshared := mt List.isEmpty_iff.2 hshared
    simp only [bind_eq_ok, pure_eq_ok] at h
    obtain ⟨join, u, -, dispatch, v, hdispatch, cases, _, hcases, rfl, rfl⟩ := h
    obtain ⟨hcode, hlooped⟩ := cases_eliminate ih hctx htail hcases
      fun t ht => hfrom.part (.target hshared ht)
    refine ⟨.switch hshared ?_ hcode, ?_⟩
    · simp only [Proceeds, List.cons_append, flows_cons, flows_append]
      exact .cons (.step _) ((targetVariables_obey ctx targets).append
        (plain_obeys (rules_obey n) hdispatch))
    · rintro ⟨_, d, hd, hself⟩
      cases hd with
      | here => exact hself.elim
      | dispatcher hplain => exact absurd hplain hshared
      | target _ ht hd => exact hlooped ⟨_, ht, _, d, hd, hself⟩

/-- The tail calls of a selected target become jumps. -/
theorem success_eliminates {index : Nat} {values : List Ir.Expr} {ty : Ir.Ty}
    (h : (rules n).success ctx strategy index values s = (.ok stmts, t))
    (hfrom : Ir.Expr.SelectsFrom ctx.targets trees (.success index values ty)) :
    TailCode loop trees (.success index values ty) stmts ∧
      (loop.Recurs trees (.success index values ty) → t.looped = true) := by
  simp only [Parts.success, bind_eq_ok, Parts.target, ofOption_eq_ok] at h
  obtain ⟨target, u, ⟨htarget, rfl⟩, h⟩ := h
  -- In tail position the target stands in place: its index is not stored.
  have hinline : ∃ first u rest, (rules n).bindings ctx target.bound values s = (.ok first, u) ∧
      (rules n).stmts ctx strategy target.body u = (.ok rest, t) ∧ stmts = first ++ rest := by
    cases strategy with
    | ret | effect =>
      simp only [bind_eq_ok, pure_eq_ok] at h
      obtain ⟨first, u, hfirst, rest, _, hrest, rfl, rfl⟩ := h
      exact ⟨first, u, rest, hfirst, hrest, rfl⟩
    | assign | join => cases htail
  obtain ⟨first, u, rest, hfirst, hrest, rfl⟩ := hinline
  obtain ⟨outer, rfl, hbody⟩ := hfrom.selected htarget
  obtain ⟨hcode, hlooped⟩ := ih hrest hctx htail (hbody _)
  refine ⟨.selected htarget (bindings_obeys (rules_obey n) hfirst) hcode, ?_⟩
  rintro ⟨_, d, hd, hself⟩
  cases hd with
  | here => exact hself.elim
  | selected ht hd =>
    obtain rfl := Option.some.inj (htarget.symm.trans ht)
    exact hlooped ⟨_, d, hd, hself⟩

/-- The tail calls of a node become jumps if those of its parts do. -/
theorem stmtsRule_eliminates (h : (rules n).stmtsRule ctx strategy e s = (.ok stmts, t))
    (hfrom : Ir.Expr.SelectsFrom ctx.targets trees e) :
    TailCode loop trees e stmts ∧ (loop.Recurs trees e → t.looped = true) := by
  cases e with
  | cast inner ty =>
    obtain ⟨hcode, hlooped⟩ := ih h hctx htail (hfrom.part .cast)
    refine ⟨.cast hcode, ?_⟩
    rintro ⟨_, d, hd, hself⟩
    cases hd with
    | here => exact hself.elim
    | cast hd => exact hlooped ⟨_, d, hd, hself⟩
  | call callee receiver args isNew ty loc =>
    have hself : loop.recognizes strategy callee receiver args isNew = true ↔
        loop.IsSelfCall (.call callee receiver args isNew ty loc) :=
      TailCall.recognizes_iff htail ty loc
    cases hrec : loop.recognizes strategy callee receiver args isNew with
    | true =>
      have hcall : ctx.selfTailCall? strategy callee receiver args isNew = some loop := by
        rw [Context.selfTailCall?, hctx]
        exact Option.filter_some_pos hrec
      simp only [Parts.stmtsRule, hcall] at h
      obtain ⟨hcode, hlooped⟩ := tailCall_eliminates (hself.1 hrec) h
      exact ⟨hcode, fun _ => hlooped⟩
    | false => exact other_eliminates rfl fun h => Bool.false_ne_true (hrec.symm.trans (hself.2 h))
  | ifThenElse guard thenExpr elseExpr loc =>
    have hprefers : Parts.prefersStatement ctx strategy = true := by
      cases strategy with
      | ret | assign => rw [Parts.prefersStatement, hctx]; rfl
      | effect | join => rfl
    simp only [Parts.stmtsRule, bind_eq_ok, isStatement_eq_ok, hprefers,
      isStatement_of_prefers] at h
    obtain ⟨_, _, ⟨⟨⟩, rfl⟩, h⟩ := h
    exact conditional_eliminates ih hctx htail h hfrom
  | decisionTree dispatcher targets => exact decisionTree_eliminates ih hctx htail h hfrom
  | success index values ty => exact success_eliminates ih hctx htail h hfrom
  | letIn id value body =>
    simp only [Parts.stmtsRule, bind_eq_ok, pure_eq_ok] at h
    obtain ⟨first, u, hfirst, rest, _, hrest, rfl, rfl⟩ := h
    obtain ⟨hcode, hlooped⟩ := ih hrest hctx htail (hfrom.part .letBody)
    refine ⟨.letBody (declare_obeys (rules_obey n) hfirst) hcode, ?_⟩
    rintro ⟨_, d, hd, hself⟩
    cases hd with
    | here => exact hself.elim
    | letBody hd => exact hlooped ⟨_, d, hd, hself⟩
  | letRec bindings body =>
    simp only [Parts.stmtsRule, bind_eq_ok, pure_eq_ok] at h
    obtain ⟨first, u, hfirst, rest, _, hrest, rfl, rfl⟩ := h
    obtain ⟨hcode, hlooped⟩ := ih hrest hctx htail (hfrom.part .letRecBody)
    refine ⟨.letRecBody (recursive_obeys (rules_obey n) hfirst) hcode, ?_⟩
    rintro ⟨_, d, hd, hself⟩
    cases hd with
    | here => exact hself.elim
    | letRecBody hd => exact hlooped ⟨_, d, hd, hself⟩
  | sequence exprs =>
    rcases List.eq_nil_or_concat' exprs with rfl | ⟨es, last, rfl⟩
    · exact other_eliminates rfl id
    · obtain ⟨before, rest, rfl, hbefore, hcode, hlooped⟩ :=
        sequence_eliminates ih hctx htail h (hfrom.part .lastItem)
      refine ⟨.lastItem hbefore hcode, ?_⟩
      rintro ⟨_, d, hd, hself⟩
      generalize hseq : Ir.Expr.sequence (es ++ [last]) = seq at hd
      cases hd with
      | here => exact (hseq ▸ hself : loop.IsSelfCall (.sequence _)).elim
      | lastItem hd =>
        obtain ⟨-, heq⟩ := List.append_inj' (Ir.Expr.sequence.inj hseq) rfl
        obtain rfl := List.singleton_inj.1 heq
        exact hlooped ⟨_, d, hd, hself⟩
      | _ => cases hseq
  | _ => exact other_eliminates rfl id

end

/-- At every depth the tail calls of a node become jumps. -/
theorem rules_eliminate (n : Nat) : Eliminates n := by
  induction n with
  | zero => exact fun h => absurd h fail_ne_ok
  | succ n ih => exact fun h hctx htail _ hfrom => stmtsRule_eliminates ih hctx htail h hfrom

/-- A self call in tail position makes a function with parameters a loop, in which all of them are
jumps. -/
theorem function_eliminatesTailCalls {n : Nat} {ctx : Context} {name : String}
    {params : List Ir.Ident} {body : Ir.Expr} {s t : LowerState} {ps : List Param}
    {stmts : List Stmt}
    (h : (rules n).function ctx (some name) params body s = (.ok (ps, stmts), t))
    (hparams : declaredParams params ≠ [])
    (hbodies : Ir.Expr.BodiesSelectInside [ctx.targets] body) :
    ∃ loop inner, IsLoopOf (some name) params loop ∧ TailCode loop [ctx.targets] body inner ∧
      (loop.Recurs [ctx.targets] body →
        ps = loop.slots.map (fun slot => ⟨slot, false⟩) ∧
        stmts = [.of (.labeled loop.label (.of (.whileLoop (.literal (.bool true))
          (iteration loop body.type.isUnit inner))))]) := by
  have htail : (Strategy.ofType body.type.isUnit : Strategy Expr).isTail = true := by
    cases body.type.isUnit <;> rfl
  unfold Parts.function at h
  cases hps : declaredParams params with
  | nil => exact absurd hps hparams
  | cons p rest =>
    simp only [hps, bind_eq_ok] at h
    obtain ⟨loop, u, hloop, ⟨inner, looped⟩, w, hfunction, h⟩ := h
    obtain ⟨v, hinner, rfl, rfl⟩ := inFunction_eq_ok.1 hfunction
    rw [← hps] at hloop
    have hof := IsLoopOf.of_allocate hloop
    have hfrom : Ir.Expr.SelectsFrom ctx.targets [ctx.targets] body := ⟨.inl rfl, hbodies⟩
    obtain ⟨hcode, hlooped⟩ := rules_eliminate n hinner rfl htail hfrom
    refine ⟨loop, inner, hof, hcode, fun hrec => ?_⟩
    simp only [hlooped hrec, if_true, pure_eq_ok, Prod.mk.injEq] at h
    obtain ⟨⟨rfl, rfl⟩, -⟩ := h
    exact ⟨hof.map_bindings fun slot => (⟨slot, false⟩ : Param), loopBody_eq ..⟩

/-- The call `f b a`. -/
def retryCall : Ir.Expr :=
  .call (.ident (flag "f")) none [.ident (flag "b"), .ident (flag "a")] false .boolean none

/-- The call is one of the function itself. -/
theorem retryCall_isSelfCall {loop : TailCall}
    (h : IsLoopOf (some "f") [flag "a", flag "b"] loop) : loop.IsSelfCall retryCall := by
  have hname : "f" = loop.label := Option.some.inj h.name
  have hslots : loop.slots.length = 2 := by
    rw [← h.slots.length_eq]
    rcases h.params with h | ⟨p, h, -⟩
    · rw [h]; rfl
    · cases h
  exact ⟨beq_iff_eq.2 hname, hslots.symm⟩

/-- The body of a function `f a b` that calls `f b a` if `a` or `b` holds: two success nodes share
the target with the call. -/
def sharedRetry : Ir.Expr :=
  .decisionTree
    (.ifThenElse (.ident (flag "a")) (.success 0 [] .boolean)
      (.ifThenElse (.ident (flag "b")) (.success 0 [] .boolean) (.success 1 [] .boolean) none) none)
    [⟨[], retryCall⟩, ⟨[], .ident (flag "b")⟩]

/-- The call stands in a case of the `switch`, and is a jump there. -/
theorem retry_loops : ∃ ps stmts t loop inner,
    (rules 8).function (.ofFile bareFile) (some "f") [flag "a", flag "b"] sharedRetry
      swapState = (.ok (ps, stmts), t) ∧
    declaredParams [flag "a", flag "b"] ≠ [] ∧
    Ir.Expr.BodiesSelectInside [[]] sharedRetry ∧ loop.Recurs [[]] sharedRetry ∧
    TailCode loop [[]] sharedRetry inner ∧
    stmts = [.of (.labeled "f" (.of (.whileLoop (.literal (.bool true))
      (iteration loop false inner))))] := by
  have hparams : declaredParams [flag "a", flag "b"] ≠ [] := by decide
  have hshared : Ir.Expr.BodiesSelectInside [[]] sharedRetry := by
    intro targets rest index values ty t hd ht
    cases hd with
    | dispatcher hplain => exact absurd hplain (by decide)
    | target _ hmem hd =>
      simp only [List.mem_cons, List.not_mem_nil, or_false] at hmem
      rcases hmem with rfl | rfl <;> cases hd
  obtain ⟨ps, stmts, t, h⟩ : ∃ ps stmts t, (rules 8).function (.ofFile bareFile) (some "f")
    [flag "a", flag "b"] sharedRetry swapState = (.ok (ps, stmts), t) := ⟨_, _, _, rfl⟩
  obtain ⟨loop, inner, hof, hcode, hloop⟩ := function_eliminatesTailCalls h hparams hshared
  have hname : "f" = loop.label := Option.some.inj hof.name
  have hrec : loop.Recurs [[]] sharedRetry :=
    ⟨_, _, .target (by decide) List.mem_cons_self .here, retryCall_isSelfCall hof⟩
  obtain ⟨-, hstmts⟩ := hloop hrec
  exact ⟨ps, stmts, t, loop, inner, h, hparams, hshared, hrec, hcode, hname ▸ hstmts⟩

/-- The body of a function `f a b` that is `f b a`: the target of the tree in the dispatcher selects
the call, the second target of the tree around. -/
def nestedRetry : Ir.Expr :=
  .decisionTree
    (.decisionTree (.success 0 [] .boolean)
      [⟨[], .success 1 [] .boolean⟩, ⟨[], .ident (flag "b")⟩])
    [⟨[], .ident (flag "a")⟩, ⟨[], retryCall⟩]

/-- The call in tail position is lost: the second target of the tree in the dispatcher is lowered in
its place, and the function does not become a loop. -/
theorem nestedRetry_isLost :
    (∀ loop, IsLoopOf (some "f") [flag "a", flag "b"] loop → loop.Recurs [[]] nestedRetry) ∧
    ∃ t, (rules 8).function (.ofFile bareFile) (some "f") [flag "a", flag "b"] nestedRetry
      swapState = (.ok ([⟨"a", false⟩, ⟨"b", false⟩], [.of (.ret (some (.ident "b")))]), t) := by
  exact ⟨fun loop hof => ⟨_, _,
    .dispatcher rfl (.dispatcher rfl (.selected rfl (.selected rfl .here))),
    retryCall_isSelfCall hof⟩, _, rfl⟩

end JavaScript

end TypedLowering
