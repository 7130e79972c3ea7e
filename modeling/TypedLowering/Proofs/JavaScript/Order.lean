import TypedLowering.JavaScript.Lower.Expression
import TypedLowering.Proofs.Control.Ending
import TypedLowering.Proofs.Ir.Subterms

/-!
# The order of evaluation

What evaluating an expression is to do in JavaScript, in any world (`Evaluates`): which children are
evaluated, in which order and how often, and what the node itself does with their values. What
becomes of the value is said by a `Delivery`, which a node passes on to the children that give its
value.
-/

namespace TypedLowering

namespace Ir.Expr

/-- The children that are evaluated with their node, in order. The body of a function is not. -/
def evaluated : Expr → List Expr
  | .lambda .. | .delegate .. => []
  | .object members _ base => (members.filter (·.kind == .value)).map (·.body) ++ base.toList
  | e => e.children

/-- Whether a node evaluates these children, one after the other, and then makes use of all values
at once. -/
def isStrict : Expr → Bool
  | .literal .. | .option .. | .aggregate .. | .ident _ | .imported .. | .lambda .. | .delegate ..
  | .object .. | .call .. | .apply .. | .unary .. | .binary .. | .get .. | .getIndex .. | .test ..
  | .curry .. => true
  | .emit _ _ isStatement _ _ => !isStatement
  | _ => false

/-- Whether an expression is a function, possibly under casts. -/
def isFunction (e : Expr) : Bool :=
  match e.uncast with
  | .lambda .. | .delegate .. => true
  | _ => false

/-- What a node evaluates are some of its children, in their order. -/
theorem evaluated_sublist (e : Expr) : e.evaluated.Sublist e.children := by
  cases e with
  | lambda | delegate => exact List.nil_sublist _
  | object members ty base =>
    exact (List.filter_sublist.map _).append (List.Sublist.refl _)
  | _ => exact List.Sublist.refl _

end Ir.Expr

namespace JavaScript

open Control

/-! ## What becomes of a value -/

/-- What is done with the value of a node, and what is done after a node without one. -/
structure Delivery (S : Type) where
  value : Runs S
  unit : Runs S
  /-- Whether success nodes only select their target, which comes later. -/
  selects : Bool
  /-- The loop that self calls may go on with. -/
  loop : Option TailCall

namespace Delivery

variable {S : Type}

/-- Nothing is done with the value. -/
def plain : Delivery S :=
  ⟨.exit .normal, .exit .normal, false, none⟩

/-- The value is returned. -/
def ret : Delivery S :=
  ⟨.exit .returned, .exit .returned, false, none⟩

/-- The value is stored somewhere. -/
def into (store : Runs S) : Delivery S :=
  ⟨store, .exit .normal, false, none⟩

/-- The expression selects a target. -/
def selecting : Delivery S :=
  ⟨.exit .normal, .exit .normal, true, none⟩

/-- The value is bound to a variable. A variable of unit type is none. -/
def bind (W : World) (id : Ir.Ident) : Delivery W.State :=
  if id.ty.isUnit then plain else into (W.does (.write id.name))

/-- The same without a loop. -/
def unlooped (k : Delivery S) : Delivery S :=
  { k with loop := none }

/-- The same in a call of its own. -/
def called (k : Delivery S) : Delivery S :=
  { k with value := k.value.called, unit := k.unit.called }

/-- Whether all exits that a delivery may cause are of a kind. -/
structure Ends (k : Delivery S) (X : Exit → Prop) : Prop where
  value : k.value.Ends X
  unit : k.unit.Ends X
  selects : k.selects = true → X .normal
  loop : ∀ l, k.loop = some l → X (.continued (some l.label))
  raised : X .raised

end Delivery

/-! ## What nodes do -/

/-- What an access does with the object. -/
def accesses (W : World) : Ir.Access → Runs W.State
  | .field name => W.does (.load (some name))
  | .tupleItem _ => W.does (.load none)
  | .unionTag => W.does (.load (some "tag"))
  | .unionField .. => .seq (W.does (.load (some "fields"))) (W.does (.load none))
  | .optionValue => .exit .normal

/-- What a test does with a value. The function that tells arrays is looked up first. -/
def tests (W : World) : Ir.TestKind → Runs W.State → Runs W.State
  | .type (.array _), p | .type (.list _), p | .type (.tuple _), p =>
    .seq (W.does (.load (some "isArray"))) (.seq p (W.does .call))
  | .unionCase _, p => .seq p (W.does (.load (some "tag")))
  | _, p => p

/-- Whether a helper compares the values. -/
def comparesStructurally (op : Ir.BinaryOp) (left : Ir.Expr) : Bool :=
  match op with
  | .equal | .notEqual => !isPrimitive left.type
  | _ => false

/-- What a node does with the values of the children that it evaluates. Each argument that a
function is applied to is passed by a call of its own. The base of an object is passed to a function
that is looked up first. -/
def combine (W : World) : Ir.Expr → List (Runs W.State) → Runs W.State
  | .ident id, _ => if id.isThis then .exit .normal else W.does (.read id.name)
  | .aggregate (.record ..) .., ps | .aggregate (.union ..) .., ps =>
    .seq (.all ps) (W.does .construct)
  | .object _ _ (some _), ps =>
    .seq (W.does (.load (some "assign"))) (.seq (.all ps) (W.does .call))
  | .call _ _ _ isNew .., ps => .seq (.all ps) (W.does (if isNew then .construct else .call))
  | .apply .., f :: args => args.foldl (fun f arg => .seq f (.seq arg (W.does .call))) f
  | .binary op left .., ps =>
    .seq (.all ps) (if comparesStructurally op left then W.does .call else .exit .normal)
  | .emit template .., ps => .act (W.foreign template ps) .normal
  | .get _ access .., ps => .seq (.all ps) (accesses W access)
  | .getIndex .., ps => .seq (.all ps) (W.does (.load none))
  | .test _ kind _, ps => tests W kind (.all ps)
  | .curry .., ps => .seq (.all ps) (W.does .call)
  | _, ps => .all ps

/-- What a logical operation does. -/
def shortCircuit (W : World) : Ir.LogicalOp → Runs W.State → Runs W.State → Runs W.State
  | .and, p, q => .branch (Runs.guard W.decide p) q (.exit .normal)
  | .or, p, q => .branch (Runs.guard W.decide p) (.exit .normal) q

/-- One of several ways, the last one if there is no such way. -/
def choose (W : World) (ps : List (Runs W.State)) : Runs W.State := fun a x b =>
  ∃ i m p, W.pick a i m ∧ (ps[i]? <|> ps.getLast?) = some p ∧ p m x b

/-- The iterations of a loop. -/
def iterations (W : World) (guard body : Runs W.State) : Runs W.State :=
  .iterate (Runs.guard W.decide guard) [] body

/-- Raising an error. -/
def raises (W : World) : Runs W.State :=
  .act (W.act .raise) .raised

/-- Whether these are runs of evaluating an expression, with those targets in reach, and delivering
the value. -/
inductive Evaluates (W : World) (file : SourceFile) :
    List Ir.Target → Delivery W.State → Ir.Expr → Runs W.State → Prop
  | strict {ts : List Ir.Target} {e : Ir.Expr} {ps : List (Runs W.State)} :
    e.isStrict = true → ps.length = e.evaluated.length →
    (∀ q ∈ e.evaluated.zip ps, Evaluates W file ts .plain q.1 q.2) →
    Evaluates W file ts .plain e (combine W e ps)
  | delivered {ts : List Ir.Target} {k : Delivery W.State} {e : Ir.Expr} {p : Runs W.State} :
    Evaluates W file ts .plain e p → Evaluates W file ts k e (.seq p k.value)
  | cast {ts : List Ir.Target} {k : Delivery W.State} {e : Ir.Expr} {ty : Ir.Ty}
      {p : Runs W.State} :
    Evaluates W file ts k e p → Evaluates W file ts k (.cast e ty) p
  | logical {ts : List Ir.Target} {op : Ir.LogicalOp} {left right : Ir.Expr} {ty : Ir.Ty}
      {loc : Option Ir.Location} {p q : Runs W.State} :
    Evaluates W file ts .plain left p → Evaluates W file ts .plain right q →
    Evaluates W file ts .plain (.logical op left right ty loc) (shortCircuit W op p q)
  | ifThenElse {ts : List Ir.Target} {k : Delivery W.State} {guard thenExpr elseExpr : Ir.Expr}
      {loc : Option Ir.Location} {p q r : Runs W.State} :
    Evaluates W file ts .plain guard p → Evaluates W file ts k thenExpr q →
    Evaluates W file ts k elseExpr r →
    Evaluates W file ts k (.ifThenElse guard thenExpr elseExpr loc)
      (.branch (Runs.guard W.decide p) q r)
  /-- The targets of a tree are in reach of its dispatcher. -/
  | tree {ts targets : List Ir.Target} {k : Delivery W.State} {dispatcher : Ir.Expr}
      {p : Runs W.State} :
    Evaluates W file targets k dispatcher p →
    Evaluates W file ts k (.decisionTree dispatcher targets) p
  /-- The bodies may also come after the dispatcher. -/
  | dispatched {ts targets : List Ir.Target} {k : Delivery W.State} {dispatcher : Ir.Expr}
      {p : Runs W.State} {ps : List (Runs W.State)} :
    Evaluates W file targets .selecting dispatcher p → ps.length = targets.length →
    (∀ q ∈ targets.zip ps, Evaluates W file ts k q.1.body q.2) →
    Evaluates W file ts k (.decisionTree dispatcher targets) (.seq p (choose W ps))
  /-- The body of a target has no success nodes of its own. -/
  | success {ts : List Ir.Target} {k : Delivery W.State} {index : Nat} {values : List Ir.Expr}
      {ty : Ir.Ty} {t : Ir.Target} {ps : List (Runs W.State)} {p : Runs W.State} :
    k.selects = false → ts[index]? = some t → values.length = t.bound.length →
    ps.length = values.length →
    (∀ q ∈ (t.bound.zip values).zip ps, Evaluates W file ts (.bind W q.1.1) q.1.2 q.2) →
    Evaluates W file ts k t.body p →
    Evaluates W file ts k (.success index values ty) (.seq (.all ps) p)
  | selection {ts : List Ir.Target} {k : Delivery W.State} {index : Nat} {values : List Ir.Expr}
      {ty : Ir.Ty} {t : Ir.Target} {ps : List (Runs W.State)} :
    k.selects = true → ts[index]? = some t → values.length = t.bound.length →
    ps.length = values.length →
    (∀ q ∈ (t.bound.zip values).zip ps,
      Evaluates W file ts (.into (W.does (.write q.1.1.name))) q.1.2 q.2) →
    Evaluates W file ts k (.success index values ty) (.all ps)
  | letIn {ts : List Ir.Target} {k : Delivery W.State} {id : Ir.Ident} {value body : Ir.Expr}
      {p q : Runs W.State} :
    Evaluates W file ts (.bind W id) value p → Evaluates W file ts k body q →
    Evaluates W file ts k (.letIn id value body) (.seq p q)
  /-- Functions are declared before. -/
  | letRec {ts : List Ir.Target} {k : Delivery W.State} {bindings : List Ir.Binding}
      {body : Ir.Expr} {ps : List (Runs W.State)} {p : Runs W.State} :
    ps.length = bindings.length →
    (∀ q ∈ bindings.zip ps, q.1.value.isFunction = true → q.2 = .exit .normal) →
    (∀ q ∈ bindings.zip ps, q.1.value.isFunction = false →
      Evaluates W file ts (.bind W q.1.ident) q.1.value q.2) →
    Evaluates W file ts k body p →
    Evaluates W file ts k (.letRec bindings body) (.seq (.all ps) p)
  | empty {ts : List Ir.Target} {k : Delivery W.State} :
    Evaluates W file ts k (.sequence []) k.unit
  | sequence {ts : List Ir.Target} {k : Delivery W.State} {es : List Ir.Expr} {last : Ir.Expr}
      {ps : List (Runs W.State)} {p : Runs W.State} :
    ps.length = es.length → (∀ q ∈ es.zip ps, Evaluates W file ts .plain q.1 q.2) →
    Evaluates W file ts k last p →
    Evaluates W file ts k (.sequence (es ++ [last])) (.seq (.all ps) p)
  /-- A variable that is assigned is not read. -/
  | setVariable {ts : List Ir.Target} {k : Delivery W.State} {target value : Ir.Expr}
      {id : Ir.Ident} {loc : Option Ir.Location} {p : Runs W.State} :
    target.uncast = .ident id →
    Evaluates W file ts (.into (W.does (.write id.name))) value p →
    Evaluates W file ts k (.set target none value loc) (.seq p k.unit)
  | setField {ts : List Ir.Target} {k : Delivery W.State} {target value : Ir.Expr} {name : String}
      {loc : Option Ir.Location} {p q : Runs W.State} :
    Evaluates W file ts .plain target p →
    Evaluates W file ts (.into (W.does (.store (some name)))) value q →
    Evaluates W file ts k (.set target (some name) value loc) (.seq (.seq p q) k.unit)
  | setIndex {ts : List Ir.Target} {k : Delivery W.State} {target index value : Ir.Expr}
      {loc : Option Ir.Location} {p q r : Runs W.State} :
    Evaluates W file ts .plain target p → Evaluates W file ts .plain index q →
    Evaluates W file ts (.into (W.does (.store none))) value r →
    Evaluates W file ts k (.setIndex target index value loc) (.seq (.seq p (.seq q r)) k.unit)
  | whileLoop {ts : List Ir.Target} {k : Delivery W.State} {guard body : Ir.Expr}
      {loc : Option Ir.Location} {p q : Runs W.State} :
    Evaluates W file ts .plain guard p → Evaluates W file ts .plain body q →
    Evaluates W file ts k (.whileLoop guard body loc) (.seq (iterations W p q) k.unit)
  /-- Only the body is evaluated in each iteration. -/
  | forLoop {ts : List Ir.Target} {k : Delivery W.State} {id : Ir.Ident}
      {start limit body : Ir.Expr} {isUp : Bool} {loc : Option Ir.Location}
      {p q r : Runs W.State} :
    Evaluates W file ts .plain start p → Evaluates W file ts .plain limit q →
    Evaluates W file ts .plain body r →
    Evaluates W file ts k (.forLoop id start limit body isUp loc)
      (.seq (.seq p (.seq q (iterations W (.exit .normal) r))) k.unit)
  | tryCatch {ts : List Ir.Target} {k : Delivery W.State} {body : Ir.Expr}
      {handler : Option Ir.Handler} {finalizer : Option Ir.Expr} {loc : Option Ir.Location}
      {p q r : Runs W.State} :
    Evaluates W file ts k.unlooped body p →
    (∀ h, handler = some h → Evaluates W file ts k.unlooped h.body q) →
    (∀ f, finalizer = some f → Evaluates W file ts .plain f r) →
    Evaluates W file ts k (.tryCatch body handler finalizer loc)
      (.finalized (.handled W.caught p (handler.map fun _ => q)) (finalizer.map fun _ => r))
  | throw {ts : List Ir.Target} {k : Delivery W.State} {error : Ir.Expr} {ty : Ir.Ty}
      {loc : Option Ir.Location} {p : Runs W.State} :
    Evaluates W file ts .plain error p →
    Evaluates W file ts k (.throw (some error) ty loc) (.seq p (raises W))
  | rethrow {ts : List Ir.Target} {k : Delivery W.State} {ty : Ir.Ty} {loc : Option Ir.Location} :
    Evaluates W file ts k (.throw none ty loc) (raises W)
  | debugger {ts : List Ir.Target} {k : Delivery W.State} {loc : Option Ir.Location} :
    Evaluates W file ts k (.debugger loc) (.seq (W.does .pause) k.unit)
  | emit {ts : List Ir.Target} {k : Delivery W.State} {template : String} {args : List Ir.Expr}
      {ty : Ir.Ty} {loc : Option Ir.Location} {ps : List (Runs W.State)} :
    ps.length = args.length → (∀ q ∈ args.zip ps, Evaluates W file ts .plain q.1 q.2) →
    Evaluates W file ts k (.emit template args true ty loc)
      (.seq (.act (W.foreign template ps) .normal) k.unit)
  /-- A call of an inline function binds the arguments and evaluates the body. -/
  | expanded {ts : List Ir.Target} {k : Delivery W.State} {callee expanded : Ir.Expr}
      {args : List Ir.Expr} {isNew : Bool} {ty : Ir.Ty} {loc : Option Ir.Location}
      {s t : LowerState} {p : Runs W.State} :
    expandInline file callee args s = (.ok (some expanded), t) →
    Evaluates W file ts k expanded p →
    Evaluates W file ts k (.call callee none args isNew ty loc) p
  /-- A function that calls itself at its end may go on with the arguments instead. -/
  | selfCall {ts : List Ir.Target} {k : Delivery W.State} {loop : TailCall} {callee : Ir.Expr}
      {args : List Ir.Expr} {ty : Ir.Ty} {loc : Option Ir.Location} {ps : List (Runs W.State)} :
    k.loop = some loop → loop.isSelf callee = true →
    (discardUnitArg args).length = loop.slots.length → ps.length = args.length →
    (∀ q ∈ args.zip ps, Evaluates W file ts .plain q.1 q.2) →
    Evaluates W file ts k (.call callee none args false ty loc)
      (.seq (.all ps) (.exit (.continued (some loop.label))))

/-- Whether these are the runs of evaluating expressions, one for each. -/
def EvaluatesAll (W : World) (file : SourceFile) (ts : List Ir.Target) (es : List Ir.Expr)
    (ps : List (Runs W.State)) : Prop :=
  ps.length = es.length ∧ ∀ q ∈ es.zip ps, Evaluates W file ts .plain q.1 q.2

namespace EvaluatesAll

variable {W : World} {file : SourceFile} {ts : List Ir.Target} {e : Ir.Expr} {es : List Ir.Expr}
  {p : Runs W.State} {ps : List (Runs W.State)}

/-- No expressions are evaluated by no runs. -/
theorem nil : EvaluatesAll W file ts [] [] :=
  ⟨rfl, List.forall_mem_nil _⟩

/-- An expression is evaluated before the others. -/
theorem cons (h : Evaluates W file ts .plain e p) (hs : EvaluatesAll W file ts es ps) :
    EvaluatesAll W file ts (e :: es) (p :: ps) :=
  ⟨congrArg (· + 1) hs.1, List.forall_mem_cons.2 ⟨h, hs.2⟩⟩

/-- One expression is evaluated by one run. -/
theorem single (h : Evaluates W file ts .plain e p) : EvaluatesAll W file ts [e] [p] :=
  cons h nil

/-- Expressions of two parts are evaluated part by part. -/
theorem append {es' : List Ir.Expr} {ps' : List (Runs W.State)} (h : EvaluatesAll W file ts es ps)
    (h' : EvaluatesAll W file ts es' ps') : EvaluatesAll W file ts (es ++ es') (ps ++ ps') := by
  refine ⟨by rw [List.length_append, List.length_append, h.1, h'.1], fun q hq => ?_⟩
  rw [List.zip_append h.1.symm] at hq
  exact (List.mem_append.1 hq).elim (h.2 q) (h'.2 q)

/-- The run of the first expression comes first. -/
theorem cons_inv (h : EvaluatesAll W file ts (e :: es) ps) :
    ∃ p rest, ps = p :: rest ∧ Evaluates W file ts .plain e p ∧ EvaluatesAll W file ts es rest := by
  obtain ⟨hlen, hs⟩ := h
  obtain ⟨p, rest, rfl⟩ := List.exists_cons_of_length_eq_add_one hlen
  obtain ⟨h, hs⟩ := List.forall_mem_cons.1 hs
  exact ⟨p, rest, rfl, h, Nat.succ.inj hlen, hs⟩

/-- What a node does that evaluates all its children at once. -/
theorem strict (hs : EvaluatesAll W file ts e.evaluated ps) (he : e.isStrict = true) :
    Evaluates W file ts .plain e (combine W e ps) :=
  .strict he hs.1 hs.2

end EvaluatesAll

variable {W : World} {file : SourceFile} {ts : List Ir.Target}

/-- A unit constant does nothing. -/
theorem evaluates_of_isUnitConstant {e : Ir.Expr} (h : e.isUnitConstant = true) :
    Evaluates W file ts .plain e (.exit .normal) := by
  induction e using Ir.Expr.induction_on_children with
  | h e ih =>
    cases e with
    | cast inner => exact .cast (ih inner List.mem_cons_self h)
    | literal value loc =>
      have hnone : EvaluatesAll W file ts (Ir.Expr.literal value loc).evaluated [] := .nil
      exact hnone.strict rfl
    | _ => cases h

/-- The arguments that are not passed on do nothing. -/
theorem evaluates_discarded {args : List Ir.Expr} {ps : List (Runs W.State)}
    (h : EvaluatesAll W file ts (discardUnitArg args) ps) :
    ∃ ps', EvaluatesAll W file ts args ps' ∧ Runs.all ps' = .all ps := by
  match args, h with
  | [], h => exact ⟨ps, h, rfl⟩
  | [only], h =>
    rw [discardUnitArg] at h
    split at h
    · obtain rfl := List.eq_nil_of_length_eq_zero h.1
      refine ⟨[.exit .normal], .single (evaluates_of_isUnitConstant ‹_›), ?_⟩
      rw [Runs.all_cons, Runs.all_nil, Runs.seq_exit_normal]
    · exact ⟨ps, h, rfl⟩
  | [receiver, unit], h =>
    rw [discardUnitArg] at h
    split at h
    · rename_i hunit
      obtain ⟨p, rest, rfl, hp, hrest⟩ := h.cons_inv
      obtain rfl := List.eq_nil_of_length_eq_zero hrest.1
      refine ⟨[p, .exit .normal], .cons hp (.single (evaluates_of_isUnitConstant ?_)), ?_⟩
      · exact (Bool.and_eq_true_iff.1 hunit).2
      · simp only [Runs.all_cons, Runs.all_nil, Runs.seq_exit_normal]
    · exact ⟨ps, h, rfl⟩
  | _ :: _ :: _ :: _, h => exact ⟨ps, h, rfl⟩

end JavaScript

end TypedLowering

/-!
## Evaluation in a call of its own

An expression that is not in tail position comes to its end or raises, and in general it ends as its
delivery does (`Evaluates.ends`). So the value may as well be returned from a call that does nothing
else (`Evaluates.called`).
-/

namespace TypedLowering.JavaScript

open Control

variable {W : World} {file : SourceFile} {ts : List Ir.Target} {k : Delivery W.State} {e : Ir.Expr}
  {p : Runs W.State} {X : Exit → Prop}

/-- What the world does comes to its end or raises. -/
theorem ends_does (event : Event) : (W.does event).Ends Exit.IsPlain :=
  Runs.ends_act (.inl rfl) (.inr rfl)

/-- Doing nothing comes to its end. -/
theorem ends_normal : (Runs.exit .normal : Runs W.State).Ends Exit.IsPlain :=
  Runs.ends_exit (.inl rfl)

/-- What consists of plain parts is plain. -/
theorem ends_seq {p q : Runs W.State} (hp : p.Ends Exit.IsPlain) (hq : q.Ends Exit.IsPlain) :
    (Runs.seq p q).Ends Exit.IsPlain :=
  hp.seq hq (.inr rfl)

/-- An access comes to its end or raises. -/
theorem ends_accesses (access : Ir.Access) : (accesses W access).Ends Exit.IsPlain := by
  cases access with
  | unionField => exact ends_seq (ends_does _) (ends_does _)
  | optionValue => exact ends_normal
  | _ => exact ends_does _

/-- A test comes to its end or raises. -/
theorem ends_tests (kind : Ir.TestKind) {p : Runs W.State} (hp : p.Ends Exit.IsPlain) :
    (tests W kind p).Ends Exit.IsPlain := by
  have hcheck : (Runs.seq (W.does (.load (some "isArray"))) (.seq p (W.does .call))).Ends
      Exit.IsPlain := ends_seq (ends_does _) (ends_seq hp (ends_does _))
  cases kind with
  | unionCase => exact ends_seq hp (ends_does _)
  | option => exact hp
  | type ty =>
    cases ty with
    | array | list | tuple => exact hcheck
    | _ => exact hp

/-- A curried application comes to its end or raises. -/
theorem ends_applied {f : Runs W.State} {args : List (Runs W.State)} (hf : f.Ends Exit.IsPlain)
    (hargs : ∀ p ∈ args, p.Ends Exit.IsPlain) :
    (args.foldl (fun f arg => Runs.seq f (.seq arg (W.does .call))) f).Ends Exit.IsPlain := by
  induction args generalizing f with
  | nil => exact hf
  | cons arg args ih =>
    obtain ⟨harg, hargs⟩ := List.forall_mem_cons.1 hargs
    exact ih (ends_seq hf (ends_seq harg (ends_does _))) hargs

/-- Iterations of a plain body come to their end or raise. -/
theorem ends_iterations {guard body : Runs W.State} (h : body.Ends Exit.IsPlain) :
    (iterations W guard body).Ends Exit.IsPlain :=
  Runs.ends_iterate h

/-- What a node does with the values of its children comes to its end or raises. -/
theorem ends_combine (e : Ir.Expr) {ps : List (Runs W.State)}
    (h : ∀ p ∈ ps, p.Ends Exit.IsPlain) : (combine W e ps).Ends Exit.IsPlain := by
  have hall := Runs.ends_all h
  have hthen : ∀ event, (Runs.seq (.all ps) (W.does event)).Ends Exit.IsPlain :=
    fun event => ends_seq hall (ends_does event)
  cases e with
  | ident id =>
    rw [combine]
    split
    · exact ends_normal
    · exact ends_does _
  | aggregate kind =>
    cases kind with
    | record | union => exact hthen _
    | _ => exact hall
  | object members ty base =>
    cases base with
    | none => exact hall
    | some base => exact ends_seq (ends_does _) (hthen _)
  | call => exact hthen _
  | apply =>
    cases ps with
    | nil => exact hall
    | cons f args => exact ends_applied (h f List.mem_cons_self) fun p hp => h p (.tail f hp)
  | binary op left =>
    rw [combine]
    split
    · exact hthen _
    · exact ends_seq hall ends_normal
  | emit => exact Runs.ends_act (.inl rfl) (.inr rfl)
  | get object access => exact ends_seq hall (ends_accesses access)
  | getIndex => exact hthen _
  | test value kind => exact ends_tests kind hall
  | curry => exact hthen _
  | _ => exact hall

/-- A choice ends as one of its alternatives. -/
theorem ends_choose {ps : List (Runs W.State)} (h : ∀ p ∈ ps, p.Ends X) :
    (choose W ps).Ends X := by
  rintro a x b ⟨i, m, p, -, hp, hrun⟩
  refine h p ?_ m x b hrun
  cases hi : ps[i]? with
  | none =>
    rw [hi] at hp
    exact List.mem_of_getLast? hp
  | some q =>
    rw [hi] at hp
    obtain rfl := Option.some.inj hp
    exact List.mem_of_getElem? hi

namespace Delivery

/-- A value that is only computed comes to its end. -/
theorem ends_plain : (plain : Delivery W.State).Ends Exit.IsPlain :=
  ⟨ends_normal, ends_normal, nofun, nofun, .inr rfl⟩

/-- A value that is put somewhere comes to its end or raises. -/
theorem ends_into (event : Event) : (into (W.does event)).Ends Exit.IsPlain :=
  ⟨ends_does event, ends_normal, nofun, nofun, .inr rfl⟩

/-- A value that selects comes to its end. -/
theorem ends_selecting : (selecting : Delivery W.State).Ends Exit.IsPlain :=
  ⟨ends_normal, ends_normal, fun _ => .inl rfl, nofun, .inr rfl⟩

/-- A value that is bound comes to its end or raises. -/
theorem ends_bind (id : Ir.Ident) : (bind W id).Ends Exit.IsPlain := by
  rw [bind]
  split
  · exact ends_plain
  · exact ends_into _

/-- Without the loop around, a delivery has no ends but those that it had. -/
theorem Ends.unlooped (h : k.Ends X) : k.unlooped.Ends X :=
  ⟨h.value, h.unit, h.selects, nofun, h.raised⟩

/-- Code that only comes to its end or raises does what a delivery that does nothing may do. -/
theorem Ends.of_isPlain (h : (plain : Delivery W.State).Ends X) (hp : p.Ends Exit.IsPlain) :
    p.Ends X := by
  intro a x b hrun
  rcases hp a x b hrun with rfl | rfl
  · exact h.value b .normal b ⟨rfl, rfl⟩
  · exact h.raised

/-- A plain delivery stays as it is in a call. -/
@[simp] theorem called_plain : (plain : Delivery W.State).called = plain := by
  have h : (Runs.exit .normal : Runs W.State).called = .exit .normal := Runs.called_exit _
  rw [called, plain, h]

/-- A delivery that returns stays as it is in a call. -/
@[simp] theorem called_ret : (ret : Delivery W.State).called = plain := by
  have h : (Runs.exit .returned : Runs W.State).called = .exit .normal := Runs.called_exit _
  rw [called, ret, plain, h]

end Delivery

/-- The runs of several evaluations end as these do. -/
theorem ends_of_zip {α : Type} {es : List α} {ps : List (Runs W.State)}
    (hlen : ps.length = es.length) (h : ∀ q ∈ es.zip ps, q.2.Ends X) : ∀ p ∈ ps, p.Ends X := by
  intro p hp
  obtain ⟨i, hi, rfl⟩ := List.mem_iff_getElem.1 hp
  have hi' : i < es.length := hlen ▸ hi
  have hzip : i < (es.zip ps).length := by rwa [List.length_zip, hlen, Nat.min_self]
  have hmem : (es[i], ps[i]) ∈ es.zip ps := List.getElem_zip (h := hzip) ▸ List.getElem_mem hzip
  exact h _ hmem

/-- An evaluation ends as its delivery does, or raises. -/
theorem Evaluates.ends (h : Evaluates W file ts k e p) (hk : k.Ends X) : p.Ends X := by
  have hdoes : ∀ event, (W.does event).Ends Exit.IsPlain := ends_does
  induction h generalizing X with
  | @strict ts e ps _ hlen _ ih =>
    refine hk.of_isPlain (ends_combine e (ends_of_zip hlen fun q hq => ?_))
    exact ih q hq Delivery.ends_plain
  | delivered _ ih => exact (ih Delivery.ends_plain).seq hk.value hk.raised
  | cast _ ih => exact ih hk
  | @logical _ op _ _ _ _ _ _ _ _ _ ih =>
    cases op with
    | and => exact Runs.ends_branch (ih hk) hk.value hk.raised
    | or => exact Runs.ends_branch hk.value (ih hk) hk.raised
  | ifThenElse _ _ _ _ ihthen ihelse => exact Runs.ends_branch (ihthen hk) (ihelse hk) hk.raised
  | tree _ ih => exact ih hk
  | dispatched _ hlen _ ihd ih =>
    exact (ihd Delivery.ends_selecting).seq
      (ends_choose (ends_of_zip hlen fun q hq => ih q hq hk)) hk.raised
  | @success _ _ _ _ _ _ ps _ _ _ hvalues hlen _ _ ih ihbody =>
    refine (Runs.ends_all (ends_of_zip ?_ fun q hq => ih q hq (Delivery.ends_bind _))).seq
      (ihbody hk) hk.raised
    rw [List.length_zip, ← hvalues, Nat.min_self, hlen]
  | @selection _ _ _ _ _ _ ps hselects _ hvalues hlen _ ih =>
    refine (Runs.ends_all (ends_of_zip ?_ fun q hq => ih q hq (Delivery.ends_into _))).mono ?_
    · rw [List.length_zip, ← hvalues, Nat.min_self, hlen]
    · rintro _ (rfl | rfl)
      · exact hk.selects hselects
      · exact hk.raised
  | letIn _ _ ih ihbody => exact (ih (Delivery.ends_bind _)).seq (ihbody hk) hk.raised
  | letRec hlen hfunctions _ _ ih ihbody =>
    refine (Runs.ends_all (ends_of_zip hlen fun q hq => ?_)).seq (ihbody hk) hk.raised
    cases hfunction : q.1.value.isFunction with
    | true => exact hfunctions q hq hfunction ▸ ends_normal
    | false => exact ih q hq hfunction (Delivery.ends_bind _)
  | empty => exact hk.unit
  | sequence hlen _ _ ih ihlast =>
    refine (Runs.ends_all (ends_of_zip hlen fun q hq => ?_)).seq (ihlast hk) hk.raised
    exact ih q hq Delivery.ends_plain
  | setVariable _ _ ih => exact (ih (Delivery.ends_into _)).seq hk.unit hk.raised
  | setField _ _ ihtarget ih =>
    exact (ends_seq (ihtarget Delivery.ends_plain) (ih (Delivery.ends_into _))).seq hk.unit
      hk.raised
  | setIndex _ _ _ ihtarget ihindex ih =>
    exact (ends_seq (ihtarget Delivery.ends_plain) (ends_seq (ihindex Delivery.ends_plain)
      (ih (Delivery.ends_into _)))).seq hk.unit hk.raised
  | whileLoop _ _ _ ih =>
    exact (ends_iterations (ih Delivery.ends_plain)).seq hk.unit hk.raised
  | forLoop _ _ _ ihstart ihlimit ih =>
    exact (ends_seq (ihstart Delivery.ends_plain) (ends_seq (ihlimit Delivery.ends_plain)
      (ends_iterations (ih Delivery.ends_plain)))).seq hk.unit hk.raised
  | @tryCatch _ _ _ handler finalizer _ _ _ _ _ _ _ ih ihhandler ihfinalizer =>
    refine Runs.ends_finalized (Runs.ends_handled (ih hk.unlooped) fun q hq => ?_) (fun q hq => ?_)
      hk.raised
    · obtain ⟨h, hh, rfl⟩ := Option.map_eq_some_iff.1 hq
      exact ihhandler h hh hk.unlooped
    · obtain ⟨f, hf, rfl⟩ := Option.map_eq_some_iff.1 hq
      exact ihfinalizer f hf Delivery.ends_plain
  | throw _ ih =>
    exact (ih Delivery.ends_plain).seq (Runs.ends_act hk.raised hk.raised) hk.raised
  | rethrow => exact Runs.ends_act hk.raised hk.raised
  | debugger => exact (hdoes .pause).seq hk.unit hk.raised
  | emit => exact (Runs.ends_act (.inl rfl) (.inr rfl)).seq hk.unit hk.raised
  | expanded _ _ ih => exact ih hk
  | selfCall hloop _ _ hlen _ ih =>
    refine (Runs.ends_all (ends_of_zip hlen fun q hq => ?_)).seq
      (Runs.ends_exit (hk.loop _ hloop)) hk.raised
    exact ih q hq Delivery.ends_plain

/-! ## Calls -/

/-- What comes to its end or raises may as well be called. -/
theorem called_of_isPlain (h : p.Ends Exit.IsPlain) : p.called = p :=
  Runs.exitBy_eq_self (h.mono fun _ => Exit.IsPlain.leaveCall_eq)

/-- A choice that is called is a choice of calls. -/
theorem called_choose (ps : List (Runs W.State)) :
    (choose W ps).called = choose W (ps.map Runs.called) := by
  have hfind : ∀ i : Nat, ((ps.map Runs.called)[i]? <|> (ps.map Runs.called).getLast?) =
      (ps[i]? <|> ps.getLast?).map Runs.called := by
    intro i
    rw [List.getElem?_map, List.getLast?_map]
    cases ps[i]? <;> rfl
  funext a x b
  refine propext ⟨?_, ?_⟩
  · rintro ⟨y, ⟨i, m, p, hpick, hp, hrun⟩, rfl⟩
    exact ⟨i, m, p.called, hpick, (hfind i).trans (congrArg _ hp), y, hrun, rfl⟩
  · rintro ⟨i, m, q, hpick, hq, hrun⟩
    obtain ⟨p, hp, rfl⟩ := Option.map_eq_some_iff.1 ((hfind i).symm.trans hq)
    obtain ⟨y, hrun, rfl⟩ := hrun
    exact ⟨y, ⟨i, m, p, hpick, hp, hrun⟩, rfl⟩

/-- What is evaluated in a call of its own, where the value is returned if it is returned at all, is
evaluated. -/
theorem Evaluates.called (h : Evaluates W file ts k e p) :
    Evaluates W file ts k.called e p.called := by
  have hdoes : ∀ event, (W.does event).Ends Exit.IsPlain := ends_does
  have hraises : (raises W).called = raises W := Runs.called_act
  induction h with
  | strict he hlen hs ih =>
    have h := Evaluates.strict he hlen hs
    rw [Delivery.called_plain, called_of_isPlain (h.ends Delivery.ends_plain)]
    exact h
  | delivered h ih =>
    rw [Runs.called_seq (h.ends Delivery.ends_plain)]
    exact .delivered h
  | cast _ ih => exact .cast ih
  | @logical ts op left right ty loc p q hl hr _ _ =>
    have h : Evaluates W file ts .plain (.logical op left right ty loc) (shortCircuit W op p q) :=
      .logical hl hr
    rw [Delivery.called_plain, called_of_isPlain (h.ends Delivery.ends_plain)]
    exact h
  | ifThenElse hguard _ _ _ ihthen ihelse =>
    rw [Runs.called_branch]
    exact .ifThenElse hguard ihthen ihelse
  | tree _ ih => exact .tree ih
  | dispatched hd hlen _ _ ih =>
    rw [Runs.called_seq (hd.ends Delivery.ends_selecting), called_choose]
    refine .dispatched hd ((List.length_map _).trans hlen) fun q hq => ?_
    rw [List.zip_map_right] at hq
    obtain ⟨q', hq', rfl⟩ := List.mem_map.1 hq
    exact ih q' hq'
  | success hselects ht hvalues hlen hs _ _ ih =>
    rw [Runs.called_seq]
    · exact .success hselects ht hvalues hlen hs ih
    · refine Runs.ends_all (ends_of_zip ?_ fun q hq => (hs q hq).ends (Delivery.ends_bind _))
      rw [List.length_zip, ← hvalues, Nat.min_self, hlen]
  | selection hselects ht hvalues hlen hs _ =>
    rw [called_of_isPlain]
    · exact .selection hselects ht hvalues hlen hs
    · refine Runs.ends_all (ends_of_zip ?_ fun q hq => (hs q hq).ends (Delivery.ends_into _))
      rw [List.length_zip, ← hvalues, Nat.min_self, hlen]
  | letIn h _ _ ih =>
    rw [Runs.called_seq (h.ends (Delivery.ends_bind _))]
    exact .letIn h ih
  | letRec hlen hfunctions hs _ _ ih =>
    rw [Runs.called_seq]
    · exact .letRec hlen hfunctions hs ih
    · refine Runs.ends_all (ends_of_zip hlen fun q hq => ?_)
      cases hfunction : q.1.value.isFunction with
      | true => exact hfunctions q hq hfunction ▸ ends_normal
      | false => exact (hs q hq hfunction).ends (Delivery.ends_bind _)
  | empty => exact .empty
  | sequence hlen hs _ _ ih =>
    rw [Runs.called_seq]
    · exact .sequence hlen hs ih
    · exact Runs.ends_all (ends_of_zip hlen fun q hq => (hs q hq).ends Delivery.ends_plain)
  | setVariable htarget h _ =>
    rw [Runs.called_seq (h.ends (Delivery.ends_into _))]
    exact .setVariable htarget h
  | setField htarget h _ _ =>
    rw [Runs.called_seq (ends_seq (htarget.ends Delivery.ends_plain)
      (h.ends (Delivery.ends_into _)))]
    exact .setField htarget h
  | setIndex htarget hindex h _ _ _ =>
    rw [Runs.called_seq (ends_seq (htarget.ends Delivery.ends_plain)
      (ends_seq (hindex.ends Delivery.ends_plain) (h.ends (Delivery.ends_into _))))]
    exact .setIndex htarget hindex h
  | whileLoop hguard h _ _ =>
    rw [Runs.called_seq (ends_iterations (h.ends Delivery.ends_plain))]
    exact .whileLoop hguard h
  | forLoop hstart hlimit h _ _ _ =>
    rw [Runs.called_seq (ends_seq (hstart.ends Delivery.ends_plain)
      (ends_seq (hlimit.ends Delivery.ends_plain)
        (ends_iterations (h.ends Delivery.ends_plain))))]
    exact .forLoop hstart hlimit h
  | @tryCatch _ _ _ handler _ _ _ _ _ _ _ hfinalizer ih ihhandler _ =>
    rw [Runs.called_finalized, Runs.called_handled, Option.map_map]
    · exact .tryCatch ih ihhandler hfinalizer
    · intro q hq
      obtain ⟨f, hf, rfl⟩ := Option.map_eq_some_iff.1 hq
      exact (hfinalizer f hf).ends Delivery.ends_plain
  | throw h _ =>
    rw [Runs.called_seq (h.ends Delivery.ends_plain), hraises]
    exact .throw h
  | rethrow =>
    rw [hraises]
    exact .rethrow
  | debugger =>
    rw [Runs.called_seq (hdoes .pause)]
    exact .debugger
  | emit hlen hs _ =>
    rw [Runs.called_seq (Runs.ends_act (.inl rfl) (.inr rfl))]
    exact .emit hlen hs
  | expanded h _ ih => exact .expanded h ih
  | selfCall hloop hself hargs hlen hs _ =>
    rw [Runs.called_seq, Runs.called_exit]
    · exact .selfCall hloop hself hargs hlen hs
    · exact Runs.ends_all (ends_of_zip hlen fun q hq => (hs q hq).ends Delivery.ends_plain)

end TypedLowering.JavaScript
