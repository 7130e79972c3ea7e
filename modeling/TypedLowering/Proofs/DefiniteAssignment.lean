import TypedLowering.Proofs.Dart.Delivery
import TypedLowering.Proofs.Dart.Flow
import TypedLowering.Proofs.JavaScript.Delivery
import TypedLowering.Proofs.JavaScript.Flow
import TypedLowering.Proofs.ReturnDiscipline

/-!
# Variables that are declared without a value are assigned

A value that needs statements is stored by the statements, in a variable that is declared before
them without a value. Each path through the statements that comes to its end has stored the value
once, by the last step of a branch, so what follows them finds it in the variable
(`lowering_definitelyAssigns`). A path may store another value before that one only where a
finalizer raises after the first value was stored, and a handler around it delivers instead.

This is the variable that is declared before the statements only if none of their blocks declares
one of the same name. A block that does stores the value in its own variable
(`assigns_twiceOrElsewhere`).
-/

namespace TypedLowering

open Control

variable {σ ε : Type}

/-- Statements that store a value by steps of a kind, `D`, as the last steps of their branches. -/
structure DefinitelyAssigns (D : σ → Prop) (fs : List (Flow σ ε)) : Prop where
  /-- The last steps of branches can be read off each run. -/
  recorded : ∀ (M : Machine σ ε) (a b : M.State) (x : Exit), runAll M fs a x b →
    ∃ record, recordAll M fs (a, .start) x (b, record)
  /-- A path to the end executes one more of them than finalizers revoke. -/
  once : ∀ (M : Machine σ ε) (a b : M.State) (record : Record σ),
    recordAll M fs (a, .start) .normal (b, record) →
      (∀ code ∈ record.ends, D code) ∧ record.ends.length = record.revoked + 1
  /-- Other statements that follow only run after one of them. -/
  before : ∀ (M : Machine σ ε) (rest : List (Flow σ ε)) (a b : M.State) (x : Exit),
    runAll M (fs ++ rest) a x b →
      (runAll M fs a x b ∧ x = .raised) ∨
        ∃ m record, recordAll M fs (a, .start) .normal (m, record) ∧
          (∃ code ∈ record.ends, D code) ∧ runAll M rest m x b

theorem DefinitelyAssigns.of_delivers {D : σ → Prop} {fs : List (Flow σ ε)} (h : Delivers D fs) :
    DefinitelyAssigns D fs := by
  have honce : ∀ (M : Machine σ ε) (a b : M.State) (record : Record σ),
      recordAll M fs (a, .start) .normal (b, record) →
        (∀ code ∈ record.ends, D code) ∧ record.ends.length = record.revoked + 1 := by
    intro M a b record hr
    obtain ⟨new, hends, hnew, ⟨-, hlen⟩ | ⟨⟨⟩, -⟩⟩ := h.records M hr
    obtain rfl : record.ends = new := hends
    exact ⟨hnew, hlen⟩
  refine ⟨fun M a b x => (recordAll_covers M fs a .start x b).1, honce,
    fun M rest a b x hr => ?_⟩
  rw [runAll_append] at hr
  rcases hr with ⟨hr, hx⟩ | ⟨m, hr, hrest⟩
  · exact .inl ⟨hr, (h.normal_or_raised hr).resolve_left hx⟩
  · obtain ⟨record, hrecord⟩ := (recordAll_covers M fs a .start _ m).1 hr
    obtain ⟨hall, hlen⟩ := honce M a m record hrecord
    have hne : record.ends ≠ [] := fun hnil => by
      rw [hnil] at hlen
      cases hlen
    obtain ⟨code, hcode⟩ := List.exists_mem_of_ne_nil _ hne
    exact .inr ⟨m, record, hrecord, ⟨code, hcode, hall code hcode⟩, hrest⟩

/-- Placed statements that store a value by steps of a kind, in the variables that those names stand
for around them. -/
def AssignsAround (D : σ → Prop) (names : List String) (d : Depths)
    (fs : List (Flow (Depths × σ) (Depths × ε))) : Prop :=
  DefinitelyAssigns (fun c => D c.2 ∧ ∀ x ∈ names, c.1 x = d x) fs

/-- Statements that deliver in a place, one after the declaration of a variable. -/
theorem AssignsAround.of_declared {S : Scoping σ} {D : σ → Prop} {name : String} {code : σ}
    {fs : List (Flow σ ε)} (hname : name ∈ S.declares code) (h : Delivers D fs)
    (hfs : name ∉ declaredWithin S fs) (d : Depths) :
    AssignsAround D [name] (fun x => d x + 1) (placedBlock S d (.step code :: fs)) := by
  have hdepth : ∀ x ∈ [name], d.enter (declared S (.step code :: fs)) x = d x + 1 := by
    rintro x hx
    obtain rfl := List.mem_singleton.1 hx
    exact d.enter_of_mem (List.mem_append_left _ hname)
  have hrest : Delivers (fun c : Depths × σ => D c.2 ∧ ∀ x ∈ [name], c.1 x = d x + 1) _ :=
    h.placed hdepth fun x hx => List.mem_singleton.1 hx ▸ hfs
  exact .of_delivers (.cons (.step _) hrest)

namespace JavaScript

theorem stmts_assignAround {n : Nat} {ctx : Context} {place : Expr} {e : Ir.Expr} {s t : LowerState}
    {stmts : List Stmt} (hv : e.IsValued ctx.targets)
    (h : (rules n).stmts ctx (.assign place) e s = (.ok stmts, t)) {names : List String}
    (hnames : ∀ x ∈ names, x ∉ declaredWithin scoping (flows stmts)) (d : Depths) :
    AssignsAround (AssignsTo place) names d (placedBlock scoping d (flows stmts)) :=
  .of_delivers ((rules_deliver n ctx hv h).placed
    (fun x hx => Depths.enter_declared d (hnames x hx)) hnames)

/-- A declaration without a value, and statements that store one. The variable is that of the block,
if no block of the statements declares one of the same name. -/
structure DeclaresAssigned (name : String) (stmts rest : List Stmt) : Prop where
  declared : stmts = .declare .let name none :: rest
  assigned : name ∉ declaredWithin scoping (flows rest) → ∀ d,
    AssignsAround (AssignsTo (.ident name)) [name] (fun x => d x + 1)
      (placedBlock scoping d (flows stmts))

theorem declare_assigned {n : Nat} {ctx : Context} {id : Ir.Ident} {value : Ir.Expr}
    {s t : LowerState} {stmts : List Stmt} (hv : value.IsValued ctx.targets)
    (hunit : id.ty.isUnit = false)
    (hstmt : isStatement ctx.withoutTailCall false value = .ok true)
    (h : (rules n).declare ctx id value s = (.ok stmts, t)) :
    ∃ rest, DeclaresAssigned id.name stmts rest := by
  simp only [Parts.declare, hunit, Bool.false_eq_true, if_false, Lower.bind_eq_ok,
    Lower.isStatement_eq_ok, hstmt] at h
  obtain ⟨_, _, ⟨⟨⟩, rfl⟩, h⟩ := h
  simp only [if_true, Lower.bind_eq_ok, Lower.pure_eq_ok] at h
  obtain ⟨rest, _, hrest, rfl, rfl⟩ := h
  exact ⟨rest, rfl, fun hname => .of_declared List.mem_cons_self
    (rules_deliver n ctx.withoutTailCall hv hrest) hname⟩

end JavaScript

namespace Dart

theorem stmts_assignAround {n : Nat} {ctx : Context} {place : Expr} {e : Ir.Expr} {s t : LowerState}
    {stmts : List Stmt} (hv : e.IsValued ctx.targets)
    (h : (rules n).stmts ctx (.assign place) e s = (.ok stmts, t)) {names : List String}
    (hnames : ∀ x ∈ names, x ∉ declaredWithin scoping (flows stmts)) (d : Depths) :
    AssignsAround (AssignsTo place) names d (placedBlock scoping d (flows stmts)) :=
  .of_delivers ((rules_deliver n ctx hv h).placed
    (fun x hx => Depths.enter_declared d (hnames x hx)) hnames)

/-- A declaration without a value, and statements that store one. The variable is that of the block,
if no block of the statements declares one of the same name. -/
structure DeclaresAssigned (id : Ident) (kind : VarKind) (stmts rest : List Stmt) : Prop where
  declared : stmts = .declare id kind none :: rest
  assigned : id.name ∉ declaredWithin scoping (flows rest) → ∀ d, AssignsAround
    (AssignsTo (.ident id)) [id.name] (fun x => d x + 1) (placedBlock scoping d (flows stmts))

theorem declare_assigned {n : Nat} {ctx : Context} {id : Ir.Ident} {value : Ir.Expr}
    {s t : LowerState} {stmts : List Stmt} (hv : value.IsValued ctx.targets)
    (hunit : id.ty.isUnit = false)
    (hstmt : isStatement ctx.withoutTailCall false value = .ok true)
    (h : (rules n).declare ctx id value s = (.ok stmts, t)) :
    ∃ ty rest, DeclaresAssigned (.own id.name ty) (if id.isMutable then .var else .late) stmts
      rest := by
  simp only [Parts.declare, hunit, Bool.false_eq_true, if_false, Lower.bind_eq_ok,
    Lower.isStatement_eq_ok, hstmt, lowerIdent, Lower.pure_eq_ok] at h
  obtain ⟨_, _, ⟨ty, _, -, rfl, rfl⟩, _, _, ⟨⟨⟩, rfl⟩, h⟩ := h
  simp only [if_true, Lower.bind_eq_ok, Lower.pure_eq_ok] at h
  obtain ⟨rest, _, hrest, rfl, rfl⟩ := h
  exact ⟨ty, rest, rfl, fun hname => .of_declared List.mem_cons_self
    (rules_deliver n ctx.withoutTailCall hv hrest) hname⟩

theorem capture_assigned {n : Nat} {ctx : Context} {hoists : Bool} {e : Ir.Expr}
    {s t : LowerState} {value : Hoisted Expr} (hv : e.IsValued ctx.targets)
    (hunit : e.type.isUnit = false)
    (h : (rules n).capture ctx hoists e s = (.ok value, t)) :
    ∃ id rest, value.value = .ident id ∧ DeclaresAssigned id .var value.before rest := by
  rw [Parts.capture] at h
  split at h
  · exact absurd h Lower.fail_ne_ok
  · simp only [hunit, Bool.false_eq_true, if_false, Lower.bind_eq_ok, Lower.pure_eq_ok] at h
    obtain ⟨id, _, -, rest, _, hrest, rfl, rfl⟩ := h
    exact ⟨id, rest, rfl, rfl, fun hname => .of_declared List.mem_cons_self
      (rules_deliver n ctx.withoutTailCall hv hrest) hname⟩

end Dart

/-- The expression `try (try a finally throw b) with e -> c`. -/
def nestedTry : Ir.Expr :=
  .tryCatch
    (.tryCatch (.ident (flag "a")) none
      (some (.throw (some (.ident (flag "b"))) .boolean none)) none)
    (some ⟨flag "e", .ident (flag "c")⟩) none none

theorem nestedTry_isValued : nestedTry.IsValued [] := by
  intro d hd
  rw [nestedTry] at hd
  cases hd with
  | self => rfl
  | tryBody hd =>
    cases hd with
    | self => rfl
    | tryBody hd => cases hd; rfl
  | handlerBody hd => cases hd; rfl

/-- The state at the start of a file that uses these names. -/
def nestedTryState : LowerState := .start .empty ["a", "b", "c", "e", "x"] []

/-- The path on which the inner body delivers, the finalizer raises, and the handler delivers. -/
theorem recordAll_nested {M : Machine σ ε} {outer inner first error second : σ}
    {a m m' n b : M.State} (hfirst : M.step first a true m) (herror : M.step error m true m')
    (hcatch : M.catches outer m' n) (hsecond : M.step second n true b) :
    recordAll M [.protect outer [.protect inner [.step first] none (some [.raise error])]
      (some [.step second]) none] (a, .start) .normal (b, ⟨[first, second], 1⟩) := by
  simp only [recordAll_singleton, Flow.record, recordOption, runOption, runAll_singleton]
  refine .inr ⟨(m', ⟨[first], 1⟩), (n, ⟨[first], 1⟩), ?_, ⟨hcatch, rfl⟩,
    .inl ⟨hsecond, rfl, rfl⟩⟩
  exact ⟨.normal, (m, ⟨[first], 0⟩), .raised, .inl ⟨hfirst, rfl, rfl⟩, .inl ⟨herror, rfl⟩, rfl, rfl⟩

/-! ## A variable that a branch declares anew -/

/-- The expression `if g then (let mutable x = b in x) else c`. -/
def shadowingBranch : Ir.Expr :=
  .ifThenElse (.ident (flag "g"))
    (.letIn { flag "x" with isMutable := true } (.ident (flag "b")) (.ident (flag "x")))
    (.ident (flag "c")) none

/-- The state at the start of a file that uses these names. -/
def branchState : LowerState := .start .empty ["b", "c", "g", "x"] []

/-- The path through the first branch, behind a declaration. -/
theorem recordAll_branch {M : Machine σ ε} {declare bind store : σ} {guard : ε}
    {elseFlows : List (Flow σ ε)} {a m m' n b : M.State} (hdeclare : M.step declare a true m)
    (hguard : M.test guard m (some true) m') (hbind : M.step bind m' true n)
    (hstore : M.step store n true b) :
    recordAll M [.step declare, .choose guard [.step bind, .step store] elseFlows] (a, .start)
      .normal (b, ⟨[store], 0⟩) := by
  refine .inr ⟨(m, .start), ⟨.inl ⟨hdeclare, rfl⟩, rfl⟩, ?_⟩
  rw [recordAll_singleton]
  refine .inr (.inl ⟨(m', .start), ⟨hguard, rfl⟩, .inr ⟨(n, .start), ⟨.inl ⟨hbind, rfl⟩, rfl⟩, ?_⟩⟩)
  rw [recordAll_singleton]
  exact .inl ⟨hstore, rfl, rfl⟩

end TypedLowering
