import TypedLowering.Proofs.JavaScript.Control
import TypedLowering.Proofs.JavaScript.Scoping

/-!
# Names in lowered JavaScript are in scope

If names are in scope in what parts are lowered to (`Parts.KeepsScope`), then so they are in what a
rule makes of the parts, with the names that the rule makes itself (`rules_keepScope`). There is one
lemma for each rule.
-/

namespace TypedLowering.JavaScript

open Lower (Makes)

/-- Whether names are in scope in what parts are lowered to: anywhere in an expression, and in
statements where what they write to is in scope. -/
structure Parts.KeepsScope (r : Parts) : Prop where
  expr : ∀ ctx e, Makes ctx.file (r.expr ctx e) fun N _ code =>
    N.Grounds ctx → e.AllUses N.source → ∀ scope, code.Scoped N scope
  stmts : ∀ ctx strategy e, Makes ctx.file (r.stmts ctx strategy e) fun N looped code =>
    N.Grounds ctx → e.AllUses N.source → ∀ scope, Reaches N looped ctx strategy scope →
      ScopedStmts N scope code

/-- The name of a helper is an imported one. -/
theorem helper_makes (ctx : Context) (selector : String) :
    Makes ctx.file (helper ctx selector) fun N _ x => N.imported x :=
  .importMember _ _

/-- The name of a class is imported, or the source has it. -/
theorem className_makes (ctx : Context) (entity : String) :
    Makes ctx.file (className ctx entity) fun N _ x =>
      N.Grounds ctx → N.source (.entity entity) → N.source (.name x) :=
  .imp (.ofOption _ _) fun N _ x hx hctx hentity => by
    obtain ⟨e, he, rfl⟩ := Option.map_eq_some_iff.1 hx
    exact hctx.entities entity e he hentity

namespace Parts.KeepsScope

variable {r : Parts} (h : r.KeepsScope) (ctx : Context) (strategy : Strategy Expr)
include h

/-- In expressions, names are in scope if they are in the source. -/
theorem exprs (es : List Ir.Expr) : Makes ctx.file (r.exprs ctx es) fun N _ items =>
    N.Grounds ctx → (∀ e ∈ es, e.AllUses N.source) → ∀ scope, ScopedItems N scope items := by
  induction es with
  | nil => exact .pure fun _ _ _ _ _ => trivial
  | cons e es ih =>
    refine .bind (h.expr ctx e) fun _ => .bind ih fun _ => .pure ?_
    intro N _ hrest hfirst hctx hes scope
    obtain ⟨he, hes⟩ := List.forall_mem_cons.1 hes
    exact ⟨hfirst hctx he scope, hrest hctx hes scope⟩

/-- In the code that delivers a value, names are in scope if the place is. -/
theorem delivered (e : Ir.Expr) : Makes ctx.file (r.delivered ctx strategy e) fun N looped code =>
    N.Grounds ctx → e.AllUses N.source → ∀ scope, Reaches N looped ctx strategy scope →
      ScopedStmts N scope code :=
  .bind (h.expr ctx.withoutTailCall e) fun _ => .pure fun _ _ hvalue hctx he scope hreach =>
    scoped_deliver hreach.place (hvalue hctx he scope)

/-- In a declaration, names are in scope if they are in the parts. -/
theorem declare (id : Ir.Ident) (e : Ir.Expr) : Makes ctx.file (r.declare ctx id e) fun N _ code =>
    N.Grounds ctx → N.source (.name id.name) → e.AllUses N.source →
      ∀ scope, ScopedStmts N scope code := by
  refine .ite (fun _ => .imp (h.stmts _ .effect e) fun _ _ _ hstmts hctx _ he scope => ?_)
    fun _ => .bind (.isStatement _ _ _) fun _ => .ite (fun _ => ?_) fun _ => ?_
  · exact hstmts hctx he scope (.plain trivial)
  · refine .bind (h.stmts _ (.assign (.ident id.name)) e) fun _ => .pure ?_
    intro N _ hstmts _ hctx hid he scope
    exact ⟨⟨.inl hid, trivial, trivial⟩, hstmts hctx he _ (.plain fun _ => .inl hid)⟩
  · refine .bind (h.expr _ e) fun _ => .pure ?_
    intro N _ hvalue _ hctx hid he scope
    exact ⟨⟨.inl hid, hvalue hctx he scope, trivial⟩, trivial⟩

/-- In an arrow function that is called at once, names are in scope if they are in the parts. -/
theorem invoked (e : Ir.Expr) : Makes ctx.file (r.invoked ctx e) fun N _ code =>
    N.Grounds ctx → e.AllUses N.source → ∀ scope, code.Scoped N scope :=
  .bind (h.stmts _ _ e) fun _ => .pure fun _ _ hbody hctx he _ =>
    ⟨⟨nofun, nofun, hbody hctx he _ (.plain (placeScoped_ofType _))⟩, trivial⟩

omit h in

/-- The body of an arrow function has the scope of its statements. -/
theorem scoped_arrowBody {N : Naming} {scope : Scope} {stmts : List Stmt}
    (hstmts : ScopedStmts N scope stmts) : (arrowBody stmts).Scoped N scope := by
  unfold arrowBody
  split
  · exact hstmts.1
  · exact hstmts

omit h in
/-- The parameters that a function declares. -/
theorem fits_declared {N : Naming} {params : List Ir.Ident}
    (hparams : ∀ p ∈ params, Binds N.source p.name) :
    ∀ p ∈ (declaredParams params).map fun p => (⟨p.name, false⟩ : Param), p.Fits N := by
  intro p hp
  obtain ⟨q, hq, rfl⟩ := List.mem_map.1 hp
  exact .inl (hparams q (mem_of_mem_declaredParams hq)).1

/-- In a closure, names are in scope if they are in the parts. -/
theorem closure (params : List Ir.Ident) (body : Ir.Expr) :
    Makes ctx.file (r.closure ctx params body) fun N _ code => N.Grounds ctx →
      (∀ p ∈ params, Binds N.source p.name) → body.AllUses N.source →
        ∀ scope, code.Scoped N scope :=
  .bind (h.stmts _ _ body) fun _ => .pure fun _ _ hstmts hctx hparams hbody _ =>
    ⟨nofun, fits_declared hparams,
      scoped_arrowBody (hstmts hctx hbody _ (.plain (placeScoped_ofType _)))⟩

omit h in
/-- A function that became a loop: the slots are its parameters, and its copies bind the parameters
of the source. -/
theorem scoped_loopBody {N : Naming} {scope : Scope} {loop : TailCall} {body : List Stmt}
    (isUnit : Bool) (hparams : ∀ p ∈ loop.params, N.source (.name p.name))
    (hslots : ∀ slot ∈ loop.slots, N.slot slot ∧ slot ∈ scope.params)
    (hbody : ∀ scope', scope'.params = scope.params → ScopedStmts N scope' body) :
    ScopedStmts N scope (loopBody loop (.ofType isUnit) body) := by
  have hcopies : ∀ scope', scope'.params = scope.params → ScopedStmts N scope'
      (loop.bindings.map fun b => .declare .const b.1.name (some (.ident b.2))) := by
    have hmem : ∀ b ∈ loop.bindings, b.1 ∈ loop.params ∧ b.2 ∈ loop.slots :=
      fun b hb => List.of_mem_zip hb
    generalize loop.bindings = bs at hmem
    induction bs with
    | nil => exact fun _ _ => trivial
    | cons b bs ih =>
      obtain ⟨hb, hbs⟩ := List.forall_mem_cons.1 hmem
      refine fun scope' hscope => ⟨⟨.inl (hparams _ hb.1), ?_, trivial⟩, ih hbs _ hscope⟩
      obtain ⟨hslot, hparam⟩ := hslots _ hb.2
      exact .inr (.inr (.inl ⟨hslot, hscope ▸ hparam⟩))
  have hexit : ∀ scope', ScopedStmts N scope'
      (if (Strategy.ofType isUnit : Strategy Expr).isEffect then [.of (.breakTo none)]
        else []) := by
    intro scope'
    cases isUnit with
    | true => exact ⟨trivial, trivial⟩
    | false => exact trivial
  refine ⟨⟨trivial, ?_⟩, trivial⟩
  exact scopedStmts_append.2
    ⟨scopedStmts_append.2 ⟨hcopies scope rfl, hbody _ rfl⟩, hexit _⟩

/-- The parameters of a function are those of the source, and its body does not know the loop. If
self calls became jumps, then they are the slots. -/
theorem function (name : Option String) (params : List Ir.Ident) (body : Ir.Expr) :
    Makes ctx.file (r.function ctx name params body) fun N _ f => N.Grounds ctx →
      (∀ p ∈ params, Binds N.source p.name) → body.AllUses N.source →
        (∀ p ∈ f.1, p.Fits N) ∧ ScopedStmts N (.ofParams f.1) f.2 := by
  unfold Parts.function
  dsimp only
  split
  · refine .bind (.allocateTailCall _ _) fun loop =>
      .bind (.inFunction (h.stmts _ (.ofType body.type.isUnit) body)) fun inner =>
        .ite (fun hlooped => .pure ?_) fun hlooped => .pure ?_
    -- The slots are the parameters, so a jump may write to them.
    · intro N _ hinner hloop hctx hparams hbody
      obtain ⟨hdeclared, hlength, hslots⟩ := hloop
      have hnames : Scope.ofParams (loop.bindings.map fun b => ⟨b.2, false⟩) =
          ⟨loop.slots, []⟩ := by
        rw [Scope.ofParams, List.map_map]
        exact congrArg (Scope.mk · []) (List.map_snd_zip (Nat.le_of_eq hlength.symm))
      refine ⟨fun p hp => ?_, ?_⟩
      · obtain ⟨b, hb, rfl⟩ := List.mem_map.1 hp
        exact .inr (hslots _ (List.of_mem_zip hb).2)
      · rw [hnames]
        refine scoped_loopBody _ (fun p hp => ?_) (fun slot hslot => ⟨hslots slot hslot, hslot⟩)
          fun scope hscope => hinner hctx hbody scope ⟨fun _ l hl slot hslot => ?_, ?_⟩
        · rw [hdeclared] at hp
          exact (hparams p (mem_of_mem_declaredParams (mem_of_mem_declaredParams hp))).1
        · obtain rfl := Option.some.inj hl
          exact ⟨hslots slot hslot, hscope ▸ hslot⟩
        · exact placeScoped_ofType _
    -- There was no jump, so the body needs no slots.
    · intro N _ hinner _ hctx hparams hbody
      exact ⟨fits_declared hparams,
        hinner hctx hbody _ ⟨fun htrue => absurd htrue hlooped, placeScoped_ofType _⟩⟩
  · exact .bind (h.stmts _ _ body) fun _ => .pure fun _ _ hstmts hctx hparams hbody =>
      ⟨fits_declared hparams, hstmts hctx hbody _ (.plain (placeScoped_ofType _))⟩

/-- In a local function, names are in scope if they are in the parts. -/
theorem localFunction (id : Ir.Ident) (params : List Ir.Ident) (body : Ir.Expr) :
    Makes ctx.file (r.localFunction ctx id params body) fun N _ stmt => N.Grounds ctx →
      N.source (.name id.name) → (∀ p ∈ params, Binds N.source p.name) →
        body.AllUses N.source → ∀ scope, stmt.Scoped N scope :=
  .bind (h.function _ _ _ _) fun _ => .pure fun _ _ hf hctx hid hparams hbody _ =>
    ⟨fun _ hx => Option.some.inj hx ▸ hid, hf hctx hparams hbody⟩

/-! ## Expressions -/

/-- In a property list, names are in scope if they are in the parts. -/
theorem properties (keys : List String) (values : List Ir.Expr) :
    Makes ctx.file (r.properties ctx keys values) fun N _ members => N.Grounds ctx →
      (∀ e ∈ values, e.AllUses N.source) → ∀ scope, ScopedMembers N scope members := by
  induction keys generalizing values with
  | nil => exact .pure fun _ _ _ _ _ => trivial
  | cons key keys ih =>
    cases values with
    | nil => exact .pure fun _ _ _ _ _ => trivial
    | cons value values =>
      refine .bind (h.expr _ value) fun _ => .bind (ih values) fun _ => .pure ?_
      intro N _ hrest hfirst hctx hvalues scope
      obtain ⟨hvalue, hvalues⟩ := List.forall_mem_cons.1 hvalues
      exact ⟨hfirst hctx hvalue scope, hrest hctx hvalues scope⟩

/-- In an array, a tuple, a record or a case of a union, names are in scope if they are in the
parts. -/
theorem aggregate (kind : Ir.Aggregate) (values : List Ir.Expr) :
    Makes ctx.file (r.aggregate ctx kind values) fun N _ code => N.Grounds ctx →
      (∀ u ∈ kind.uses, N.source u) → (∀ e ∈ values, e.AllUses N.source) →
        ∀ scope, code.Scoped N scope := by
  cases kind with
  | array | tuple =>
    exact .bind (h.exprs _ values) fun _ => .pure fun _ _ hitems hctx _ hvalues scope =>
      hitems hctx hvalues scope
  | record entity =>
    refine .bind (className_makes ctx entity) fun _ => .bind (h.exprs _ values) fun _ => .pure ?_
    intro N _ hitems hname hctx hkind hvalues scope
    exact ⟨.inl (hname hctx (hkind _ List.mem_cons_self)), hitems hctx hvalues scope⟩
  | anonymous =>
    exact .bind (h.properties _ _ values) fun _ => .pure fun _ _ hmembers hctx _ hvalues scope =>
      hmembers hctx hvalues scope
  | union _ entity =>
    refine .bind (h.exprs _ values) fun _ => .bind (className_makes ctx entity) fun _ => .pure ?_
    intro N _ hname hitems hctx hkind hvalues scope
    exact ⟨.inl (hname hctx (hkind _ List.mem_cons_self)), trivial, hitems hctx hvalues scope,
      trivial⟩

/-- In a member of an object, names are in scope if they are in the parts. -/
theorem objectMember (m : Ir.ObjectMember) : Makes ctx.file (r.objectMember ctx m) fun N _ code =>
    N.Grounds ctx → (∀ p ∈ m.args, Binds N.source p.name) → m.body.AllUses N.source →
      ∀ scope, code.value.Scoped N scope := by
  unfold Parts.objectMember
  cases m.kind with
  | value =>
    exact .bind (h.expr _ m.body) fun _ => .pure fun _ _ hvalue hctx _ hbody scope =>
      hvalue hctx hbody scope
  | method | getter | setter =>
    exact .bind (h.function _ _ m.args m.body) fun _ => .pure fun _ _ hf hctx hargs hbody _ =>
      ⟨nofun, hf hctx hargs hbody⟩

/-- In the members of an object, names are in scope if they are in the parts. -/
theorem objectMembers (ms : List Ir.ObjectMember) :
    Makes ctx.file (r.objectMembers ctx ms) fun N _ members => N.Grounds ctx →
      (∀ m ∈ ms, (∀ p ∈ m.args, Binds N.source p.name) ∧ m.body.AllUses N.source) →
        ∀ scope, ScopedMembers N scope members := by
  induction ms with
  | nil => exact .pure fun _ _ _ _ _ => trivial
  | cons m ms ih =>
    refine .bind (h.objectMember _ m) fun ⟨_, _⟩ => .bind ih fun _ => .pure ?_
    intro N _ hrest hfirst hctx hms scope
    obtain ⟨hm, hms⟩ := List.forall_mem_cons.1 hms
    exact ⟨hfirst hctx hm.1 hm.2 scope, hrest hctx hms scope⟩

/-- In a call, names are in scope if they are in the parts. -/
theorem call (callee : Ir.Expr) (receiver : Option Ir.Expr) (args : List Ir.Expr) (isNew : Bool) :
    Makes ctx.file (r.call ctx callee receiver args isNew) fun N _ code => N.Grounds ctx →
      callee.AllUses N.source → (∀ e ∈ receiver.toList ++ args, e.AllUses N.source) →
        ∀ scope, code.Scoped N scope := by
  refine .bind (h.expr _ callee) fun _ => .bind (h.exprs _ _) fun _ => .pure ?_
  intro N _ hitems hf hctx hcallee hargs scope
  have hvalues : ∀ e ∈ receiver.toList ++ discardUnitArg args, e.AllUses N.source := by
    intro e he
    rcases List.mem_append.1 he with he | he
    · exact hargs e (List.mem_append_left _ he)
    · exact hargs e (List.mem_append_right _ (mem_of_mem_discardUnitArg he))
  cases isNew <;> exact ⟨hf hctx hcallee scope, hitems hctx hvalues scope⟩

/-- In an application to curried arguments, names are in scope if they are in the parts. -/
theorem applied (f : Expr) (args : List Ir.Expr) :
    Makes ctx.file (r.applied ctx f args) fun N _ code => N.Grounds ctx →
      (∀ scope, f.Scoped N scope) → (∀ e ∈ args, e.AllUses N.source) →
        ∀ scope, code.Scoped N scope := by
  induction args generalizing f with
  | nil => exact .pure fun _ _ _ hf _ => hf
  | cons arg args ih =>
    refine .bind (h.expr _ arg) fun _ => .imp (ih _) ?_
    intro N _ _ hcode hvalue hctx hf hargs
    obtain ⟨harg, hargs⟩ := List.forall_mem_cons.1 hargs
    exact hcode hctx (fun scope => ⟨hf scope, hvalue hctx harg scope, trivial⟩) hargs

/-- In a binary operation, names are in scope if they are in the parts. -/
theorem binary (op : Ir.BinaryOp) (left right : Ir.Expr) (ty : Ir.Ty) :
    Makes ctx.file (r.binary ctx op left right ty) fun N _ code => N.Grounds ctx →
      left.AllUses N.source → right.AllUses N.source → ∀ scope, code.Scoped N scope := by
  refine .bind (h.expr _ left) fun a => .bind (h.expr _ right) fun b => ?_
  have hplain : ∀ {N : Naming} {scope : Scope}, a.Scoped N scope → b.Scoped N scope →
      (Expr.binary (binaryOperator op) a b).Scoped N scope := fun ha hb => ⟨ha, hb⟩
  cases op with
  | equal | notEqual =>
    refine .ite (fun _ => .pure fun _ _ hb ha hctx hleft hright scope => ?_) fun _ =>
      .bind (helper_makes _ _) fun _ => .pure fun _ _ hname hb ha hctx hleft hright scope => ?_
    · exact hplain (ha hctx hleft scope) (hb hctx hright scope)
    · exact ⟨.inr (.inl hname), ha hctx hleft scope, hb hctx hright scope, trivial⟩
  | divide =>
    refine .pure fun _ _ hb ha hctx hleft hright scope => ?_
    split
    · exact ⟨hplain (ha hctx hleft scope) (hb hctx hright scope), trivial⟩
    · exact hplain (ha hctx hleft scope) (hb hctx hright scope)
  | _ =>
    exact .pure fun _ _ hb ha hctx hleft hright scope =>
      hplain (ha hctx hleft scope) (hb hctx hright scope)

/-- In the place that an assignment writes to, names are in scope if they are in the parts. -/
theorem place (target : Ir.Expr) (field : Option String) :
    Makes ctx.file (r.place ctx target field) fun N _ code => N.Grounds ctx →
      target.AllUses N.source → ∀ scope, code.Scoped N scope := by
  refine .bind (h.expr _ target) fun _ => .pure fun _ _ hobj hctx htarget scope => ?_
  cases field <;> exact hobj hctx htarget scope

/-- In the element that an assignment writes to, names are in scope if they are in the parts. -/
theorem element (target index : Ir.Expr) :
    Makes ctx.file (r.element ctx target index) fun N _ code => N.Grounds ctx →
      target.AllUses N.source → index.AllUses N.source → ∀ scope, code.Scoped N scope :=
  .bind (h.expr _ target) fun _ => .bind (h.expr _ index) fun _ =>
    .pure fun _ _ hi hobj hctx htarget hindex scope =>
      ⟨hobj hctx htarget scope, hi hctx hindex scope⟩

omit h in

/-- In a test, names are in scope if they are in the value. -/
theorem test_makes (value : Expr) (kind : Ir.TestKind) (loc : Option Ir.Location) :
    Makes ctx.file (test ctx value kind loc) fun N _ code => N.Grounds ctx →
      (∀ u ∈ kind.uses, N.source u) → (∀ scope, value.Scoped N scope) →
        ∀ scope, code.Scoped N scope := by
  have hbuiltin : ∀ {N : Naming} {x : String} (scope : Scope), N.Grounds ctx → x ∈ builtins →
      scope.Sees N x := fun _ hctx hx => .inl (hctx.builtins _ hx)
  cases kind with
  | option | unionCase => exact .pure fun _ _ _ _ hvalue scope => ⟨hvalue scope, trivial⟩
  | type ty =>
    cases ty with
    | any => exact .pure fun _ _ _ _ _ _ => trivial
    | boolean | char | string | number | lambda | delegate =>
      exact .pure fun _ _ _ _ hvalue scope => ⟨hvalue scope, trivial⟩
    | array | list | tuple =>
      exact .pure fun _ _ hctx _ hvalue scope =>
        ⟨hbuiltin scope hctx (by simp [builtins]), hvalue scope, trivial⟩
    | regex =>
      exact .pure fun _ _ hctx _ hvalue scope =>
        ⟨hvalue scope, hbuiltin scope hctx (by simp [builtins])⟩
    | declared entity =>
      exact .bind (className_makes ctx entity) fun _ => .pure
        fun _ _ hname hctx hkind hvalue scope =>
          ⟨hvalue scope, .inl (hname hctx (hkind _ List.mem_cons_self))⟩
    | unit | option | param => exact .fail _

/-- In a node that is an expression, names are in scope. -/
theorem exprCore (e : Ir.Expr) : Makes ctx.file (r.exprCore ctx e) fun N _ code =>
    N.Grounds ctx → e.AllUses N.source → ∀ scope, code.Scoped N scope := by
  cases e with
  | literal value =>
    refine .pure fun _ _ _ _ _ => ?_
    cases value <;> exact trivial
  | option value =>
    cases value with
    | none => exact .pure fun _ _ _ _ _ => trivial
    | some value =>
      exact .imp (h.expr _ value) fun _ _ _ hvalue hctx he =>
        hvalue hctx (he.of_child List.mem_cons_self)
  | aggregate kind values =>
    exact .imp (h.aggregate _ kind values) fun _ _ _ hcode hctx he =>
      hcode hctx he.uses fun _ => he.of_child
  | ident id =>
    refine .pure fun _ _ _ he _ => ?_
    split
    · exact trivial
    · exact .inl (he.uses _ List.mem_cons_self)
  | cast inner =>
    exact .imp (h.expr _ inner) fun _ _ _ hcode hctx he =>
      hcode hctx (he.of_child List.mem_cons_self)
  | imported =>
    exact .bind (.of_any (.resolveImport _ _)) fun _ => .bind (.importMember _ _) fun _ =>
      .pure fun _ _ hname _ _ _ _ => .inr (.inl hname)
  | lambda arg body | delegate args body =>
    exact .imp (h.closure _ _ body) fun _ _ _ hcode hctx he =>
      hcode hctx (Use.forall_binders.1 he.uses) (he.of_child List.mem_cons_self)
  | object members ty base =>
    refine .bind (h.objectMembers _ members) fun _ => ?_
    have hmembers : ∀ {N : Naming}, (Ir.Expr.object members ty base).AllUses N.source →
        ∀ m ∈ members, (∀ p ∈ m.args, Binds N.source p.name) ∧ m.body.AllUses N.source :=
      fun he m hm => ⟨Use.forall_binders.1 fun u hu => he.uses u (List.mem_flatMap.2 ⟨m, hm, hu⟩),
        he.of_child (List.mem_append_left _ (List.mem_map_of_mem hm))⟩
    cases base with
    | none => exact .pure fun _ _ hobj hctx he => hobj hctx (hmembers he)
    | some base =>
      refine .bind (h.expr _ base) fun _ => .pure fun _ _ hbase hobj hctx he scope => ?_
      exact ⟨.inl (hctx.builtins _ (by simp [builtins])),
        hbase hctx (he.of_child (by simp [Ir.Expr.children])) scope, hobj hctx (hmembers he) scope,
        trivial⟩
  | call callee receiver args isNew =>
    exact .imp (h.call _ callee receiver args isNew) fun _ _ _ hcode hctx he =>
      hcode hctx (he.of_child List.mem_cons_self)
        fun _ hmem => he.of_child (List.mem_cons_of_mem _ hmem)
  | apply f args =>
    refine .bind (h.expr _ f) fun _ => .imp (h.applied _ _ args) ?_
    intro _ _ _ hcode hf hctx he
    exact hcode hctx (hf hctx (he.of_child List.mem_cons_self))
      fun _ hmem => he.of_child (List.mem_cons_of_mem _ hmem)
  | unary op operand =>
    exact .bind (h.expr _ operand) fun _ => .pure fun _ _ hvalue hctx he =>
      hvalue hctx (he.of_child List.mem_cons_self)
  | get obj kind =>
    exact .bind (h.expr _ obj) fun _ => .pure fun _ _ hobj hctx he scope =>
      scoped_access (hobj hctx (he.of_child List.mem_cons_self) scope) kind
  | binary op left right =>
    exact .imp (h.binary _ op left right _) fun _ _ _ hcode hctx he =>
      hcode hctx (he.of_child List.mem_cons_self) (he.of_child (by simp [Ir.Expr.children]))
  | logical op left right =>
    refine .bind (h.expr _ left) fun _ => .bind (h.expr _ right) fun _ => .pure ?_
    intro _ _ hb ha hctx he scope
    exact ⟨ha hctx (he.of_child List.mem_cons_self) scope,
      hb hctx (he.of_child (by simp [Ir.Expr.children])) scope⟩
  | emit template args =>
    exact .bind (h.exprs _ args) fun _ => .pure fun _ _ hargs hctx he scope =>
      ⟨he.uses _ List.mem_cons_self, hargs hctx (fun _ => he.of_child) scope⟩
  | sequence es =>
    exact .bind (h.exprs _ es) fun _ => .pure fun _ _ hitems hctx he scope =>
      scoped_sequenceOf (hitems hctx (fun _ => he.of_child) scope)
  | getIndex obj index =>
    exact .imp (h.element _ obj index) fun _ _ _ hcode hctx he =>
      hcode hctx (he.of_child List.mem_cons_self) (he.of_child (by simp [Ir.Expr.children]))
  | set target field value =>
    refine .bind (h.place _ target field) fun _ => .bind (h.expr _ value) fun _ => .pure ?_
    intro _ _ hvalue hplace hctx he scope
    exact ⟨hplace hctx (he.of_child List.mem_cons_self) scope,
      hvalue hctx (he.of_child (by simp [Ir.Expr.children])) scope⟩
  | setIndex target index value =>
    refine .bind (h.element _ target index) fun _ => .bind (h.expr _ value) fun _ => .pure ?_
    intro _ _ hvalue hplace hctx he scope
    exact ⟨hplace hctx (he.of_child List.mem_cons_self)
        (he.of_child (by simp [Ir.Expr.children])) scope,
      hvalue hctx (he.of_child (by simp [Ir.Expr.children])) scope⟩
  | test value kind =>
    refine .bind (h.expr _ value) fun _ => .imp (test_makes _ _ kind _) ?_
    intro _ _ _ hcode hvalue hctx he
    exact hcode hctx he.uses (hvalue hctx (he.of_child List.mem_cons_self))
  | ifThenElse guard thenExpr elseExpr =>
    refine .bind (h.expr _ guard) fun _ => .bind (h.expr _ thenExpr) fun _ =>
      .bind (h.expr _ elseExpr) fun _ => .pure ?_
    intro _ _ helse hthen hguard hctx he scope
    exact ⟨hguard hctx (he.of_child List.mem_cons_self) scope,
      hthen hctx (he.of_child (by simp [Ir.Expr.children])) scope,
      helse hctx (he.of_child (by simp [Ir.Expr.children])) scope⟩
  | decisionTree dispatcher targets =>
    exact .imp (h.expr _ dispatcher) fun _ _ _ hcode hctx he =>
      hcode (hctx.tree he) (he.of_child List.mem_cons_self)
  | success index =>
    refine .bind (.ofOption _ _) fun t => .imp (h.expr _ t.body) ?_
    intro _ _ _ hcode ht hctx _
    exact hcode hctx (hctx.targets t (List.mem_of_getElem? ht)).2
  | curry inner =>
    refine .bind (helper_makes _ _) fun _ => .bind (h.expr _ inner) fun _ => .pure ?_
    intro _ _ hvalue hname hctx he scope
    exact ⟨.inr (.inl hname), hvalue hctx (he.of_child List.mem_cons_self) scope, trivial⟩
  | throw | debugger | letIn | letRec | whileLoop | forLoop | tryCatch => exact h.invoked _ _

omit h in

/-- The expansion of a call has the names of the source. -/
theorem expansion?_makes (e : Ir.Expr) : Makes ctx.file (expansion? ctx e) fun N _ o =>
    N.Grounds ctx → e.AllUses N.source → ∀ expanded ∈ o, expanded.AllUses N.source := by
  unfold expansion?
  split
  · exact .imp (.expandInline ctx _ _) fun _ _ _ ho hctx he =>
      ho hctx fun _ hmem => he.of_child (List.mem_cons_of_mem _ hmem)
  · exact .pure fun _ _ _ _ => nofun

/-- In any node in the place of an expression, names are in scope. -/
theorem exprRule (e : Ir.Expr) : Makes ctx.file (r.exprRule ctx e) fun N _ code =>
    N.Grounds ctx → e.AllUses N.source → ∀ scope, code.Scoped N scope := by
  refine .bind (expansion?_makes _ e) fun expanded => ?_
  cases expanded with
  | some expanded =>
    exact .imp (h.expr _ expanded) fun _ _ _ hcode hexpanded hctx he =>
      hcode hctx (hexpanded hctx he expanded rfl)
  | none =>
    refine .bind (.of_any (Deepens.below_isInvoked _ _)) fun _ => .ite (fun _ => ?_) fun _ => ?_
    · exact .imp (h.invoked _ e) fun _ _ _ hcode _ _ => hcode
    · exact .bind (h.exprCore _ e) fun _ => .pure fun _ _ hvalue _ _ hctx he scope =>
        scoped_withLoc (hvalue hctx he scope) _

/-! ## Statements -/

/-- In the writes to the slots of a loop, names are in scope if the slots are parameters around. -/
theorem slotWrites (slots : List (Ir.Ident × String)) (args : List Ir.Expr) :
    Makes ctx.file (r.slotWrites ctx slots args) fun N _ code => N.Grounds ctx →
      (∀ e ∈ args, e.AllUses N.source) → ∀ scope,
        (∀ b ∈ slots, N.slot b.2 ∧ b.2 ∈ scope.params) → ScopedStmts N scope code := by
  induction slots generalizing args with
  | nil => exact .pure fun _ _ _ _ _ _ => trivial
  | cons b slots ih =>
    cases args with
    | nil => exact .pure fun _ _ _ _ _ _ => trivial
    | cons arg args =>
      rw [slotWrites_cons]
      refine .bind (h.expr _ arg) fun _ => .bind (ih args) fun _ => .pure ?_
      intro _ _ hrest hvalue hctx hargs scope hslots
      obtain ⟨harg, hargs⟩ := List.forall_mem_cons.1 hargs
      obtain ⟨hb, hslots⟩ := List.forall_mem_cons.1 hslots
      split
      · exact hrest hctx hargs scope hslots
      · exact ⟨⟨.inr (.inr (.inl hb)), hvalue hctx harg scope⟩, hrest hctx hargs _ hslots⟩

/-- A jump makes use of the loop, so the slots are in scope. -/
theorem tailCall (loop : TailCall) (args : List Ir.Expr) :
    Makes ctx.file (r.tailCall ctx loop args) fun N looped code => N.Grounds ctx →
      (∀ e ∈ args, e.AllUses N.source) → ∀ scope,
        (looped = true → ∀ slot ∈ loop.slots, N.slot slot ∧ slot ∈ scope.params) →
          ScopedStmts N scope code := by
  refine .bind .markLooped fun _ => .bind (h.slotWrites _ loop.bindings _) fun _ => .pure ?_
  intro _ _ hwrites hlooped hctx hargs scope hslots
  refine scopedStmts_append.2 ⟨?_, trivial, trivial⟩
  exact hwrites hctx (fun e he => hargs e (mem_of_mem_discardUnitArg he)) scope
    fun b hb => hslots hlooped b.2 (List.of_mem_zip hb).2

/-- In a recursive let, names are in scope if they are in the parts. -/
theorem recursive (bs : List Ir.Binding) : Makes ctx.file (r.recursive ctx bs) fun N _ code =>
    N.Grounds ctx → (∀ b ∈ bs, N.source (.name b.ident.name) ∧ b.value.AllUses N.source) →
      ∀ scope, ScopedStmts N scope code := by
  induction bs with
  | nil => exact .pure fun _ _ _ _ _ => trivial
  | cons b bs ih =>
    rcases recursive_cons r ctx b bs with ⟨params, body, name, hvalue, heq⟩ | heq
    · rw [heq]
      refine .bind (h.localFunction _ b.ident params body) fun _ => .bind ih fun _ => .pure ?_
      intro N _ hrest hfirst hctx hbs scope
      obtain ⟨hb, hbs⟩ := List.forall_mem_cons.1 hbs
      have hlambda : (∀ p ∈ params, Binds N.source p.name) ∧ body.AllUses N.source := by
        have huncast := hb.2.uncast
        rcases hvalue with hvalue | ⟨arg, rfl, hvalue⟩ <;>
        · rw [hvalue] at huncast
          exact ⟨Use.forall_binders.1 huncast.uses, huncast.of_child List.mem_cons_self⟩
      exact ⟨hfirst hctx hb.1 hlambda.1 hlambda.2 scope, hrest hctx hbs _⟩
    · rw [heq]
      refine .bind (h.declare _ b.ident b.value) fun _ => .bind ih fun _ => .pure ?_
      intro N _ hrest hfirst hctx hbs scope
      obtain ⟨hb, hbs⟩ := List.forall_mem_cons.1 hbs
      exact scopedStmts_append.2 ⟨hfirst hctx hb.1 hb.2 scope, hrest hctx hbs _⟩

/-- In a sequence, names are in scope if the place of its value is. -/
theorem sequence (es : List Ir.Expr) :
    Makes ctx.file (r.sequence ctx strategy es) fun N looped code => N.Grounds ctx →
      (∀ e ∈ es, e.AllUses N.source) → ∀ scope, Reaches N looped ctx strategy scope →
        ScopedStmts N scope code := by
  induction es with
  | nil => exact .pure fun _ _ _ _ _ _ => scoped_deliverUnit strategy
  | cons e es ih =>
    cases es with
    | nil =>
      exact .imp (h.stmts _ _ e) fun _ _ _ hcode hctx hes =>
        hcode hctx (hes e List.mem_cons_self)
    | cons =>
      refine .bind (h.stmts _ .effect e) fun _ => .bind ih fun _ => .pure ?_
      intro _ _ hrest hfirst hctx hes scope hreach
      obtain ⟨he, hes⟩ := List.forall_mem_cons.1 hes
      exact scopedStmts_append.2 ⟨hfirst hctx he scope (.plain trivial),
        hrest hctx hes _ (hreach.after _)⟩

/-- In an assignment, names are in scope if the place is. -/
theorem assignment (place : Expr) (e : Ir.Expr) (loc : Option Ir.Location) :
    Makes ctx.file (r.assignment ctx.withoutTailCall place e loc) fun N _ code => N.Grounds ctx →
      (∀ scope, place.Scoped N scope) → e.AllUses N.source → ∀ scope, ScopedStmts N scope code := by
  refine .bind (.isStatement _ _ _) fun _ => .ite (fun _ => ?_) fun _ => ?_
  · exact .imp (h.stmts _ (.assign place) e) fun _ _ _ hcode _ hctx hplace he scope =>
      hcode hctx he scope (.plain hplace)
  · refine .bind (h.expr _ e) fun value => .pure fun _ _ hvalue _ hctx hplace he scope => ?_
    exact ⟨scoped_withLoc (e := .assign place value) ⟨hplace scope, hvalue hctx he scope⟩ loc,
      trivial⟩

/-- In a counting loop, names are in scope; the counter is declared in its head. -/
theorem forLoop (id : Ir.Ident) (start limit body : Ir.Expr) (isUp : Bool)
    (loc : Option Ir.Location) :
    Makes ctx.file (r.forLoop ctx.withoutTailCall id start limit body isUp loc) fun N _ code =>
      N.Grounds ctx → N.source (.name id.name) → start.AllUses N.source →
        limit.AllUses N.source → body.AllUses N.source → ∀ scope, ScopedStmts N scope code := by
  refine .bind (h.expr _ start) fun start => .bind (h.expr _ limit) fun limit => ?_
  have hloop : ∀ {N : Naming} {scope : Scope} {bound : Expr} {stmts : List Stmt}
      {comparison step : Operator} (before : List Stmt), N.source (.name id.name) →
      (∀ scope, start.Scoped N scope) → ScopedStmts N scope before →
      bound.Scoped N (scope.after before) → (∀ scope, ScopedStmts N scope stmts) →
      ScopedStmts N scope (before ++ [(⟨loc, .forLoop
        (some ⟨.let, [⟨id.name, some start⟩]⟩) (some (.binary comparison (.ident id.name) bound))
        (some (.binary step (.ident id.name) (.number 1))) stmts⟩ : Stmt)]) :=
    fun _ hid hstart hbefore hbound hstmts => scopedStmts_append.2 ⟨hbefore,
      ⟨⟨.inl hid, hstart _, trivial⟩, ⟨.inl hid, hbound⟩, ⟨.inl hid, trivial⟩, hstmts _⟩, trivial⟩
  dsimp only
  refine .ite (fun _ => ?_) fun _ => .bind (.allocateTemporary (.inr rfl)) fun name => ?_
  · rw [pure_bind]
    refine .bind (h.stmts _ .effect body) fun _ => ?_
    cases isUp <;>
    · refine .pure fun _ _ hstmts hlimit hstart hctx hid hs hl hb scope => ?_
      exact hloop [] hid (hstart hctx hs) trivial (hlimit hctx hl _)
        fun _ => hstmts hctx hb _ (.plain trivial)
  · rw [pure_bind]
    refine .bind (h.stmts _ .effect body) fun _ => ?_
    cases isUp <;>
    · refine .pure fun _ _ hstmts hname hlimit hstart hctx hid hs hl hb scope => ?_
      refine hloop _ hid (hstart hctx hs) ⟨⟨.inr hname, hlimit hctx hl scope, trivial⟩, trivial⟩ ?_
        fun _ => hstmts hctx hb _ (.plain trivial)
      exact .inr (.inr (.inr ⟨hname, scope.mem_after_declare _ _ _⟩))

/-- In a handler, names are in scope if the place of the value is. -/
theorem handler (hd : Option Ir.Handler) :
    Makes ctx.file (r.handler ctx.withoutTailCall strategy hd) fun N _ code => N.Grounds ctx →
      (∀ x ∈ hd, N.source (.name x.param.name) ∧ x.body.AllUses N.source) → ∀ scope,
        PlaceScoped N scope strategy → ScopedHandler N scope code := by
  cases hd with
  | none => exact .pure fun _ _ _ _ _ _ => trivial
  | some hd =>
    refine .bind (.inHandler (h.stmts _ strategy hd.body)) fun _ => .pure ?_
    intro _ _ hstmts hctx hhd scope hplace
    obtain ⟨hparam, hbody⟩ := hhd hd rfl
    exact ⟨fun _ hx => Option.some.inj hx ▸ hparam, hstmts hparam hctx hbody scope (.plain hplace)⟩

/-- In a finalizer, names are in scope if they are in the parts. -/
theorem finalizer (o : Option Ir.Expr) :
    Makes ctx.file (r.finalizer ctx.withoutTailCall o) fun N _ code => N.Grounds ctx →
      (∀ e ∈ o, e.AllUses N.source) → ∀ scope, ScopedFinalizer N scope code := by
  cases o with
  | none => exact .pure fun _ _ _ _ _ => trivial
  | some e =>
    exact .bind (h.stmts _ .effect e) fun _ => .pure fun _ _ hstmts hctx ho scope =>
      hstmts hctx (ho e rfl) scope (.plain trivial)

omit h in

/-- The declarations of what targets bind declare names of the source. -/
theorem scoped_targetVariables {N : Naming} {targets : List Ir.Target}
    (hts : ∀ t ∈ targets, ∀ u ∈ Use.binders t.bound, N.source u) (scope : Scope) :
    ScopedStmts N scope (targetVariables ctx targets) := by
  unfold targetVariables
  induction targets generalizing scope with
  | nil => exact trivial
  | cons t ts ih =>
    obtain ⟨ht, hts⟩ := List.forall_mem_cons.1 hts
    rw [List.filter_cons]
    split
    · rw [List.flatMap_cons, scopedStmts_append]
      refine ⟨?_, ih hts _⟩
      have hids := Use.forall_binders.1 ht
      generalize t.bound = ids at hids
      induction ids generalizing scope with
      | nil => exact trivial
      | cons id ids ihs =>
        obtain ⟨hid, hids⟩ := List.forall_mem_cons.1 hids
        exact ⟨⟨.inl hid.1, trivial, trivial⟩, ihs _ hids⟩
    · exact ih hts scope

/-- In the cases of targets, names are in scope if the place of the value is. -/
theorem cases (index : Nat) (ts : List Ir.Target) :
    Makes ctx.file (r.cases ctx strategy index ts) fun N looped code => N.Grounds ctx →
      (∀ t ∈ ts, t.body.AllUses N.source) → ∀ scope, Reaches N looped ctx strategy scope →
        ScopedCases N scope code := by
  induction ts generalizing index with
  | nil => exact .pure fun _ _ _ _ _ _ => trivial
  | cons t ts ih =>
    refine .bind (h.stmts _ strategy t.body) fun _ => .bind (ih _) fun _ => .pure ?_
    intro _ _ hrest hbody hctx hts scope hreach
    obtain ⟨ht, hts⟩ := List.forall_mem_cons.1 hts
    refine ⟨?_, scopedStmts_append.2 ⟨hbody hctx ht scope hreach, ?_⟩, hrest hctx hts scope hreach⟩
    · split <;> exact trivial
    · cases strategy with
      | ret => exact trivial
      | effect | assign | join => exact ⟨trivial, trivial⟩

/-- The join variable is declared first. Where the dispatcher and the cases are, it is in scope. -/
theorem decisionTree (dispatcher : Ir.Expr) (targets : List Ir.Target) :
    Makes ctx.file (r.decisionTree ctx strategy dispatcher targets) fun N looped code =>
      N.Grounds ctx → (Ir.Expr.decisionTree dispatcher targets).AllUses N.source →
        ∀ scope, Reaches N looped ctx strategy scope → ScopedStmts N scope code := by
  refine .ite (fun _ => ?_) fun _ => .bind (.allocateTemporary (.inl rfl)) fun join =>
    .bind (h.stmts _ (.join join) dispatcher) fun _ => .bind (h.cases _ _ _ targets) fun _ =>
      .pure ?_
  · exact .imp (h.stmts _ strategy dispatcher) fun _ _ _ hcode hctx he scope hreach =>
      hcode (hctx.tree he) (he.of_child List.mem_cons_self) scope ⟨hreach.slots, hreach.place⟩
  · intro N _ hcases hselect hjoin hctx he scope hreach
    have htree := hctx.tree he
    have hdeclared := scope.mem_after_declare .let join none
    refine scopedStmts_append.2 ⟨⟨⟨.inr hjoin, trivial, trivial⟩, scopedStmts_append.2 ⟨?_, ?_⟩⟩,
      ⟨?_, ?_⟩, trivial⟩
    · exact scoped_targetVariables ctx (fun t ht => (htree.targets t ht).1) _
    · exact hselect htree (he.of_child List.mem_cons_self) _
        (.plain ⟨hjoin, Scope.mem_after hdeclared _⟩)
    · refine .inr (.inr (.inr ⟨hjoin, ?_⟩))
      rw [List.cons_append, ← List.singleton_append, Scope.after_append]
      exact Scope.mem_after hdeclared _
    · exact hcases hctx (fun t ht => (htree.targets t ht).2) _ (hreach.after _)

/-- In declarations of what a target binds, names are in scope if they are in the parts. -/
theorem bindings (ids : List Ir.Ident) (values : List Ir.Expr) :
    Makes ctx.file (r.bindings ctx ids values) fun N _ code => N.Grounds ctx →
      (∀ id ∈ ids, N.source (.name id.name)) → (∀ e ∈ values, e.AllUses N.source) →
        ∀ scope, ScopedStmts N scope code := by
  induction ids generalizing values with
  | nil => exact .pure fun _ _ _ _ _ _ => trivial
  | cons id ids ih =>
    cases values with
    | nil => exact .pure fun _ _ _ _ _ _ => trivial
    | cons value values =>
      refine .bind (h.declare _ id value) fun _ => .bind (ih values) fun _ => .pure ?_
      intro _ _ hrest hfirst hctx hids hvalues scope
      obtain ⟨hid, hids⟩ := List.forall_mem_cons.1 hids
      obtain ⟨hvalue, hvalues⟩ := List.forall_mem_cons.1 hvalues
      exact scopedStmts_append.2 ⟨hfirst hctx hid hvalue scope, hrest hctx hids hvalues _⟩

/-- In assignments to what a target binds, names are in scope if they are in the parts. -/
theorem assignments (ids : List Ir.Ident) (values : List Ir.Expr) :
    Makes ctx.file (r.assignments ctx ids values) fun N _ code => N.Grounds ctx →
      (∀ id ∈ ids, N.source (.name id.name)) → (∀ e ∈ values, e.AllUses N.source) →
        ∀ scope, ScopedStmts N scope code := by
  induction ids generalizing values with
  | nil => exact .pure fun _ _ _ _ _ _ => trivial
  | cons id ids ih =>
    cases values with
    | nil => exact .pure fun _ _ _ _ _ _ => trivial
    | cons value values =>
      refine .bind (h.stmts _ (.assign (.ident id.name)) value) fun _ => .bind (ih values) fun _ =>
        .pure ?_
      intro _ _ hrest hfirst hctx hids hvalues scope
      obtain ⟨hid, hids⟩ := List.forall_mem_cons.1 hids
      obtain ⟨hvalue, hvalues⟩ := List.forall_mem_cons.1 hvalues
      exact scopedStmts_append.2 ⟨hfirst hctx hvalue scope (.plain fun _ => .inl hid),
        hrest hctx hids hvalues _⟩

/-- In a success node, names are in scope: the join variable is, or the target is in place. -/
theorem success (index : Nat) (values : List Ir.Expr) :
    Makes ctx.file (r.success ctx strategy index values) fun N looped code => N.Grounds ctx →
      (∀ e ∈ values, e.AllUses N.source) → ∀ scope, Reaches N looped ctx strategy scope →
        ScopedStmts N scope code := by
  refine .bind (.ofOption _ _) fun t => ?_
  have htarget : ∀ {N : Naming}, ctx.targets[index]? = some t → N.Grounds ctx →
      (∀ id ∈ t.bound, N.source (.name id.name)) ∧ t.body.AllUses N.source := by
    intro N ht hctx
    obtain ⟨hbound, hbody⟩ := hctx.targets t (List.mem_of_getElem? ht)
    exact ⟨fun id hid => (Use.forall_binders.1 hbound id hid).1, hbody⟩
  cases strategy with
  | join name =>
    refine .bind (h.assignments _ t.bound values) fun stmts => .pure ?_
    intro N _ hstmts ht hctx hvalues scope hreach
    exact scopedStmts_append.2 ⟨hstmts hctx (htarget ht hctx).1 hvalues scope,
      ⟨.inr (.inr (.inr (hreach.after stmts).place)), trivial⟩, trivial⟩
  | ret | effect | assign =>
    refine .bind (h.bindings _ t.bound values) fun stmts => .bind (h.stmts _ _ t.body) fun _ =>
      .pure ?_
    intro N _ hbody hstmts ht hctx hvalues scope hreach
    obtain ⟨hids, ht⟩ := htarget ht hctx
    exact scopedStmts_append.2 ⟨hstmts hctx hids hvalues scope,
      hbody hctx ht _ (hreach.after stmts)⟩

/-- In a conditional, names are in scope if they are in the parts. -/
theorem conditional (guard thenExpr elseExpr : Ir.Expr) (loc : Option Ir.Location) :
    Makes ctx.file (r.conditional ctx strategy guard thenExpr elseExpr loc) fun N looped code =>
      N.Grounds ctx → guard.AllUses N.source → thenExpr.AllUses N.source →
        elseExpr.AllUses N.source → ∀ scope, Reaches N looped ctx strategy scope →
          ScopedStmts N scope code :=
  .bind (h.expr _ guard) fun _ => .bind (h.stmts _ _ thenExpr) fun _ =>
    .bind (h.stmts _ _ elseExpr) fun _ => .pure
      fun _ _ helse hthen htest hctx hg ht he scope hreach =>
        ⟨⟨htest hctx hg scope, hthen hctx ht scope hreach, helse hctx he scope hreach⟩, trivial⟩

/-- In any node in the place of statements, names are in scope if the place and the loop around
are. -/
theorem stmtsRule (e : Ir.Expr) : Makes ctx.file (r.stmtsRule ctx strategy e) fun N looped code =>
    N.Grounds ctx → e.AllUses N.source → ∀ scope, Reaches N looped ctx strategy scope →
      ScopedStmts N scope code := by
  cases e with
  | cast inner =>
    exact .imp (h.stmts _ _ inner) fun _ _ _ hcode hctx he =>
      hcode hctx (he.of_child List.mem_cons_self)
  | call callee receiver args isNew =>
    unfold Parts.stmtsRule
    dsimp only
    split
    · rename_i loop hloop
      refine .imp (h.tailCall _ loop args) fun _ _ _ hcode hctx he scope hreach => ?_
      refine hcode hctx (fun a ha => ?_) scope fun hlooped =>
        hreach.slots hlooped loop (Option.filter_eq_some_iff.1 hloop).1
      exact he.of_child (List.mem_cons_of_mem _ (List.mem_append_right _ ha))
    · exact h.delivered _ _ _
  | ifThenElse guard thenExpr elseExpr =>
    refine .bind (.isStatement _ _ _) fun _ => .ite (fun _ => ?_) fun _ => ?_
    · exact .imp (h.conditional _ _ guard thenExpr elseExpr _) fun _ _ _ hcode _ hctx he =>
        hcode hctx (he.of_child List.mem_cons_self) (he.of_child (by simp [Ir.Expr.children]))
          (he.of_child (by simp [Ir.Expr.children]))
    · exact .imp (h.delivered _ _ _) fun _ _ _ hcode _ => hcode
  | decisionTree dispatcher targets => exact h.decisionTree _ _ dispatcher targets
  | success index values =>
    exact .imp (h.success _ _ index values) fun _ _ _ hcode hctx he =>
      hcode hctx fun _ => he.of_child
  | letIn id value body =>
    refine .bind (h.declare _ id value) fun stmts => .bind (h.stmts _ _ body) fun _ => .pure ?_
    intro _ _ hbody hfirst hctx he scope hreach
    have hid := Use.forall_binders.1 he.uses id List.mem_cons_self
    exact scopedStmts_append.2 ⟨hfirst hctx hid.1 (he.of_child List.mem_cons_self) scope,
      hbody hctx (he.of_child (by simp [Ir.Expr.children])) _ (hreach.after stmts)⟩
  | letRec bs body =>
    refine .bind (h.recursive _ bs) fun stmts => .bind (h.stmts _ _ body) fun _ => .pure ?_
    intro _ _ hbody hfirst hctx he scope hreach
    refine scopedStmts_append.2 ⟨hfirst hctx (fun b hb => ⟨?_, ?_⟩) scope,
      hbody hctx (he.of_child (by simp [Ir.Expr.children])) _ (hreach.after stmts)⟩
    · exact (Use.forall_binders.1 he.uses _ (List.mem_map_of_mem hb)).1
    · exact he.of_child (List.mem_append_left _ (List.mem_map_of_mem hb))
  | sequence es =>
    exact .imp (h.sequence _ _ es) fun _ _ _ hcode hctx he => hcode hctx fun _ => he.of_child
  | set target field value =>
    refine .bind (h.place _ target field) fun _ => .bind (h.assignment _ _ value _) fun _ =>
      .pure ?_
    intro _ _ hstmts hplace hctx he scope _
    exact scopedStmts_append.2 ⟨hstmts hctx (hplace hctx (he.of_child List.mem_cons_self))
      (he.of_child (by simp [Ir.Expr.children])) scope, scoped_deliverUnit _⟩
  | setIndex target index value =>
    refine .bind (h.element _ target index) fun _ => .bind (h.assignment _ _ value _) fun _ =>
      .pure ?_
    intro _ _ hstmts hplace hctx he scope _
    have hplace := hplace hctx (he.of_child List.mem_cons_self)
      (he.of_child (by simp [Ir.Expr.children]))
    exact scopedStmts_append.2 ⟨hstmts hctx hplace (he.of_child (by simp [Ir.Expr.children])) scope,
      scoped_deliverUnit _⟩
  | whileLoop guard body =>
    refine .bind (h.expr _ guard) fun _ => .bind (h.stmts _ .effect body) fun _ => .pure ?_
    intro _ _ hbody htest hctx he scope _
    exact ⟨⟨htest hctx (he.of_child List.mem_cons_self) scope,
      hbody hctx (he.of_child (by simp [Ir.Expr.children])) scope (.plain trivial)⟩,
      scoped_deliverUnit _⟩
  | forLoop id start limit body =>
    refine .bind (h.forLoop _ id start limit body _ _) fun _ => .pure ?_
    intro _ _ hstmts hctx he scope _
    have hid := Use.forall_binders.1 he.uses id List.mem_cons_self
    exact scopedStmts_append.2 ⟨hstmts hctx hid.1 (he.of_child List.mem_cons_self)
      (he.of_child (by simp [Ir.Expr.children])) (he.of_child (by simp [Ir.Expr.children])) scope,
      scoped_deliverUnit _⟩
  | tryCatch body hd fin =>
    refine .bind (h.stmts _ _ body) fun _ => .bind (h.handler _ _ hd) fun _ =>
      .bind (h.finalizer _ fin) fun _ => .pure ?_
    intro _ _ hfinalizer hhandler hblock hctx he scope hreach
    refine ⟨⟨hblock hctx (he.of_child List.mem_cons_self) scope (.plain hreach.place),
      hhandler hctx (fun x hx => ⟨?_, ?_⟩) scope hreach.place,
      hfinalizer hctx (fun e hmem => ?_) scope⟩, trivial⟩
    · obtain rfl := Option.mem_def.1 hx
      exact (Use.forall_binders.1 he.uses x.param List.mem_cons_self).1
    · obtain rfl := Option.mem_def.1 hx
      exact he.of_child (by simp [Ir.Expr.children])
    · obtain rfl := Option.mem_def.1 hmem
      exact he.of_child (by simp [Ir.Expr.children])
  | throw error =>
    cases error with
    | some error =>
      exact .bind (h.expr _ error) fun _ => .pure fun _ _ hvalue hctx he scope _ =>
        ⟨hvalue hctx (he.of_child List.mem_cons_self) scope, trivial⟩
    | none =>
      exact .bind .caught fun _ => .bind (.ofOption _ _) fun name => .pure
        fun _ _ hname hcaught _ _ _ _ => ⟨.inl (hcaught name hname), trivial⟩
  | debugger => exact .pure fun _ _ _ _ _ _ => ⟨trivial, scoped_deliverUnit _⟩
  | emit template args isStatement =>
    cases isStatement with
    | true =>
      exact .bind (h.exprs _ args) fun _ => .pure fun _ _ hargs hctx he scope _ =>
        ⟨⟨he.uses _ List.mem_cons_self, hargs hctx (fun _ => he.of_child) scope⟩,
          scoped_deliverUnit _⟩
    | false => exact h.delivered _ _ _
  | literal | option | aggregate | ident | imported | lambda | delegate | object | apply | unary
  | binary | logical | get | getIndex | test | curry => exact h.delivered _ _ _

end Parts.KeepsScope

/-! ## The rules -/

/-- In what the rules lower to, all names are in scope. -/
theorem rules_keepScope (n : Nat) : (rules n).KeepsScope := by
  induction n with
  | zero => exact ⟨fun _ _ => .fail _, fun _ _ _ => .fail _⟩
  | succ n ih => exact ⟨ih.exprRule, ih.stmtsRule⟩

end TypedLowering.JavaScript
