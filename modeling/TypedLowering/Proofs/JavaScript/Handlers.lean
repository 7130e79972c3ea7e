import TypedLowering.Proofs.JavaScript.Places

/-!
# Handlers as surroundings

The lowering keeps the handlers around a node in its state. `lexical` passes them down instead: each
node is lowered with the innermost handler around it, and the body of a selected target with that
around its decision tree. Both come to the same where no handler selects targets of a tree around it
(`resolves_lexical`). In any case the handlers in the state are left as they were, and lowering
fails for want of a handler only at a rethrow outside of all handlers (`rules_failWithin`). -/

namespace TypedLowering

namespace Lower

variable {α β : Type}

/-! ## Failing for want of a handler -/

theorem inFunction_eq {m : Lower α} {s t : LowerState} {r : Except LowerError α}
    (h : m { s with looped := false } = (r, t)) :
    inFunction m s = (r.map (·, t.looped), { t with looped := s.looped }) := by
  rw [inFunction, h]
  cases r <;> rfl

/-- Whether a computation leaves these handlers in the state, even if it fails, and fails for want
of a handler only if there is none and the rethrow is one of those. -/
def FailsWithin (params : List String) (rethrows : Option Ir.Location → Prop) (m : Lower α) :
    Prop :=
  ∀ s, s.caught = params → (m s).2.caught = params ∧
    ∀ loc, (m s).1 = .error (unhandled loc) → params = [] ∧ rethrows loc

namespace FailsWithin

variable {params : List String} {rethrows : Option Ir.Location → Prop}

theorem comparison (params : List String) (rethrows : Option Ir.Location → Prop) :
    Comparison fun m _ => FailsWithin params rethrows m where
  step h s hs := by
    obtain ⟨a, t, hm, hcaught, -⟩ := h s
    rw [hm]
    exact ⟨hcaught.trans hs, nofun⟩
  fail h _ hs := ⟨hs, fun loc hloc => absurd (Except.error.inj hloc) (h loc)⟩
  bind {α β m _ f _} hm hf s hs := by
    obtain ⟨ht, hfails⟩ := hm s hs
    rcases h : m s with ⟨e | a, t⟩
    · rw [h] at ht hfails
      rw [bind_error h]
      exact ⟨ht, fun loc hloc => hfails loc (congrArg Except.error (Except.error.inj hloc))⟩
    · rw [h] at ht
      rw [bind_ok h]
      exact hf a ⟨s, t, h⟩ t ht
  inFunction {α m _} hm s hs := by
    obtain ⟨ht, hfails⟩ := hm { s with looped := false } hs
    rcases h : m { s with looped := false } with ⟨e | a, t⟩
    · rw [h] at ht hfails
      rw [inFunction_eq h]
      exact ⟨ht, fun loc hloc => hfails loc (congrArg Except.error (Except.error.inj hloc))⟩
    · rw [h] at ht
      rw [inFunction_eq h]
      exact ⟨ht, nofun⟩

/-- In a handler there is a handler. -/
theorem inHandler {m : Lower α} (param : String)
    (h : FailsWithin (param :: params) (fun _ => True) m) :
    FailsWithin params rethrows (inHandler param m) := by
  rintro s rfl
  obtain ⟨hcaught, hfails⟩ := h (s.withHandlers (param :: s.caught)) rfl
  refine ⟨congrArg List.tail hcaught, fun loc hloc => ?_⟩
  have hnone := (hfails loc hloc).1
  cases hnone

end FailsWithin

/-! ## Resolving rethrows -/

/-- Whether `m'` does what `m` does where the state has these handlers, but whatever handlers its
own state has. If `m` fails for want of a handler, then there are none, and `m'` reports that in its
own way. -/
def Resolves (params : List String) (report : Option Ir.Location → LowerError) (m m' : Lower α) :
    Prop :=
  ∀ s : LowerState, s.caught = params → ∃ r t, m s = (r, t) ∧ t.caught = params ∧
    ((∀ loc, r ≠ .error (unhandled loc)) ∧
        (∀ other, m' (s.withHandlers other) = (r, t.withHandlers other)) ∨
      params = [] ∧ ∃ loc, r = .error (unhandled loc) ∧
        ∀ other, m' (s.withHandlers other) = (.error (report loc), t.withHandlers other))

namespace Resolves

variable {params : List String} {report : Option Ir.Location → LowerError}

theorem comparison (params : List String) (report : Option Ir.Location → LowerError) :
    Comparison (Resolves params report) where
  step h s hs := by
    obtain ⟨a, t, hm, hcaught, hother⟩ := h s
    exact ⟨_, t, hm, hcaught.trans hs, .inl ⟨nofun, hother⟩⟩
  fail h s hs := ⟨_, s, rfl, hs, .inl ⟨fun loc hloc => h loc (Except.error.inj hloc), fun _ => rfl⟩⟩
  bind {α β m m' f f'} hm hf s hs := by
    obtain ⟨r, t, hr, ht, ⟨hne, hother⟩ | ⟨hnone, loc, rfl, hother⟩⟩ := hm s hs
    · cases r with
      | error e =>
        refine ⟨.error e, t, bind_error hr, ht, .inl ⟨?_, fun other => bind_error (hother other)⟩⟩
        exact fun loc hloc => hne loc (congrArg Except.error (Except.error.inj hloc))
      | ok a =>
        obtain ⟨r', u, hr', hu, h⟩ := hf a ⟨s, t, hr⟩ t ht
        refine ⟨r', u, (bind_ok hr).trans hr', hu, ?_⟩
        simpa only [bind_ok (hother _)] using h
    · exact ⟨_, t, bind_error hr, ht, .inr ⟨hnone, loc, rfl, fun other =>
      bind_error (hother other)⟩⟩
  inFunction {α m m'} hm s hs := by
    obtain ⟨r, t, hr, ht, h⟩ := hm { s with looped := false } hs
    refine ⟨_, _, inFunction_eq hr, ht, ?_⟩
    rcases h with ⟨hne, hother⟩ | ⟨hnone, loc, rfl, hother⟩
    · refine .inl ⟨?_, fun other =>
        inFunction_eq (s := s.withHandlers other) (t := t.withHandlers other) (hother other)⟩
      cases r with
      | error e => exact fun loc hloc => hne loc (congrArg Except.error (Except.error.inj hloc))
      | ok => nofun
    · exact .inr ⟨hnone, loc, rfl, fun other =>
        inFunction_eq (s := s.withHandlers other) (t := t.withHandlers other) (hother other)⟩

/-- In a handler there is a handler. -/
theorem inHandler {m m' : Lower α} (param : String) (h : Resolves (param :: params) report m m') :
    Resolves params report (inHandler param m) m' := by
  rintro s rfl
  obtain ⟨r, t, hr, ht, ⟨hne, hother⟩ | ⟨hnone, -⟩⟩ :=
    h (s.withHandlers (param :: s.caught)) rfl
  · refine ⟨r, t.withHandlers t.caught.tail, ?_, congrArg List.tail ht, .inl ⟨hne, hother⟩⟩
    rw [LowerState.withHandlers] at hr
    rw [Lower.inHandler, hr]
    rfl
  · cases hnone

end Resolves

end Lower

/-! ## Rules that pass the handlers down -/

namespace JavaScript

/-- The parameters of the innermost handlers, if there are any: around a node, and around the
decision tree whose targets it may select. -/
structure Surroundings where
  node : Option String
  tree : Option String

/-- How nodes with these surroundings are lowered: a rethrow throws what the innermost handler
around it caught, and is reported if there is none. The handlers in the state are not used. -/
def lexicalPlaces (report : Option Ir.Location → LowerError) (r : Surroundings → Parts)
    (around : Surroundings) : Places where
  here := r around
  dispatcher := r ⟨around.node, around.node⟩
  target := r ⟨around.tree, around.tree⟩
  handler param := (r ⟨some param, around.tree⟩).stmts
  rethrow loc :=
    match around.node with
    | some param => pure [⟨loc, .throw (.ident param)⟩]
    | none => .fail (report loc)

/-- The rules that pass the handlers down. -/
def lexical (report : Option Ir.Location → LowerError) : Nat → Surroundings → Parts
  | 0, _ => ⟨fun _ _ => .fail .endless, fun _ _ _ => .fail .endless⟩
  | depth + 1, around =>
    let places := lexicalPlaces report (lexical report depth) around
    ⟨places.exprRule, places.stmtsRule⟩

/-- Whether no handler that a context gives access to selects targets of a tree around it. -/
structure Settled (ctx : Context) : Prop where
  targets : ∀ t ∈ ctx.targets, t.body.HandlersSettled
  inlines : ∀ i ∈ ctx.file.settings.project.inlines,
    i.2.body.IsSettled ∧ i.2.body.HandlersSettled

/-- The nodes that are lowered alike: those that select no targets, if there is another handler
around the tree. -/
def settledReach (around : Surroundings) : Reach where
  here ctx e := Settled ctx ∧ e.HandlersSettled ∧ (around.tree = around.node ∨ e.IsSettled)
  dispatcher ctx e := Settled ctx ∧ e.HandlersSettled
  target ctx e := around.tree = around.node ∧ Settled ctx ∧ e.HandlersSettled
  handler ctx e := Settled ctx ∧ e.HandlersSettled ∧ e.IsSettled

theorem settledReach_hereditary (around : Surroundings) : (settledReach around).Hereditary where
  withoutTailCall := fun ⟨hctx, he⟩ => ⟨⟨hctx.targets, hctx.inlines⟩, he⟩
  withTailCall _ := fun ⟨hctx, he⟩ => ⟨⟨hctx.targets, hctx.inlines⟩, he⟩
  part := fun ⟨hctx, he, hself⟩ hc =>
    ⟨hctx, he.child (Ir.Expr.mem_children_of_mem_ownParts hc), hself.imp_right (·.ownPart hc)⟩
  expanded := by
    rintro ctx callee args isNew ty loc expanded ⟨hctx, he, hself⟩ ⟨s, t, h⟩
    obtain ⟨inline, fresh, hexpands⟩ := expandInline_expands h
    obtain ⟨name, hinline⟩ := hexpands.isInline
    obtain ⟨i, hi, rfl⟩ := mem_inlines hinline
    obtain ⟨hbody, hhandlers⟩ := hctx.inlines i hi
    rw [hexpands.eq]
    refine ⟨hctx, .bindParams (fun arg harg => he.child ?_) (hhandlers.rename _),
      hself.imp_right fun h => .bindParams (fun arg harg => h.ownPart ?_) (hbody.rename _)⟩
    all_goals exact List.mem_cons_of_mem _ harg
  dispatcher := by
    rintro ctx d ts ⟨hctx, he, -⟩
    have hts : ∀ t ∈ ts, t.body.HandlersSettled := fun t ht =>
      he.child (List.mem_cons_of_mem _ (List.mem_map_of_mem ht))
    have hd := he.child List.mem_cons_self
    exact ⟨⟨⟨hts, hctx.inlines⟩, hd⟩, ⟨⟨hts, hctx.inlines⟩, hd⟩⟩
  target := by
    rintro ctx index values ty t ⟨hctx, -, htree | hself⟩ ht
    · exact ⟨htree, hctx, hctx.targets t ht⟩
    · cases hself.selected
  handler := by
    rintro ctx body h finalizer loc ⟨hctx, he, -⟩
    refine ⟨⟨hctx.targets, hctx.inlines⟩,
      he.child (Ir.Expr.mem_children_of_mem_handlerBodies ?_), ?_⟩
    · exact List.mem_singleton_self _
    · exact he _ (Ir.Expr.self_mem_subterms _) _ (List.mem_singleton_self _)

/-- The parameter that the state has is the one that was passed down. -/
theorem rethrow_resolves (report : Option Ir.Location → LowerError) (r : Surroundings → Parts)
    {params : List String} {around : Surroundings} (hnode : around.node = params.head?)
    (loc : Option Ir.Location) :
    Lower.Resolves params report (rethrow loc) ((lexicalPlaces report r around).rethrow loc) := by
  rintro s rfl
  have heq : rethrow loc s = match s.caught.head? with
      | some param => (.ok [⟨loc, .throw (.ident param)⟩], s)
      | none => (.error (unhandled loc), s) := by
    obtain ⟨_, _, _, _ | ⟨_, _⟩, _⟩ := s <;> rfl
  rw [heq, lexicalPlaces, hnode]
  cases h : s.caught with
  | nil => exact ⟨_, s, rfl, h, .inr ⟨rfl, loc, rfl, fun _ => rfl⟩⟩
  | cons => exact ⟨_, s, rfl, h, .inl ⟨nofun, fun _ => rfl⟩⟩

/-- Where no handler selects targets of a tree around it, rethrows are resolved to the innermost
handlers around them. -/
theorem resolves_lexical (report : Option Ir.Location → LowerError) (n : Nat)
    (params : List String) (around : Surroundings) (hnode : around.node = params.head?) :
    Parts.Related (Lower.Resolves params report) (settledReach around).here (rules n)
      (lexical report n around) := by
  have hcomparison := fun params => Lower.Resolves.comparison params report
  induction n generalizing params around with
  | zero => exact ⟨fun _ => (hcomparison _).fail nofun, fun _ _ => (hcomparison _).fail nofun⟩
  | succ n ih =>
    have hR := hcomparison params
    have hP := settledReach_hereditary around
    have hsame := ih params ⟨around.node, around.node⟩ hnode
    have hrelated : Places.Related (Lower.Resolves params report) (settledReach around)
        (rules n).places (lexicalPlaces report (lexical report n) around) :=
      { here := ih params around hnode
        dispatcher := ⟨fun ⟨hctx, he⟩ => hsame.expr ⟨hctx, he, .inl rfl⟩,
          fun strategy ⟨hctx, he⟩ => hsame.stmts strategy ⟨hctx, he, .inl rfl⟩⟩
        target := ⟨fun ⟨htree, hctx, he⟩ =>
            (ih params ⟨around.tree, around.tree⟩ (htree.trans hnode)).expr
              ⟨hctx, he, .inl rfl⟩,
          fun strategy ⟨htree, hctx, he⟩ =>
            (ih params ⟨around.tree, around.tree⟩ (htree.trans hnode)).stmts strategy
              ⟨hctx, he, .inl rfl⟩⟩
        handler := fun param _ strategy _ ⟨hctx, he, hself⟩ => .inHandler param
          ((ih (param :: params) ⟨some param, around.tree⟩ rfl).stmts strategy
            ⟨hctx, he, .inr hself⟩)
        rethrow := fun _ => rethrow_resolves report _ hnode _ }
    rw [rules_succ]
    exact ⟨hrelated.exprRule hR hP, hrelated.stmtsRule hR hP⟩

/-! ## Rethrows without a handler -/

/-- Whether a rethrow stands there outside of all handlers, in an expression or in what its context
gives access to. -/
def OpenRethrow (ctx : Context) (e : Ir.Expr) (loc : Option Ir.Location) : Prop :=
  e.RethrowsAt loc ∨ (∃ t ∈ ctx.targets, t.body.RethrowsAt loc) ∨
    ∃ i ∈ ctx.file.settings.project.inlines, i.2.body.RethrowsAt loc

/-- The nodes whose rethrows outside of handlers are among those. -/
def rethrowReach (rethrows : Option Ir.Location → Prop) : Reach where
  here ctx e := ∀ loc, OpenRethrow ctx e loc → rethrows loc
  dispatcher ctx e := ∀ loc, OpenRethrow ctx e loc → rethrows loc
  target ctx e := ∀ loc, OpenRethrow ctx e loc → rethrows loc
  handler _ _ := True

theorem rethrowReach_hereditary (rethrows : Option Ir.Location → Prop) :
    (rethrowReach rethrows).Hereditary where
  withoutTailCall h := h
  withTailCall _ h := h
  part h hc loc hopen :=
    h loc (hopen.imp_left (.inside (Ir.Expr.mem_openParts_of_mem_ownParts hc)))
  expanded {ctx callee args isNew ty place expanded} h := by
    rintro ⟨s, t, hexpand⟩ loc hopen
    obtain ⟨inline, fresh, hexpands⟩ := expandInline_expands hexpand
    obtain ⟨name, hinline⟩ := hexpands.isInline
    obtain ⟨i, hi, rfl⟩ := mem_inlines hinline
    refine h loc ?_
    rcases hopen with hopen | hopen
    · rw [hexpands.eq] at hopen
      rcases hopen.of_bindParams with ⟨arg, harg, hopen⟩ | hopen
      · exact .inl (.inside (List.mem_cons_of_mem _ harg) hopen)
      · exact .inr (.inr ⟨i, hi, hopen.of_rename⟩)
    · exact .inr hopen
  dispatcher {ctx d ts} h := by
    have hd : ∀ loc, OpenRethrow (ctx.withTargets ts) d loc → rethrows loc := by
      rintro loc (hopen | ⟨t, ht, hopen⟩ | hopen)
      · exact h loc (.inl (.inside List.mem_cons_self hopen))
      · exact h loc (.inl (.inside (List.mem_cons_of_mem _ (List.mem_map_of_mem ht)) hopen))
      · exact h loc (.inr (.inr hopen))
    exact ⟨hd, hd⟩
  target h ht loc hopen := by
    refine h loc (.inr ?_)
    rcases hopen with hopen | hopen
    · exact .inl ⟨_, ht, hopen⟩
    · exact hopen
  handler _ := trivial

/-- Lowering leaves the handlers in the state as they were, whatever comes of it. It fails for want
of a handler only at a rethrow outside of all handlers. -/
theorem rules_failWithin (n : Nat) (params : List String) (rethrows : Option Ir.Location → Prop) :
    Parts.Related (fun m _ => Lower.FailsWithin params rethrows m) (rethrowReach rethrows).here
      (rules n) (rules n) := by
  induction n generalizing params rethrows with
  | zero =>
    have hR := Lower.FailsWithin.comparison params rethrows
    exact ⟨fun _ => hR.fail nofun, fun _ _ => hR.fail nofun⟩
  | succ n ih =>
    have hR := Lower.FailsWithin.comparison params rethrows
    have hP := rethrowReach_hereditary rethrows
    have hsame := ih params rethrows
    have hrelated : Places.Related (fun m _ => Lower.FailsWithin params rethrows m)
        (rethrowReach rethrows) (rules n).places (rules n).places :=
      { here := hsame
        dispatcher := hsame
        target := hsame
        handler := fun param _ strategy _ _ => .inHandler param
          ((ih (param :: params) fun _ => True).stmts strategy fun _ _ => trivial)
        rethrow := by
          rintro ctx ty loc h s rfl
          have hloc : rethrows loc := h loc (.inl (.rethrow ty))
          obtain ⟨names, imports, journal, _ | ⟨param, params⟩, looped⟩ := s
          · refine ⟨rfl, fun loc' hfail => ⟨rfl, ?_⟩⟩
            cases hfail
            exact hloc
          · exact ⟨rfl, nofun⟩ }
    rw [rules_succ]
    exact ⟨hrelated.exprRule hR hP, hrelated.stmtsRule hR hP⟩

end JavaScript

end TypedLowering
