import TypedLowering.Proofs.Ir.Renaming
import TypedLowering.Proofs.Lowering.Outcome
import TypedLowering.Proofs.Names.Fresh

/-!
# Bindings in an expansion

A call of an inline function becomes a chain of lets around the body of the function.

The new parameters are new to the caller. So an argument means what it meant, although it stands
inside of the lets of the parameters before it (`expansion_keepsArguments`). They need not be new to
the body: a name that the body binds or refers to can capture, or be captured (`newName_captured`).
Apart from that the body keeps its binders, too (`expansion_keepsBody`).
-/

namespace TypedLowering

open Ir (Expr Ident Binders Renaming binder? binder?_append)
open Ir.Expr (int)

/-! ## Chains of lets -/

/-- The binders that a chain of lets puts around its body. -/
def letBinders (params : List Ident) : List Binders :=
  params.map fun p => .of [p]

section Chain
variable {params : List Ident} {args : List Expr} {body : Expr}

/-- Inside of some of the lets are the others around the body. -/
theorem at?_bindParams (h : params.length = args.length) {i : Nat} (hi : i ≤ params.length) :
    (bindParams params args body).at? (List.replicate i 1) =
      some (letBinders (params.take i), bindParams (params.drop i) (args.drop i) body) := by
  induction i generalizing params args with
  | zero => rfl
  | succ i ih =>
    cases params with
    | nil => nomatch hi
    | cons p ps =>
      cases args with
      | nil => nomatch h
      | cons arg args =>
        rw [List.replicate_succ, Expr.at?_cons (g := .of [p]) (c := bindParams ps args body) rfl,
          ih (Nat.succ.inj h) (Nat.le_of_succ_le_succ hi)]
        rfl

/-- Inside of all lets is the body. -/
theorem at?_bindParams_body (h : params.length = args.length) (path : List Nat) :
    (bindParams params args body).at? (List.replicate params.length 1 ++ path) =
      (body.at? path).map fun p => (letBinders params ++ p.1, p.2) := by
  rw [Expr.at?_append (at?_bindParams h (Nat.le_refl _)), List.take_length, List.drop_length]
  rfl

theorem bindParams_drop {i : Nat} {p : Ident} {arg : Expr} (hp : params[i]? = some p)
    (harg : args[i]? = some arg) : bindParams (params.drop i) (args.drop i) body =
      .letIn p arg (bindParams (params.drop (i + 1)) (args.drop (i + 1)) body) := by
  obtain ⟨hi, rfl⟩ := List.getElem?_eq_some_iff.1 hp
  obtain ⟨hi', rfl⟩ := List.getElem?_eq_some_iff.1 harg
  rw [List.drop_eq_getElem_cons hi, List.drop_eq_getElem_cons hi']
  rfl

/-- The lets come in the order of the parameters. -/
theorem at?_bindParams_let (h : params.length = args.length) {i : Nat} {p : Ident} {arg : Expr}
    (hp : params[i]? = some p) (harg : args[i]? = some arg) :
    (bindParams params args body).at? (List.replicate i 1) = some (letBinders (params.take i),
      .letIn p arg (bindParams (params.drop (i + 1)) (args.drop (i + 1)) body)) := by
  have hi : i ≤ params.length := Nat.le_of_lt (List.getElem?_eq_some_iff.1 hp).1
  rw [at?_bindParams h hi, bindParams_drop hp harg]

/-- An argument stands inside of the lets of the parameters before it. -/
theorem at?_bindParams_argument (h : params.length = args.length) {i : Nat} {p : Ident} {arg : Expr}
    (hp : params[i]? = some p) (harg : args[i]? = some arg) (path : List Nat) :
    (bindParams params args body).at? (List.replicate i 1 ++ 0 :: path) =
      (arg.at? path).map fun p => (letBinders (params.take i) ++ .empty :: p.1, p.2) := by
  rw [Expr.at?_append (at?_bindParams_let h hp harg),
    Expr.at?_cons (g := .empty) (c := arg) rfl, Option.map_map]
  rfl

/-- Names that no parameter has are bound by no let. -/
theorem binder?_letBinders_eq_none {name : String} (h : name ∉ params.map (·.name)) :
    binder? name (letBinders params) = none := by
  refine Ir.binder?_eq_none.2 fun g hg => ?_
  obtain ⟨p, hp, rfl⟩ := List.mem_map.1 hg
  have hne : p.name ≠ name := fun heq => h (List.mem_map.2 ⟨p, hp, heq⟩)
  simpa [Binders.binds, Binders.of] using hne

/-- Of parameters with different names each is bound by its own let. -/
theorem binder?_letBinders (h : (params.map (·.name)).Nodup) {i : Nat} {p : Ident}
    (hi : params[i]? = some p) : binder? p.name (letBinders params) = some i := by
  induction params generalizing i with
  | nil => nomatch hi
  | cons q qs ih =>
    obtain ⟨hq, hqs⟩ := List.nodup_cons.1 h
    cases i with
    | zero =>
      obtain rfl := Option.some.inj hi
      have hnone := binder?_letBinders_eq_none hq
      rw [letBinders, List.map_cons, binder?, ← letBinders, hnone]
      simp [Binders.binds, Binders.of]
    | succ i =>
      rw [letBinders, List.map_cons, binder?, ← letBinders, ih hqs hi]

end Chain

/-! ## Arguments -/

/-- A call that is left alone allocates no names. One that is expanded becomes a chain of lets,
which bind the new parameters to the arguments in their order, around the renamed body. The names of
the parameters are new, and nothing else becomes of the names in use. So in each argument, whose
free identifiers have names in use, every identifier means what it meant in the call. -/
theorem expansion_keepsArguments (file : SourceFile) (callee : Expr) (args : List Expr)
    (s : LowerState) (hargs : ∀ arg ∈ args, ∀ path id, arg.OccursAt path id none →
      s.names.IsTaken id.name) :
    ∃ r t, expandInline file callee args s = (.ok r, t) ∧ (r = none → t.names = s.names) ∧
      ∀ e, r = some e → ∃ ref ty loc inline fresh, callee.uncast = .imported ref ty loc ∧
        file.settings.inline? ref.selector = some inline ∧
        FreshParams s.names inline.args fresh t.names ∧ fresh.length = args.length ∧
        e.at? (List.replicate args.length 1) =
          some (letBinders fresh, inline.body.rename (paramRenaming inline.args fresh)) ∧
        ∀ i p arg, fresh[i]? = some p → args[i]? = some arg →
          (∃ rest, e.at? (List.replicate i 1) =
            some (letBinders (fresh.take i), .letIn p arg rest)) ∧
          ∀ path id binder, arg.OccursAt path id binder →
            e.OccursAt (List.replicate i 1 ++ 0 :: path) id (binder.map (i + 1 + ·)) := by
  rcases Lower.expandInline_cases file callee args s with
    ⟨_, heq⟩ | ⟨ref, inline, fresh, names, ⟨ty, loc, hcallee⟩, hinline, hlength, hfresh, heq⟩
  · exact ⟨none, _, heq, fun _ => rfl, nofun⟩
  refine ⟨_, _, heq, nofun, ?_⟩
  rintro e ⟨⟩
  have hspec := freshParams_spec hfresh
  have hlen : fresh.length = args.length := hspec.renamed.length_eq.symm.trans hlength
  refine ⟨ref, ty, loc, inline, fresh, hcallee, hinline, hspec, hlen, ?_, fun i p arg hp harg => ?_⟩
  · rw [← hlen, at?_bindParams hlen (Nat.le_refl _), List.take_length, List.drop_length]
    rfl
  refine ⟨⟨_, at?_bindParams_let hlen hp harg⟩, ?_⟩
  rintro path id binder ⟨gs, hpath, rfl⟩
  refine ⟨_, by rw [at?_bindParams_argument hlen hp harg, hpath]; rfl, ?_⟩
  have hempty : binder? id.name (.empty :: gs) = (binder? id.name gs).map (1 + ·) := by
    rw [binder?]
    cases binder? id.name gs with
    | none => rfl
    | some k => rw [Option.map_some, Nat.add_comm]
  have hi : i ≤ fresh.length := Nat.le_of_lt (List.getElem?_eq_some_iff.1 hp).1
  rw [binder?_append, hempty, letBinders, List.length_map, List.length_take, Nat.min_eq_left hi]
  cases hbinder : binder? id.name gs with
  | some k => simp [Nat.add_assoc]
  | none =>
    -- No new name is a name in use, so the identifier is not captured.
    have htaken := hargs arg (List.mem_of_getElem? harg) path id ⟨gs, hpath, hbinder⟩
    refine binder?_letBinders_eq_none fun hmem => ?_
    exact (hspec.isNew _ ((List.take_sublist i fresh).map _ |>.subset hmem)).2 htaken

/-- A file of a project that has one inline function. -/
def inlineFile (inline : InlineFunction) : SourceFile :=
  ⟨⟨.default, ⟨[], [("Ops.f", inline)], [], []⟩, ["Ops.f"]⟩, "main"⟩

/-- The inline function. -/
def inlineCallee : Expr :=
  .imported ⟨"Ops.f", "Ops", .member⟩ .any none

/-- A declaration that uses `a` is being lowered. -/
def usesA : LowerState :=
  ⟨⟨[], [], ["a"], []⟩, [], .empty, [], false⟩

/-- `f a a_1 = let b = a in (a_1; b; c)`. -/
def nestedInline : InlineFunction where
  args := [int "a", int "a_1"]
  body := .letIn (int "b") (.ident (int "a"))
    (.sequence [.ident (int "a_1"), .ident (int "b"), .ident (int "c")])

theorem nestedInline_expands : ∃ e t, expandInline (inlineFile nestedInline) inlineCallee
    [.ident (int "a"), .ident (int "a")] usesA = (.ok (some e), t) ∧
      t.names.current = ["a_1_1", "a_1", "a"] :=
  ⟨_, _, rfl, by decide +kernel⟩

/-- In the call `f a a` both arguments mean the `a` of the caller. -/
theorem nestedInline_keepsArguments : ∃ e t,
    expandInline (inlineFile nestedInline) inlineCallee [.ident (int "a"), .ident (int "a")] usesA =
      (.ok (some e), t) ∧ usesA.names.IsTaken "a" ∧ t.names.current = ["a_1_1", "a_1", "a"] ∧
      e.OccursAt [0] (int "a") none ∧ e.OccursAt [1, 0] (int "a") none := by
  have hargs : ∀ arg ∈ [Expr.ident (int "a"), .ident (int "a")], ∀ path id,
      arg.OccursAt path id none → usesA.names.IsTaken id.name := by
    rintro arg harg path id ⟨gs, hpath, -⟩
    obtain rfl : arg = .ident (int "a") := by simpa using harg
    cases path with
    | nil =>
      cases hpath
      exact .inr (by decide)
    | cons i path => simp [Expr.at?, Expr.scopedChildren, Expr.children] at hpath
  obtain ⟨r, t, heq, -, hsome⟩ :=
    expansion_keepsArguments (inlineFile nestedInline) inlineCallee _ usesA hargs
  obtain ⟨e, u, hexpands, hnames⟩ := nestedInline_expands
  obtain ⟨hr, rfl⟩ := Prod.mk.inj (heq.symm.trans hexpands)
  obtain ⟨_, _, _, inline, fresh, -, -, -, hlen, -, hkept⟩ := hsome e (Except.ok.inj hr)
  have harg : (Expr.ident (int "a")).OccursAt [] (int "a") none := ⟨[], rfl, rfl⟩
  have h₀ := List.getElem?_eq_getElem (l := fresh) (i := 0) (by rw [hlen]; decide)
  have h₁ := List.getElem?_eq_getElem (l := fresh) (i := 1) (by rw [hlen]; decide)
  exact ⟨e, t, hexpands, .inr (by decide), hnames, (hkept 0 _ _ h₀ rfl).2 _ _ _ harg,
    (hkept 1 _ _ h₁ rfl).2 _ _ _ harg⟩

/-! ## The body -/

section Renaming
variable {params fresh : List Ident}

theorem paramRenaming_cons (p q : Ident) (params fresh : List Ident) :
    paramRenaming (p :: params) (q :: fresh) =
      if p.name = q.name then paramRenaming params fresh
      else (p.name, q.name) :: paramRenaming params fresh := by
  by_cases h : p.name = q.name <;> simp [paramRenaming, h]

/-- Only names of parameters are renamed. -/
theorem paramRenaming_apply_of_notMem {name : String} (hname : name ∉ params.map (·.name)) :
    (paramRenaming params fresh).apply name = name := by
  refine Renaming.apply_of_notMem fun hmem => hname ?_
  obtain ⟨_, hpair, rfl⟩ := List.mem_map.1 hmem
  obtain ⟨⟨p, q⟩, hzip, rfl⟩ := List.mem_map.1 hpair
  exact List.mem_map_of_mem (List.of_mem_zip (List.mem_filter.1 hzip).1).1

/-- Of parameters with different names each gets its new name. -/
theorem paramRenaming_apply (h : (params.map (·.name)).Nodup) {i : Nat} {p q : Ident}
    (hp : params[i]? = some p) (hq : fresh[i]? = some q) :
    (paramRenaming params fresh).apply p.name = q.name := by
  induction params generalizing fresh i with
  | nil => nomatch hp
  | cons p' ps ih =>
    cases fresh with
    | nil => nomatch hq
    | cons q' qs =>
      obtain ⟨hp', hps⟩ := List.nodup_cons.1 h
      rw [paramRenaming_cons]
      cases i with
      | zero =>
        obtain rfl := Option.some.inj hp
        obtain rfl := Option.some.inj hq
        split
        · rename_i hsame
          exact (paramRenaming_apply_of_notMem hp').trans hsame
        · rw [Renaming.apply, List.find?_cons, beq_self_eq_true]
      | succ i =>
        have hne : p'.name ≠ p.name := fun heq =>
          hp' (List.mem_map.2 ⟨p, List.mem_of_getElem? hp, heq.symm⟩)
        split
        · exact ih hps hp hq
        · rw [Renaming.apply, List.find?_cons, beq_false_of_ne hne]
          exact ih hps hp hq

end Renaming

/-- In an expansion every occurrence of an identifier in the body keeps its binder, under three
conditions. A binder in the body keeps it if no member of an object expression around has a
parameter with the name of an inline parameter. A parameter is bound by its let if its new name is
not bound around it. What is free stays free if its name is not a new one. -/
theorem expansion_keepsBody {file : SourceFile} {callee e : Expr} {args : List Expr}
    {s t : LowerState} (h : expandInline file callee args s = (.ok (some e), t)) :
    ∃ ref ty loc inline fresh, callee.uncast = .imported ref ty loc ∧
      file.settings.inline? ref.selector = some inline ∧
      FreshParams s.names inline.args fresh t.names ∧ fresh.length = args.length ∧
      (∀ i q arg, fresh[i]? = some q → args[i]? = some arg → ∃ rest,
        e.at? (List.replicate i 1) = some (letBinders (fresh.take i), .letIn q arg rest)) ∧
      ((inline.args.map (·.name)).Nodup →
        ∀ path gs id, inline.body.at? path = some (gs, .ident id) →
          (∀ k, binder? id.name gs = some k →
            (∀ g ∈ gs, g.ofMember = true → g.binds id.name = true →
              id.name ∉ inline.args.map (·.name)) →
            e.OccursAt (List.replicate args.length 1 ++ path) id (some (args.length + k))) ∧
          (∀ i p q, inline.args[i]? = some p → fresh[i]? = some q →
            id.name = p.name → binder? id.name gs = none → binder? q.name gs = none →
            e.OccursAt (List.replicate args.length 1 ++ path) { id with name := q.name }
              (some i)) ∧
          (id.name ∉ inline.args.map (·.name) → binder? id.name gs = none →
            id.name ∉ fresh.map (·.name) →
            e.OccursAt (List.replicate args.length 1 ++ path) id none)) := by
  rcases Lower.expandInline_cases file callee args s with
    ⟨_, heq⟩ | ⟨ref, inline, fresh, names, ⟨ty, loc, hcallee⟩, hinline, hlength, hfresh, heq⟩
  · rw [heq] at h
    cases h
  rw [heq] at h
  cases h
  have hspec := freshParams_spec hfresh
  have hlen : fresh.length = args.length := hspec.renamed.length_eq.symm.trans hlength
  refine ⟨ref, ty, loc, inline, fresh, hcallee, hinline, hspec, hlen,
    fun i q arg hq harg => ⟨_, at?_bindParams_let hlen hq harg⟩, ?_⟩
  intro hnodup path gs id hpath
  have hat : ∀ name {binder}, (if Renaming.Stops gs id.name then id.name
        else (paramRenaming inline.args fresh).apply id.name) = name →
      binder? name (letBinders fresh ++ gs) = binder →
      (bindParams fresh args (inline.body.rename (paramRenaming inline.args fresh))).OccursAt
        (List.replicate args.length 1 ++ path) { id with name } binder := by
    rintro name binder rfl hbinder
    refine ⟨_, ?_, hbinder⟩
    rw [← hlen, at?_bindParams_body hlen, Expr.at?_rename, hpath, Option.map_some, Option.map_some,
      Expr.rename, Renaming.apply_insideAll]
  have hfree : binder? id.name gs = none → ¬Renaming.Stops gs id.name := by
    rintro hnone ⟨g, hg, -, hbinds⟩
    exact Bool.false_ne_true ((Ir.binder?_eq_none.1 hnone g hg).symm.trans hbinds)
  refine ⟨fun k hbinder hmember => hat id.name ?_ ?_, fun i p q hp hq hname hbinder hnew =>
    hat q.name ?_ ?_, fun hname hbinder hnew => hat id.name ?_ ?_⟩
  · split
    · rfl
    · rename_i hstops
      -- A binder that does not stop the renaming is a parameter of a member.
      have hbound : binder? id.name gs ≠ none := by simp [hbinder]
      obtain ⟨g, hg, hbinds⟩ : ∃ g ∈ gs, g.binds id.name = true := by
        simpa [Ir.binder?_eq_none] using hbound
      have hofMember : g.ofMember = true :=
        eq_true_of_ne_false fun hfalse => hstops ⟨g, hg, hfalse, hbinds⟩
      exact paramRenaming_apply_of_notMem (hmember g hg hofMember hbinds)
  · rw [binder?_append, hbinder, Option.map_some, Option.some_or, letBinders, List.length_map, hlen]
  · rw [if_neg (hfree hbinder), hname, paramRenaming_apply hnodup hp hq]
  · rw [binder?_append, hnew, Option.map_none, Option.none_or,
      binder?_letBinders hspec.distinct hq]
  · rw [if_neg (hfree hbinder), paramRenaming_apply_of_notMem hname]
  · rw [binder?_append, hbinder, Option.map_none, Option.none_or, binder?_letBinders_eq_none hnew]

/-- In the call `f a a` the body of `f` keeps its binders. -/
theorem nestedInline_keepsBody : ∃ e t x y,
    expandInline (inlineFile nestedInline) inlineCallee [.ident (int "a"), .ident (int "a")] usesA =
      (.ok (some e), t) ∧ (nestedInline.args.map (·.name)).Nodup ∧
      e.OccursAt [1, 1, 0] (int x) (some 0) ∧ e.OccursAt [1, 1, 1, 0] (int y) (some 1) ∧
      e.OccursAt [1, 1, 1, 1] (int "b") (some 2) ∧ e.OccursAt [1, 1, 1, 2] (int "c") none := by
  obtain ⟨e, t, hexpands, hnames⟩ := nestedInline_expands
  obtain ⟨ref, _, _, inline, fresh, hcallee, hinline, hspec, hlen, -, hkept⟩ :=
    expansion_keepsBody hexpands
  cases hcallee
  cases hinline
  have hnew : ∀ x ∈ fresh.map (·.name), x ≠ "b" ∧ x ≠ "c" := by
    intro x hx
    have hmem := (hspec.current x).2 (.inl hx)
    rw [hnames] at hmem
    constructor <;> rintro rfl <;> exact absurd hmem (by decide)
  obtain ⟨p, q, rfl⟩ := List.length_eq_two.1 hlen
  have hnodup : (nestedInline.args.map (·.name)).Nodup := by decide
  have hfirst := (hkept hnodup [0] [.empty] (int "a") rfl).2.1 0 _ p rfl rfl rfl rfl rfl
  let gs : List Binders := [.of [int "b"], .empty]
  have hsecond : e.OccursAt [1, 1, 1, 0] (int q.name) (some 1) := by
    refine (hkept hnodup [1, 0] gs (int "a_1") rfl).2.1 1 _ q rfl rfl rfl rfl ?_
    have hne : "b" ≠ q.name := (hnew q.name (by simp)).1.symm
    simp [gs, binder?, Binders.binds, Binders.of, Binders.empty, int, hne]
  have hbound : e.OccursAt [1, 1, 1, 1] (int "b") (some 2) :=
    (hkept hnodup [1, 1] gs (int "b") rfl).1 0 rfl (by decide)
  have hfree : e.OccursAt [1, 1, 1, 2] (int "c") none :=
    (hkept hnodup [1, 2] gs (int "c") rfl).2.2 (by decide) rfl fun hmem => (hnew _ hmem).2 rfl
  exact ⟨e, t, p.name, q.name, hexpands, hnodup, hfirst, hsecond, hbound, hfree⟩

/-- `f a = let a_1 = c in a`. -/
def shadowingInline : InlineFunction where
  args := [int "a"]
  body := .letIn (int "a_1") (.ident (int "c")) (.ident (int "a"))

/-- The new name of the parameter is one that the body binds. -/
theorem newName_captured :
    (∃ t, expandInline (inlineFile shadowingInline) inlineCallee [.ident (int "a")] usesA =
      (.ok (some (.letIn (int "a_1") (.ident (int "a"))
        (.letIn (int "a_1") (.ident (int "c")) (.ident (int "a_1"))))), t)) ∧
    ¬ ∀ file callee args s e t, expandInline file callee args s = (.ok (some e), t) →
      ∀ ref ty loc inline, callee.uncast = .imported ref ty loc →
        file.settings.inline? ref.selector = some inline → (inline.args.map (·.name)).Nodup →
        ∀ path id i, inline.body.OccursAt path id none →
          (inline.args.map (·.name))[i]? = some id.name →
          ∃ id', e.OccursAt (List.replicate args.length 1 ++ path) id' (some i) := by
  have hexpands : ∃ t, expandInline (inlineFile shadowingInline) inlineCallee [.ident (int "a")]
      usesA = (.ok (some (.letIn (int "a_1") (.ident (int "a"))
        (.letIn (int "a_1") (.ident (int "c")) (.ident (int "a_1"))))), t) := ⟨_, rfl⟩
  refine ⟨hexpands, fun hbound => ?_⟩
  obtain ⟨t, hexpands⟩ := hexpands
  obtain ⟨id', gs, hat, hbinder⟩ := hbound _ _ _ _ _ _ hexpands _ _ _ _ rfl rfl (by decide) [1]
    (int "a") 0 ⟨_, rfl, rfl⟩ rfl
  cases hat
  cases hbinder

end TypedLowering
