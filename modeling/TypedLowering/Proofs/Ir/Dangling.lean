import TypedLowering.Lowering.Context
import TypedLowering.Proofs.Ir.Binders
import TypedLowering.Proofs.Ir.Ownership
import TypedLowering.Proofs.Ir.Reversal

/-!
# References without a binder

Lowering leaves out binders of unit type: lets and targets do not declare them, and a function has
no lone parameter of unit type. `Dangles` says that an expression refers to a name with none of the
binders around that are kept. A body of a target is in the scope of the identifiers that a success
node gives values for.

A renaming of names that an expression does not bind keeps what dangles, up to the renaming
(`Dangles.exists_of_rename`). In an expression whose trees are `Regular`, a name does not dangle if
all its identifiers are bound and declared (`Declared.not_dangles`).
-/

namespace TypedLowering

open Ir (Expr Ident Target Renaming)

/-- The names of the identifiers that are declared if they are bound one by one. -/
def keptNames (ids : List Ident) : List String :=
  (ids.filter (!·.ty.isUnit)).map (·.name)

/-- The names that are kept are those of each binder. -/
theorem keptNames_cons (id : Ident) (ids : List Ident) :
    keptNames (id :: ids) = keptNames [id] ++ keptNames ids := by
  rw [keptNames, keptNames, keptNames, ← List.map_append, ← List.filter_append,
    List.singleton_append]

/-- The names of the parameters that a function declares, whether it becomes a loop or not. -/
def keptParams (params : List Ident) : List String :=
  (declaredParams (declaredParams params)).map (·.name)

/-- A name that is kept is that of a binder which is not of unit type. -/
theorem exists_of_mem_keptNames {ids : List Ident} {x : String} (h : x ∈ keptNames ids) :
    ∃ id ∈ ids, id.ty.isUnit = false ∧ id.name = x := by
  obtain ⟨id, hid, rfl⟩ := List.mem_map.1 h
  obtain ⟨hid, hunit⟩ := List.mem_filter.1 hid
  exact ⟨id, hid, Bool.not_eq_true' _ ▸ hunit, rfl⟩

/-- A binder that is not of unit type is kept. -/
theorem mem_keptNames {ids : List Ident} {id : Ident} (h : id ∈ ids)
    (hunit : id.ty.isUnit = false) : id.name ∈ keptNames ids :=
  List.mem_map_of_mem (List.mem_filter.2 ⟨h, by rw [hunit]; rfl⟩)

/-- A single binder is kept under its name, if it is not of unit type. -/
theorem of_mem_keptNames_singleton {id : Ident} {x : String} (h : x ∈ keptNames [id]) :
    id.name = x ∧ id.ty.isUnit = false := by
  obtain ⟨_, hid, hunit, hname⟩ := exists_of_mem_keptNames h
  obtain rfl := List.mem_singleton.1 hid
  exact ⟨hname, hunit⟩

/-- A parameter that is neither a unit nor the receiver is declared. -/
theorem mem_declaredParams {params : List Ident} {p : Ident} (h : p ∈ params)
    (hunit : p.ty.isUnit = false) (hthis : p.isThis = false) : p ∈ declaredParams params := by
  refine List.mem_filter.2 ⟨?_, by rw [hthis]; rfl⟩
  unfold discardUnitParam
  split
  · obtain rfl := List.mem_singleton.1 h
    rw [if_neg (by rw [hunit]; exact Bool.false_ne_true)]
    exact h
  · rcases List.mem_pair.1 h with rfl | rfl
    · split <;> exact List.mem_cons_self
    · rw [if_neg (by rw [hunit, Bool.and_false]; exact Bool.false_ne_true)]
      exact h
  · exact h

/-- A parameter that is neither a unit nor the receiver is kept. -/
theorem mem_keptParams {params : List Ident} {p : Ident} (h : p ∈ params)
    (hunit : p.ty.isUnit = false) (hthis : p.isThis = false) : p.name ∈ keptParams params :=
  List.mem_map_of_mem (mem_declaredParams (mem_declaredParams h hunit hthis) hunit hthis)

/-- The parameters that are kept are declared. -/
theorem keptParams_subset (params : List Ident) :
    keptParams params ⊆ (declaredParams params).map (·.name) :=
  ((declaredParams_sublist _).map _).subset

/-- A name that is kept is that of a parameter. -/
theorem exists_of_mem_keptParams {params : List Ident} {x : String} (h : x ∈ keptParams params) :
    ∃ p ∈ params, p.name = x := by
  obtain ⟨p, hp, rfl⟩ := List.mem_map.1 h
  exact ⟨p, mem_of_mem_declaredParams (mem_of_mem_declaredParams hp), rfl⟩

namespace Ir

/-- Whether an identifier of the name is bound that is declared: it is neither of unit type nor a
receiver. -/
def Binders.Declares (g : Binders) (x : String) : Prop :=
  ∃ id ∈ g.ids, id.name = x ∧ id.ty.isUnit = false ∧ id.isThis = false

/-- No binders declare no name. -/
theorem Binders.not_declares_empty {x : String} : ¬ Binders.empty.Declares x := by
  rintro ⟨_, hid, -⟩
  cases hid

/-- The parameters of a member that it declares. A value has none. -/
def ObjectMember.keptParams (m : ObjectMember) : List String :=
  match m.kind with
  | .value => []
  | .method | .getter | .setter => TypedLowering.keptParams m.args

namespace Expr

/-- The children of a node, without the dispatcher of a tree, with the names of the binders that are
kept. -/
def keptParts : Expr → List (List String × Expr)
  | .lambda arg body _ => [(keptParams [arg], body)]
  | .delegate args body _ => [(keptParams args, body)]
  | .object members _ base =>
    members.map (fun m => (m.keptParams, m.body)) ++ base.toList.map ([], ·)
  | .decisionTree _ targets => targets.map fun t => (keptNames t.bound, t.body)
  | .letIn id value body => [([], value), (keptNames [id], body)]
  | .letRec bindings body =>
    (bindings.map (·.value) ++ [body]).map (keptNames (bindings.map (·.ident)), ·)
  | .forLoop id start limit body _ _ => [([], start), ([], limit), ([id.name], body)]
  | .tryCatch body handler finalizer _ =>
    ([], body) :: ((handler.map fun h => ([h.param.name], h.body)).toList ++
      finalizer.toList.map ([], ·))
  | e => e.children.map ([], ·)

/-- The children that a node ends in. -/
def lastParts : Expr → List Expr
  | .cast inner _ => [inner]
  | .ifThenElse _ thenExpr elseExpr _ => [thenExpr, elseExpr]
  | .decisionTree dispatcher targets => dispatcher :: targets.map (·.body)
  | .letIn _ _ body | .letRec _ body => [body]
  | .sequence exprs => exprs.getLast?.toList
  | .tryCatch body handler _ _ => body :: (handler.map (·.body)).toList
  | _ => []

/-- The nodes that an expression ends in. -/
inductive EndsIn : Expr → Expr → Prop
  | self (e : Expr) : EndsIn e e
  | part {c d e : Expr} : c ∈ e.lastParts → EndsIn c d → EndsIn e d

/-- Whether an expression, whose success nodes select from these targets, refers to a name outside
all binders of the name that are kept.

In the dispatcher of a tree with shared targets, a tree at an end writes to the identifiers of its
targets, which are not declared. -/
inductive Dangles (x : String) : List Target → Expr → Prop
  | ident {ts : List Target} {id : Ident} :
    id.isThis = false → id.name = x → Dangles x ts (.ident id)
  | part {ts : List Target} {e : Expr} {p : List String × Expr} :
    p ∈ e.keptParts → x ∉ p.1 → Dangles x ts p.2 → Dangles x ts e
  | dispatcher {ts targets : List Target} {dispatcher : Expr} :
    Dangles x targets dispatcher → Dangles x ts (.decisionTree dispatcher targets)
  | selected {ts : List Target} {index : Nat} {values : List Expr} {ty : Ty} {t : Target} :
    ts[index]? = some t → x ∉ keptNames (t.bound.take values.length) → Dangles x ts t.body →
      Dangles x ts (.success index values ty)
  | nested {ts targets inner : List Target} {dispatcher d : Expr} {t : Target} {id : Ident} :
    dispatcher.sharedTargets targets.length ≠ [] → EndsIn dispatcher (.decisionTree d inner) →
      t ∈ inner → id ∈ t.bound → id.name = x → Dangles x ts (.decisionTree dispatcher targets)

variable {x : String} {ts : List Target} {e : Expr}

/-- Whether the values among the members of an object expression have no parameters. -/
def PlainValues : Expr → Prop
  | .object members _ _ => ∀ m ∈ members, m.kind = .value → m.args = []
  | _ => True

/-- The parts are children. Their names are bound in them, and are those that are declared. -/
theorem exists_scopedChild {p : List String × Expr} (h : p ∈ e.keptParts) :
    ∃ g, (g, p.2) ∈ e.scopedChildren ∧ (∀ y ∈ p.1, ∃ id ∈ g.ids, id.name = y) ∧
      (e.PlainValues → ∀ y, g.Declares y → y ∈ p.1) := by
  have hempty : ∀ y, Binders.empty.Declares y → y ∈ ([] : List String) :=
    fun _ hy => absurd hy Binders.not_declares_empty
  have hkept : ∀ {ids : List Ident}, (∀ y ∈ keptNames ids, ∃ id ∈ ids, id.name = y) ∧
      ∀ y, (Binders.of ids).Declares y → y ∈ keptNames ids := by
    refine fun {ids} => ⟨fun y hy => ?_, ?_⟩
    · obtain ⟨id, hid, -, hname⟩ := exists_of_mem_keptNames hy
      exact ⟨id, hid, hname⟩
    · rintro _ ⟨id, hid, rfl, hunit, -⟩
      exact mem_keptNames hid hunit
  have hparams : ∀ {g : Binders} (y : String), g.Declares y →
      y ∈ TypedLowering.keptParams g.ids := by
    rintro g _ ⟨id, hid, rfl, hunit, hthis⟩
    exact mem_keptParams hid hunit hthis
  have hsingle : ∀ {id : Ident} (y : String), (Binders.of [id]).Declares y → y ∈ [id.name] := by
    rintro id _ ⟨_, hid, rfl, -⟩
    obtain rfl := List.mem_singleton.1 hid
    exact List.mem_singleton_self _
  cases e with
  | lambda arg body | delegate args body =>
    obtain rfl := List.mem_singleton.1 h
    exact ⟨_, List.mem_cons_self, fun y hy => exists_of_mem_keptParams hy, fun _ => hparams⟩
  | object members ty base =>
    rcases List.mem_append.1 h with h | h
    · obtain ⟨m, hm, rfl⟩ := List.mem_map.1 h
      refine ⟨_, List.mem_append_left _ (List.mem_map_of_mem hm), fun y hy => ?_,
        fun hplain y hy => ?_⟩ <;>
      unfold ObjectMember.keptParams at *
      · split at hy
        · exact absurd hy List.not_mem_nil
        all_goals exact exists_of_mem_keptParams hy
      · split
        · obtain ⟨id, hid, -⟩ := hy
          exact absurd (hplain m hm ‹_› ▸ hid) List.not_mem_nil
        all_goals exact hparams y hy
    · obtain ⟨b, hb, rfl⟩ := List.mem_map.1 h
      exact ⟨_, List.mem_append_right _ (List.mem_map_of_mem hb), nofun, fun _ => hempty⟩
  | decisionTree dispatcher targets =>
    obtain ⟨t, ht, rfl⟩ := List.mem_map.1 h
    exact ⟨_, List.mem_cons_of_mem _ (List.mem_map_of_mem ht), hkept.1, fun _ => hkept.2⟩
  | letIn id value body =>
    rcases List.mem_pair.1 h with rfl | rfl
    · exact ⟨_, List.mem_cons_self, nofun, fun _ => hempty⟩
    · exact ⟨_, List.mem_cons_of_mem _ List.mem_cons_self, hkept.1, fun _ => hkept.2⟩
  | letRec bindings body =>
    obtain ⟨c, hc, rfl⟩ := List.mem_map.1 h
    exact ⟨_, List.mem_map_of_mem hc, hkept.1, fun _ => hkept.2⟩
  | forLoop id start limit body =>
    simp only [keptParts, List.mem_cons, List.not_mem_nil, or_false] at h
    rcases h with rfl | rfl | rfl
    · exact ⟨.empty, by simp [scopedChildren], nofun, fun _ => hempty⟩
    · exact ⟨.empty, by simp [scopedChildren], nofun, fun _ => hempty⟩
    · exact ⟨.of [id], by simp [scopedChildren], by simp [Binders.of], fun _ => hsingle⟩
  | tryCatch body handler finalizer =>
    rcases List.mem_cons.1 h with rfl | h
    · exact ⟨_, List.mem_cons_self, nofun, fun _ => hempty⟩
    rcases List.mem_append.1 h with h | h
    · obtain ⟨hd, rfl, rfl⟩ := Option.map_eq_some_iff.1 (Option.mem_toList.1 h)
      exact ⟨.of [hd.param], by simp [scopedChildren], by simp [Binders.of], fun _ => hsingle⟩
    · obtain ⟨c, hc, rfl⟩ := List.mem_map.1 h
      exact ⟨_, List.mem_cons_of_mem _ (List.mem_append_right _ (List.mem_map_of_mem hc)), nofun,
        fun _ => hempty⟩
  | _ =>
    obtain ⟨c, hc, rfl⟩ := List.mem_map.1 h
    exact ⟨_, List.mem_map_of_mem hc, nofun, fun _ => hempty⟩

/-- What stands in the scope of a binder is a child. -/
theorem mem_children_of_mem_keptParts {p : List String × Expr} (h : p ∈ e.keptParts) :
    p.2 ∈ e.children := by
  obtain ⟨g, hg, -⟩ := exists_scopedChild h
  exact map_snd_scopedChildren e ▸ List.mem_map_of_mem (f := (·.2)) hg

/-- What a node ends in is a child. -/
theorem mem_children_of_mem_lastParts {c : Expr} (h : c ∈ e.lastParts) : c ∈ e.children := by
  cases e with
  | sequence exprs => exact List.mem_of_getLast? (Option.mem_toList.1 h)
  | tryCatch body handler finalizer =>
    rcases List.mem_cons.1 h with rfl | h
    · exact List.mem_cons_self
    · exact List.mem_cons_of_mem _ (List.mem_append_left _ h)
  | decisionTree => exact h
  | _ => simp_all [lastParts, children]

/-- A part does not refer to the name freely if its binders do not have it. -/
theorem not_dangles_part (h : ¬ Dangles x ts e) {p : List String × Expr} (hp : p ∈ e.keptParts)
    (hx : x ∉ p.1) : ¬ Dangles x ts p.2 :=
  fun hdangles => h (.part hp hx hdangles)

/-- A node that binds nothing refers to what its children refer to. -/
theorem not_dangles_child (h : ¬ Dangles x ts e) (hparts : e.keptParts = e.children.map ([], ·))
    {c : Expr} (hc : c ∈ e.children) : ¬ Dangles x ts c :=
  not_dangles_part (p := ([], c)) h (hparts ▸ List.mem_map_of_mem hc) List.not_mem_nil

/-- The parts of a counting loop do not refer to the name freely, but for the counter in the
body. -/
theorem not_dangles_forLoop {id : Ident} {start limit body : Expr} {isUp : Bool}
    {loc : Option Location} (h : ¬ Dangles x ts (.forLoop id start limit body isUp loc)) :
    ¬ Dangles x ts start ∧ ¬ Dangles x ts limit ∧ (x ∉ [id.name] → ¬ Dangles x ts body) := by
  have hparts : ∀ p ∈ [([], start), ([], limit), ([id.name], body)], x ∉ p.1 →
      ¬ Dangles x ts p.2 := fun _ => not_dangles_part h
  simp only [List.forall_mem_cons] at hparts
  exact ⟨hparts.1 List.not_mem_nil, hparts.2.1 List.not_mem_nil, hparts.2.2.1⟩

section
variable {body : Expr} {handler : Option Handler} {finalizer : Option Expr}
  {loc : Option Location} (h : ¬ Dangles x ts (.tryCatch body handler finalizer loc))
include h

/-- A handler does not refer to the name freely, but for its parameter. -/
theorem not_dangles_handler {hd : Handler} (hhd : hd ∈ handler) :
    x ∉ [hd.param.name] → ¬ Dangles x ts hd.body :=
  not_dangles_part (p := ([hd.param.name], hd.body)) h <| List.mem_cons_of_mem _ <|
    List.mem_append_left _ (Option.mem_toList.2 (Option.mem_map_of_mem _ hhd))

/-- A finalizer does not refer to the name freely. -/
theorem not_dangles_finalizer {c : Expr} (hc : c ∈ finalizer) : ¬ Dangles x ts c :=
  not_dangles_part (p := ([], c)) h (List.mem_cons_of_mem _ <|
    List.mem_append_right _ (List.mem_map_of_mem (Option.mem_toList.2 hc))) List.not_mem_nil

end

/-- Casts refer to nothing. -/
theorem not_dangles_uncast (h : ¬ Dangles x ts e) : ¬ Dangles x ts e.uncast := by
  induction e using induction_on_children with
  | h e ih =>
    cases e with
    | cast inner ty =>
      exact ih inner List.mem_cons_self (not_dangles_child h rfl List.mem_cons_self)
    | _ => exact h

/-- A function refers to what its body refers to, apart from the parameters that it declares. -/
theorem not_dangles_functionBody {params : List Ident} {body : Expr} {name : Option String}
    (h : ¬ Dangles x ts e) (he : e.uncast = .delegate params body name ∨
      ∃ arg, params = [arg] ∧ e.uncast = .lambda arg body name) :
    x ∉ TypedLowering.keptParams params → ¬ Dangles x ts body := by
  have huncast := not_dangles_uncast h
  rcases he with he | ⟨arg, rfl, he⟩ <;>
  · rw [he] at huncast
    exact not_dangles_part huncast List.mem_cons_self

/-! ## Trees around -/

/-- The parts of an expression whose success nodes choose from `k` targets choose from no others. -/
theorem Scoped.keptPart {k : Nat} (h : Scoped k e) {p : List String × Expr}
    (hp : p ∈ e.keptParts) : Scoped k p.2 := by
  cases e with
  | decisionTree dispatcher targets =>
    obtain ⟨t, ht, rfl⟩ := List.mem_map.1 hp
    exact (h.target ht).mono (Nat.zero_le _)
  | _ => exact h.child rfl (mem_children_of_mem_keptParts hp)

/-- Only the targets that success nodes may select matter. -/
theorem Dangles.of_scoped {k : Nat} {ts' : List Target} (h : Dangles x ts e) (he : Scoped k e)
    (hts : ∀ i t, i < k → ts[i]? = some t → ts'[i]? = some t ∧ Scoped 0 t.body) :
    Dangles x ts' e := by
  induction h generalizing k ts' with
  | ident hthis hname => exact .ident hthis hname
  | part hp hx _ ih => exact .part hp hx (ih (he.keptPart hp) hts)
  | @dispatcher ts targets d _ ih =>
    exact .dispatcher (ih he.dispatcher fun i t _ ht => ⟨ht, he.target (List.mem_of_getElem? ht)⟩)
  | selected ht hx _ ih =>
    obtain ⟨ht', hbody⟩ := hts _ _ (he.selects rfl) ht
    exact .selected ht' hx (ih hbody fun _ _ hi => absurd hi (Nat.not_lt_zero _))
  | nested hshared hends ht hid hname => exact .nested hshared hends ht hid hname

/-! ## Mentions -/

/-- What an expression ends in has no names but those of the expression. -/
theorem EndsIn.names_subset {c : Expr} (h : EndsIn e c) : c.names ⊆ e.names := by
  induction h with
  | self => exact List.Subset.refl _
  | part hc _ ih => exact List.Subset.trans ih (names_subset_of_child
    (mem_children_of_mem_lastParts hc))

/-- What an expression refers to it mentions, or the body of a target does. -/
theorem Dangles.mem_names (h : Dangles x ts e) : x ∈ e.names ∨ ∃ t ∈ ts, x ∈ t.body.names := by
  induction h with
  | ident _ hname => exact .inl (hname ▸ mem_names_of_uses List.mem_cons_self rfl)
  | part hp _ _ ih =>
    exact ih.imp_left fun hx => names_subset_of_child (mem_children_of_mem_keptParts hp) hx
  | @dispatcher ts targets d _ ih =>
    rcases ih with hx | ⟨t, ht, hx⟩
    · exact .inl (names_subset_of_child List.mem_cons_self hx)
    · exact .inl (names_subset_of_child (List.mem_cons_of_mem _ (List.mem_map_of_mem ht)) hx)
  | selected ht _ _ ih =>
    exact .inr (ih.elim (fun hx => ⟨_, List.mem_of_getElem? ht, hx⟩) id)
  | @nested ts targets inner dispatcher d t id _ hends ht hid hname =>
    have hbound : id.name ∈ (decisionTree d inner).names :=
      mem_names_of_binds (List.mem_cons_of_mem _ (List.mem_map_of_mem ht)) hid
    exact .inl (names_subset_of_child List.mem_cons_self (hends.names_subset (hname ▸ hbound)))

/-! ## Renaming -/

/-- Whether an expression binds none of the names. -/
def BindsNone (names : List String) (e : Expr) : Prop :=
  ∀ d ∈ e.subterms, ∀ p ∈ d.scopedChildren, ∀ id ∈ p.1.ids, id.name ∉ names

instance (names : List String) (e : Expr) : Decidable (e.BindsNone names) :=
  inferInstanceAs (Decidable (∀ d ∈ e.subterms, ∀ p ∈ d.scopedChildren, ∀ id ∈ p.1.ids,
    id.name ∉ names))

/-- A child binds none of the names that its node binds none of. -/
theorem BindsNone.child {names : List String} (h : e.BindsNone names) {c : Expr}
    (hc : c ∈ e.children) : c.BindsNone names :=
  fun d hd => h d (mem_subterms.2 (.inr ⟨c, hc, hd⟩))

/-- Of fewer names, none is bound either. -/
theorem BindsNone.mono {names names' : List String} (h : e.BindsNone names)
    (hsub : names' ⊆ names) : e.BindsNone names' :=
  fun d hd p hp id hid hmem => h d hd p hp id hid (hsub hmem)

variable {r : Renaming}

/-- Where a node binds none of the old names, all pairs apply in its children. -/
theorem BindsNone.under (h : e.BindsNone (r.map (·.1))) {p : Binders × Expr}
    (hp : p ∈ e.scopedChildren) : r.under p.1.ids = r :=
  Renaming.under_of_notMem (h e e.self_mem_subterms p hp)

/-- A renaming that meets no binder goes into the parts. -/
theorem keptParts_rename (h : e.BindsNone (r.map (·.1))) :
    (e.rename r).keptParts = e.keptParts.map fun p => (p.1, p.2.rename r) := by
  cases e with
  | lambda arg body name =>
    have hunder : r.under [arg] = r := h.under List.mem_cons_self
    simp [rename, keptParts, hunder]
  | delegate args body name =>
    have hunder : r.under args = r := h.under List.mem_cons_self
    simp [rename, keptParts, hunder]
  | object members ty base =>
    cases base <;> simp [rename, keptParts, Function.comp_def, ObjectMember.keptParams]
  | decisionTree dispatcher targets =>
    simp only [rename, keptParts, renameTargets_eq, List.map_map, Function.comp_def]
    refine List.map_congr_left fun t ht => ?_
    have hunder : r.under t.bound = r :=
      h.under (List.mem_cons_of_mem _ (List.mem_map_of_mem ht))
    rw [hunder]
  | letIn id value body =>
    have hunder : r.under [id] = r := h.under (List.mem_cons_of_mem _ List.mem_cons_self)
    simp [rename, keptParts, hunder]
  | letRec bindings body =>
    have hunder : r.under (bindings.map (·.ident)) = r :=
      h.under (List.mem_map_of_mem (List.mem_append_right _ List.mem_cons_self))
    simp [rename, keptParts, hunder, Function.comp_def]
  | forLoop id start limit body isUp loc =>
    have hunder : r.under [id] = r := h.under (p := (.of [id], body)) (by simp [scopedChildren])
    simp [rename, keptParts, hunder]
  | tryCatch body handler finalizer loc =>
    have hunder : ∀ hd ∈ handler, r.under [hd.param] = r := by
      rintro hd rfl
      exact h.under (p := (.of [hd.param], hd.body)) (by simp [scopedChildren])
    cases handler with
    | none => cases finalizer <;> simp [rename, keptParts]
    | some hd => cases finalizer <;> simp [rename, keptParts, hunder hd rfl]
  | option value | throw value => cases value <;> simp [rename, keptParts, children]
  | call callee receiver =>
    cases receiver <;> simp [rename, keptParts, children, Function.comp_def]
  | _ => simp [rename, keptParts, children, Function.comp_def]

/-- A renaming that meets no binder goes into what a node ends in. -/
theorem lastParts_rename (h : e.BindsNone (r.map (·.1))) :
    (e.rename r).lastParts = e.lastParts.map (rename r) := by
  cases e with
  | letIn id value body =>
    have hunder : r.under [id] = r := h.under (List.mem_cons_of_mem _ List.mem_cons_self)
    simp [rename, lastParts, hunder]
  | letRec bindings body =>
    have hunder : r.under (bindings.map (·.ident)) = r :=
      h.under (List.mem_map_of_mem (List.mem_append_right _ List.mem_cons_self))
    simp [rename, lastParts, hunder]
  | sequence exprs => simp [rename, lastParts, Option.toList_map]
  | decisionTree dispatcher targets =>
    simp only [rename, lastParts, renameTargets_eq, List.map_cons, List.map_map]
    refine congrArg _ (List.map_congr_left fun t ht => ?_)
    have hunder : r.under t.bound = r :=
      h.under (List.mem_cons_of_mem _ (List.mem_map_of_mem ht))
    simp only [Function.comp_apply, hunder]
  | tryCatch body handler finalizer loc =>
    cases handler with
    | none => simp [rename, lastParts]
    | some hd =>
      have hunder : r.under [hd.param] = r :=
        h.under (p := (.of [hd.param], hd.body)) (by simp [scopedChildren])
      simp [rename, lastParts, hunder]
  | _ => simp [rename, lastParts]

/-- What a renamed expression ends in is the renaming of what the expression ends in. -/
theorem EndsIn.exists_of_rename {d' : Expr} (h : EndsIn (e.rename r) d')
    (he : e.BindsNone (r.map (·.1))) :
    ∃ d, EndsIn e d ∧ d' = d.rename r ∧ d.BindsNone (r.map (·.1)) := by
  generalize heq : e.rename r = e' at h
  induction h generalizing e with
  | self => exact ⟨e, .self e, heq.symm, he⟩
  | part hc _ ih =>
    rw [← heq, lastParts_rename he] at hc
    obtain ⟨c, hmem, rfl⟩ := List.mem_map.1 hc
    obtain ⟨d, hd, hrest⟩ := ih (he.child (mem_children_of_mem_lastParts hmem)) rfl
    exact ⟨d, .part hmem hd, hrest⟩

/-- Whether neither the identifiers nor the body of a target bind one of the names. -/
structure BindsNoneIn (names : List String) (t : Target) : Prop where
  bound : ∀ id ∈ t.bound, id.name ∉ names
  body : t.body.BindsNone names

/-- What a renamed expression refers to is what the expression refers to, renamed. -/
theorem Dangles.exists_of_rename {ts' : List Target} (h : Dangles x ts' (e.rename r))
    (he : e.BindsNone (r.map (·.1))) (hts : ∀ t ∈ ts, BindsNoneIn (r.map (·.1)) t)
    (heq : ts' = ts.map fun t => ⟨t.bound, t.body.rename r⟩) :
    ∃ y, Dangles y ts e ∧ r.apply y = x := by
  -- The new name of what a binder that is kept binds would be the old one.
  have hfree : ∀ {names : List String} {y : String}, (∀ z ∈ names, z ∉ r.map (·.1)) →
      x ∉ names → r.apply y = x → y ∉ names := by
    rintro names y hnames hx rfl hy
    rw [Renaming.apply_of_notMem (hnames y hy)] at hx
    exact hx hy
  generalize hexpr : e.rename r = e' at h
  induction h generalizing e ts with
  | @ident _ id' hthis hname =>
    cases e with
    | ident id =>
      rw [rename] at hexpr
      obtain rfl := Expr.ident.inj hexpr
      exact ⟨id.name, .ident hthis rfl, hname⟩
    | _ => rw [rename] at hexpr; nomatch hexpr
  | part hp hx _ ih =>
    rw [← hexpr, keptParts_rename he] at hp
    obtain ⟨p, hpart, rfl⟩ := List.mem_map.1 hp
    obtain ⟨y, hy, hname⟩ := ih (he.child (mem_children_of_mem_keptParts hpart)) hts heq rfl
    refine ⟨y, .part hpart (hfree (fun z hz => ?_) hx hname) hy, hname⟩
    obtain ⟨g, hg, hnames, -⟩ := exists_scopedChild hpart
    obtain ⟨id, hid, rfl⟩ := hnames z hz
    exact he e e.self_mem_subterms _ hg id hid
  | dispatcher _ ih =>
    cases e with
    | decisionTree d targets =>
      rw [rename, renameTargets_eq] at hexpr
      obtain ⟨rfl, rfl⟩ := Expr.decisionTree.inj hexpr
      have hinner : ∀ t ∈ targets, BindsNoneIn (r.map (·.1)) t := fun t ht =>
        have hscoped : (.of t.bound, t.body) ∈ (decisionTree d targets).scopedChildren :=
          List.mem_cons_of_mem _ (List.mem_map_of_mem ht)
        ⟨he _ (self_mem_subterms _) _ hscoped,
          he.child (List.mem_cons_of_mem _ (List.mem_map_of_mem ht))⟩
      obtain ⟨y, hy, hname⟩ := ih (he.child List.mem_cons_self) hinner
        (List.map_congr_left fun t ht => by rw [Renaming.under_of_notMem (hinner t ht).bound]) rfl
      exact ⟨y, .dispatcher hy, hname⟩
    | _ => rw [rename] at hexpr; nomatch hexpr
  | selected ht hx _ ih =>
    cases e with
    | success index values ty =>
      rw [rename, renameList_eq] at hexpr
      obtain ⟨rfl, rfl, rfl⟩ := Expr.success.inj hexpr
      rw [heq, List.getElem?_map] at ht
      obtain ⟨t, htarget, rfl⟩ := Option.map_eq_some_iff.1 ht
      have hbinds := hts t (List.mem_of_getElem? htarget)
      obtain ⟨y, hy, hname⟩ := ih hbinds.body hts heq rfl
      rw [List.length_map] at hx
      refine ⟨y, .selected htarget (hfree (fun z hz => ?_) hx hname) hy, hname⟩
      obtain ⟨id, hid, -, rfl⟩ := exists_of_mem_keptNames hz
      exact hbinds.bound id (List.mem_of_mem_take hid)
    | _ => rw [rename] at hexpr; nomatch hexpr
  | @nested _ _ inner _ d t id hshared hends ht hid hname =>
    cases e with
    | decisionTree d₀ targets =>
      rw [rename, renameTargets_eq] at hexpr
      obtain ⟨rfl, rfl⟩ := Expr.decisionTree.inj hexpr
      obtain ⟨c, hc, htree, hbinds⟩ := hends.exists_of_rename (he.child List.mem_cons_self)
      cases c with
      | decisionTree d' inner' =>
        rw [rename, renameTargets_eq] at htree
        obtain ⟨-, rfl⟩ := Expr.decisionTree.inj htree
        obtain ⟨t, htarget, rfl⟩ := List.mem_map.1 ht
        refine ⟨x, .nested ?_ hc htarget hid hname, ?_⟩
        · simpa [sharedTargets] using hshared
        · refine Renaming.apply_of_notMem (hname ▸ ?_)
          exact hbinds _ (self_mem_subterms _) (.of t.bound, t.body)
            (List.mem_cons_of_mem _ (List.mem_map_of_mem htarget)) id hid
      | _ => rw [rename] at htree; nomatch htree
    | _ => rw [rename] at hexpr; nomatch hexpr

/-! ## Declared identifiers -/

/-- Whether an expression refers to a name outside of all binders that declare it. -/
inductive Undeclared (x : String) : Expr → Prop
  | ident {id : Ident} : id.isThis = false → id.name = x → Undeclared x (.ident id)
  | child {e : Expr} {p : Binders × Expr} :
    p ∈ e.scopedChildren → ¬ p.1.Declares x → Undeclared x p.2 → Undeclared x e

/-- Whether each identifier of a name stands where a binder around declares the name. -/
def Declared (x : String) (e : Expr) : Prop :=
  ∀ path gs id, e.at? path = some (gs, .ident id) → id.isThis = false → id.name = x →
    ∃ g ∈ gs, g.Declares x

/-- A name that is declared everywhere is undeclared nowhere. -/
theorem Declared.not_undeclared (h : e.Declared x) : ¬ Undeclared x e := by
  suffices hpath : Undeclared x e → ∃ path gs id, e.at? path = some (gs, .ident id) ∧
      id.isThis = false ∧ id.name = x ∧ ∀ g ∈ gs, ¬ g.Declares x by
    intro hundeclared
    obtain ⟨path, gs, id, hat, hthis, hname, hgs⟩ := hpath hundeclared
    obtain ⟨g, hg, hdeclares⟩ := h path gs id hat hthis hname
    exact hgs g hg hdeclares
  intro hundeclared
  clear h
  induction hundeclared with
  | ident hthis hname =>
    exact ⟨[], [], _, rfl, hthis, hname, fun _ hg => absurd hg List.not_mem_nil⟩
  | child hp hdeclares _ ih =>
    obtain ⟨path, gs, id, hat, hthis, hname, hgs⟩ := ih
    obtain ⟨i, hi⟩ := List.getElem?_of_mem hp
    exact ⟨i :: path, _, id, (at?_cons hi path).trans (congrArg _ hat), hthis, hname,
      List.forall_mem_cons.2 ⟨hdeclares, hgs⟩⟩

/-- The targets from which the success nodes in the parts of a node may select. -/
def partTargets (ts : List Target) : Expr → List Target
  | .decisionTree .. => []
  | _ => ts

/-- Whether success nodes stand in the dispatcher of their tree and give a value for each identifier
of their target, no dispatcher with shared targets ends in a tree, and values among the members of
an object expression have no parameters. -/
inductive Regular : List Target → Expr → Prop
  | node {ts : List Target} {e : Expr}
    (plain : e.PlainValues)
    (selects : ∀ index values ty, e = .success index values ty →
      ∃ t, ts[index]? = some t ∧ t.bound.length = values.length)
    (dispatcher : ∀ d targets, e = .decisionTree d targets → Regular targets d)
    (ends : ∀ d targets, e = .decisionTree d targets → d.sharedTargets targets.length ≠ [] →
      ∀ d' inner, ¬ d.EndsIn (.decisionTree d' inner))
    (parts : ∀ p ∈ e.keptParts, Regular (e.partTargets ts) p.2) : Regular ts e

/-- Without targets, no part has one. -/
theorem partTargets_nil (e : Expr) : e.partTargets [] = [] := by
  cases e <;> rfl

/-- An expression without success nodes of trees around may stand in any tree. -/
theorem Regular.of_closed (h : Regular [] e) (ts : List Target) : Regular ts e := by
  generalize hnone : ([] : List Target) = none' at h
  induction h with
  | @node _ e plain selects dispatcher ends parts _ ih =>
    subst hnone
    refine .node plain (fun index values ty he => ?_) dispatcher ends fun p hp => ?_
    · obtain ⟨t, ht, -⟩ := selects index values ty he
      cases ht
    · cases e with
      | decisionTree => exact parts p hp
      | _ => exact ih p hp rfl

/-- The targets around do not matter to it either. -/
theorem Dangles.of_closed (h : Dangles x ts e) (he : Regular [] e) : Dangles x [] e := by
  induction h with
  | ident hthis hname => exact .ident hthis hname
  | @part ts e p hp hx _ ih =>
    cases he with
    | node _ _ _ _ parts =>
      exact .part hp hx (ih (e.partTargets_nil ▸ parts p hp))
  | dispatcher h => exact .dispatcher h
  | selected =>
    cases he with
    | node _ selects =>
      obtain ⟨t, ht, -⟩ := selects _ _ _ rfl
      cases ht
  | nested hshared hends ht hid hname => exact .nested hshared hends ht hid hname

/-- What dangles stands outside of all binders that declare it. -/
theorem Dangles.undeclared (h : Dangles x ts e) (he : Regular ts e)
    (hts : ∀ t ∈ ts, Regular [] t.body) :
    Undeclared x e ∨
      ∃ t ∈ ts, ¬ (Binders.of t.bound).Declares x ∧ Undeclared x t.body := by
  induction h with
  | ident hthis hname => exact .inl (.ident hthis hname)
  | @part ts e p hp hx _ ih =>
    cases he with
    | node plain _ _ _ parts =>
      obtain ⟨g, hg, -, hnames⟩ := exists_scopedChild hp
      have hbody : Regular ts p.2 := by
        have hpart := parts p hp
        cases e with
        | decisionTree => exact hpart.of_closed ts
        | _ => exact hpart
      exact (ih hbody hts).imp_left (.child hg fun hdeclares => hx (hnames plain x hdeclares))
  | @dispatcher ts targets d _ ih =>
    cases he with
    | node _ _ dispatcher _ parts =>
      have hinner : ∀ t ∈ targets, Regular [] t.body := fun t ht =>
        parts (keptNames t.bound, t.body) (List.mem_map_of_mem ht)
      rcases ih (dispatcher d targets rfl) hinner with hd | ⟨t, ht, hdeclares, hbody⟩
      · exact .inl (.child (p := (.empty, d)) List.mem_cons_self Binders.not_declares_empty hd)
      · exact .inl (.child (p := (.of t.bound, t.body))
          (List.mem_cons_of_mem _ (List.mem_map_of_mem ht)) hdeclares hbody)
  | @selected ts index values ty t ht hx _ ih =>
    cases he with
    | node _ selects _ _ _ =>
      obtain ⟨t', ht', hlength⟩ := selects index values ty rfl
      obtain rfl := Option.some.inj (ht.symm.trans ht')
      rw [← hlength, List.take_length] at hx
      have hmem := List.mem_of_getElem? ht
      refine .inr ((ih ((hts t hmem).of_closed ts) hts).elim (fun hbody => ⟨t, hmem, ?_, hbody⟩) id)
      rintro ⟨id, hid, rfl, hunit, -⟩
      exact hx (mem_keptNames hid hunit)
  | nested hshared hends =>
    cases he with
    | node _ _ _ ends _ => exact absurd hends (ends _ _ rfl hshared _ _)

/-- Where a binder around each identifier of a name declares it, nothing of the name dangles. -/
theorem Declared.not_dangles (h : e.Declared x) (he : Regular [] e) (ts : List Target) :
    ¬ Dangles x ts e := by
  intro hdangles
  rcases (hdangles.of_closed he).undeclared he nofun with hundeclared | ⟨t, ht, -⟩
  · exact h.not_undeclared hundeclared
  · exact absurd ht List.not_mem_nil

end Expr

end Ir

end TypedLowering
