import TypedLowering.Proofs.Ir.Binders
import TypedLowering.Proofs.Lowering.Outcome

/-!
# Types that annotate expressions

Type parameters and declared types are the atoms of types. The type of an expression has no atoms
but those of types that annotate nodes in it. When calls of inline functions are expanded, the
annotations of these functions come along (`Annotates`): what holds of the atoms of all annotations
then still does, whichever names are renamed (`AllAtoms.expansion`).
-/

namespace TypedLowering.Ir

namespace Ty

mutual

/-- The type parameters and the declared types in a type. -/
def atoms : Ty → List Ty
  | .param name => [.param name]
  | .declared entity generics => .declared entity generics :: atomsList generics
  | .option item | .array item | .list item => atoms item
  | .tuple items => atomsList items
  | .lambda arg ret => atoms arg ++ atoms ret
  | .delegate args ret => atomsList args ++ atoms ret
  | .any | .unit | .boolean | .char | .string | .regex | .number _ => []

/-- The atoms of a list of types. -/
def atomsList : List Ty → List Ty
  | [] => []
  | ty :: tys => atoms ty ++ atomsList tys

end

/-- The atoms of a list are those of its types. -/
theorem mem_atomsList {a : Ty} {tys : List Ty} : a ∈ atomsList tys ↔ ∃ ty ∈ tys, a ∈ ty.atoms := by
  induction tys with
  | nil => exact ⟨nofun, nofun⟩
  | cons ty tys ih => simp only [atomsList, List.mem_append, ih, List.exists_mem_cons_iff]

/-- Whether all atoms of a type are of a kind. -/
def All (Q : Ty → Prop) (ty : Ty) : Prop := ∀ a ∈ ty.atoms, Q a

end Ty

/-! ## Annotations -/

/-- The types that annotate a literal. -/
def Literal.annotations : Literal → List Ty
  | .this ty | .null ty => [ty]
  | .unit | .bool _ | .char _ | .string _ | .number .. | .regex .. => []

/-- The types that annotate an aggregate. -/
def Aggregate.annotations : Aggregate → List Ty
  | .array ty => [ty]
  | .record entity generics | .union _ entity generics => [.declared entity generics]
  | .tuple | .anonymous _ => []

/-- The types that annotate a test. -/
def TestKind.annotations : TestKind → List Ty
  | .type ty => [ty]
  | .option _ | .unionCase _ => []

namespace Expr

/-- The types that a node is annotated with, apart from those of its sub-expressions. -/
def annotations : Expr → List Ty
  | .literal value _ => value.annotations
  | .aggregate kind _ _ => kind.annotations
  | .test _ kind _ => kind.annotations
  | .option _ ty _ | .cast _ ty | .imported _ ty _ | .call _ _ _ _ ty _ | .apply _ _ ty _
  | .unary _ _ ty _ | .binary _ _ _ ty _ | .logical _ _ _ ty _ | .emit _ _ _ ty _ | .get _ _ ty _
  | .getIndex _ _ ty _ | .success _ _ ty | .throw _ ty _ => [ty]
  | .object members ty _ => ty :: members.flatMap fun m => m.args.map (·.ty)
  | .ident id | .lambda id _ _ | .letIn id _ _ | .forLoop id .. => [id.ty]
  | .delegate args _ _ => args.map (·.ty)
  | .decisionTree _ targets => targets.flatMap fun t => t.bound.map (·.ty)
  | .letRec bindings _ => bindings.map (·.ident.ty)
  | .tryCatch _ handler _ _ => (handler.map (·.param.ty)).toList
  | .curry .. | .set .. | .setIndex .. | .ifThenElse .. | .sequence _ | .whileLoop ..
  | .debugger _ => []

/-- The inline function that a node is a call of. -/
def calledInline? (settings : Settings) (e : Expr) : Option InlineFunction :=
  e.inlined?.bind settings.inline?

/-- Whether a type annotates a node of an expression, or of an inline function that is called
there. -/
inductive Annotates (settings : Settings) (ty : Ty) : Expr → Prop
  | node {e d : Expr} (hd : d ∈ e.subterms) (hty : ty ∈ d.annotations) : Annotates settings ty e
  | param {e d : Expr} {inline : InlineFunction} (hd : d ∈ e.subterms)
    (hinline : d.calledInline? settings = some inline) (hty : ty ∈ inline.args.map (·.ty)) :
    Annotates settings ty e
  | body {e d : Expr} {inline : InlineFunction} (hd : d ∈ e.subterms)
    (hinline : d.calledInline? settings = some inline) (h : Annotates settings ty inline.body) :
    Annotates settings ty e

/-- Whether the atoms of all types that annotate an expression are of a kind. -/
def AllAtoms (settings : Settings) (Q : Ty → Prop) (e : Expr) : Prop :=
  ∀ ty, e.Annotates settings ty → ty.All Q

variable {settings : Settings} {Q : Ty → Prop} {e c : Expr} {ty : Ty}

/-- What annotates a child annotates the expression. -/
theorem Annotates.child (h : c.Annotates settings ty) (hc : c ∈ e.children) :
    e.Annotates settings ty := by
  have hsub : ∀ {d}, d ∈ c.subterms → d ∈ e.subterms := fun hd => mem_subterms.2 (.inr ⟨c, hc, hd⟩)
  cases h with
  | node hd hty => exact .node (hsub hd) hty
  | param hd hinline hty => exact .param (hsub hd) hinline hty
  | body hd hinline h => exact .body (hsub hd) hinline h

/-- All atoms of an expression come from its own annotations, from an inline function it calls, and
from its children. -/
theorem allAtoms_iff : e.AllAtoms settings Q ↔
    (∀ ty ∈ e.annotations, ty.All Q) ∧
      (∀ inline ∈ e.calledInline? settings,
        (∀ p ∈ inline.args, p.ty.All Q) ∧ inline.body.AllAtoms settings Q) ∧
      ∀ c ∈ e.children, c.AllAtoms settings Q := by
  constructor
  · intro h
    refine ⟨fun ty hty => h ty (.node e.self_mem_subterms hty), fun inline hinline => ⟨?_, ?_⟩,
      fun c hc ty hty => h ty (hty.child hc)⟩
    · exact fun p hp => h p.ty (.param e.self_mem_subterms hinline (List.mem_map_of_mem hp))
    · exact fun ty hty => h ty (.body e.self_mem_subterms hinline hty)
  · rintro ⟨hown, hinlined, hchildren⟩ ty h
    -- A node is the expression itself or stands in a child.
    have hcases : ∀ {d}, d ∈ e.subterms → d = e ∨ ∃ c ∈ e.children, d ∈ c.subterms :=
      fun hd => mem_subterms.1 hd
    cases h with
    | node hd hty =>
      rcases hcases hd with rfl | ⟨c, hc, hd⟩
      · exact hown ty hty
      · exact hchildren c hc ty (.node hd hty)
    | param hd hinline hty =>
      rcases hcases hd with rfl | ⟨c, hc, hd⟩
      · obtain ⟨p, hp, rfl⟩ := List.mem_map.1 hty
        exact (hinlined _ hinline).1 p hp
      · exact hchildren c hc ty (.param hd hinline hty)
    | body hd hinline hbody =>
      rcases hcases hd with rfl | ⟨c, hc, hd⟩
      · exact (hinlined _ hinline).2 ty hbody
      · exact hchildren c hc ty (.body hd hinline hbody)

/-- Without calls of inline functions, the nodes of the expression have all annotations. -/
theorem allAtoms_of_subterms (hinlined : ∀ d ∈ e.subterms, d.calledInline? settings = none)
    (h : ∀ a ∈ (e.subterms.flatMap annotations).flatMap Ty.atoms, Q a) :
    e.AllAtoms settings Q := by
  intro ty hty a ha
  cases hty with
  | node hd hty =>
    exact h a (List.mem_flatMap.2 ⟨ty, List.mem_flatMap.2 ⟨_, hd, hty⟩, ha⟩)
  | param hd hinline => exact absurd ((hinlined _ hd).symm.trans hinline) nofun
  | body hd hinline => exact absurd ((hinlined _ hd).symm.trans hinline) nofun

namespace AllAtoms

/-- The atoms of the own annotations are of the kind. -/
theorem own (h : e.AllAtoms settings Q) (hty : ty ∈ e.annotations) : ty.All Q :=
  (allAtoms_iff.1 h).1 ty hty

/-- The atoms of a child are of the kind. -/
theorem child (h : e.AllAtoms settings Q) (hc : c ∈ e.children) : c.AllAtoms settings Q :=
  (allAtoms_iff.1 h).2.2 c hc

/-- The atoms below casts are of the kind. -/
theorem uncast (h : e.AllAtoms settings Q) : e.uncast.AllAtoms settings Q := by
  induction e using induction_on_children with
  | h e ih =>
    cases e with
    | cast inner ty => exact ih inner List.mem_cons_self (h.child List.mem_cons_self)
    | _ => exact h

end AllAtoms

/-! ## The types of expressions -/

/-- An atom in the types of expressions is one in the type of an expression. -/
theorem mem_atomsList_types {a : Ty} {es : List Expr} (h : a ∈ Ty.atomsList (types es)) :
    ∃ e ∈ es, a ∈ e.type.atoms := by
  induction es with
  | nil => nomatch h
  | cons e es ih =>
    rw [types, Ty.atomsList, List.mem_append] at h
    rcases h with h | h
    · exact ⟨e, List.mem_cons_self, h⟩
    · obtain ⟨d, hd, ha⟩ := ih h
      exact ⟨d, List.mem_cons_of_mem _ hd, ha⟩

/-- An atom in the type of the last expression is one in the type of an expression. -/
theorem mem_atoms_lastType {a : Ty} {es : List Expr} (h : a ∈ (lastType es).atoms) :
    ∃ e ∈ es, a ∈ e.type.atoms := by
  induction es with
  | nil => nomatch h
  | cons e es ih =>
    cases es with
    | nil => exact ⟨e, List.mem_cons_self, h⟩
    | cons e' es =>
      obtain ⟨d, hd, ha⟩ := ih h
      exact ⟨d, List.mem_cons_of_mem _ hd, ha⟩

/-- An atom of the type of an expression is one of an annotation. -/
theorem AllAtoms.type (h : e.AllAtoms settings Q) : e.type.All Q := by
  induction e using induction_on_children with
  | h e ih =>
    have hown : ∀ ty ∈ e.annotations, ty.All Q := fun ty => h.own
    have hchild : ∀ c ∈ e.children, c.type.All Q := fun c hc => ih c hc (h.child hc)
    cases e with
    | literal value =>
      cases value with
      | this ty | null ty => exact hown ty List.mem_cons_self
      | _ => exact List.forall_mem_nil _
    | option value ty => exact hown ty List.mem_cons_self
    | aggregate kind values =>
      cases kind with
      | array ty => exact hown ty List.mem_cons_self
      | tuple =>
        intro a ha
        obtain ⟨c, hc, ha⟩ := mem_atomsList_types ha
        exact hchild c hc a ha
      | record | union => exact hown _ List.mem_cons_self
      | anonymous => exact List.forall_mem_nil _
    | lambda arg body =>
      intro a ha
      rcases List.mem_append.1 ha with ha | ha
      · exact hown arg.ty List.mem_cons_self a ha
      · exact hchild body List.mem_cons_self a ha
    | delegate args body =>
      intro a ha
      rcases List.mem_append.1 ha with ha | ha
      · obtain ⟨ty, hty, ha⟩ := Ty.mem_atomsList.1 ha
        exact hown ty hty a ha
      · exact hchild body List.mem_cons_self a ha
    | ifThenElse guard thenExpr => exact hchild thenExpr (by simp [children])
    | decisionTree dispatcher targets =>
      cases targets with
      | nil => exact List.forall_mem_nil _
      | cons t ts =>
        obtain ⟨bound, body⟩ := t
        exact hchild body (List.mem_cons_of_mem _ List.mem_cons_self)
    | letIn id value body => exact hchild body (by simp [children])
    | letRec bindings body => exact hchild body (by simp [children])
    | sequence =>
      intro a ha
      obtain ⟨c, hc, ha⟩ := mem_atoms_lastType ha
      exact hchild c hc a ha
    | tryCatch body => exact hchild body List.mem_cons_self
    | curry inner => exact hchild inner List.mem_cons_self
    | set | setIndex | whileLoop | forLoop | debugger | test => exact List.forall_mem_nil _
    | _ => exact hown _ List.mem_cons_self

/-! ## Expanded calls -/

/-- A renaming leaves annotations alone. -/
theorem annotations_rename (r : Renaming) (e : Expr) :
    (e.rename r).annotations = e.annotations := by
  cases e <;> simp [rename, annotations, List.flatMap_map, Function.comp_def]

/-- A renaming leaves the atoms of an expression alone. -/
theorem AllAtoms.rename (h : e.AllAtoms settings Q) (r : Renaming) :
    (e.rename r).AllAtoms settings Q := by
  induction e using induction_on_children generalizing r with
  | h e ih =>
    obtain ⟨hown, hinlined, hchildren⟩ := allAtoms_iff.1 h
    refine allAtoms_iff.2 ⟨?_, ?_, fun c hc => ?_⟩
    · rwa [annotations_rename]
    · rwa [calledInline?, inlined?_rename]
    · obtain ⟨d, hd, r', -, rfl⟩ := exists_of_mem_children_rename hc
      exact ih d hd (hchildren d hd) r'

/-- The atoms of an expansion come from the parameters, the arguments and the body. -/
theorem allAtoms_bindParams {params : List Ident} {args : List Expr} {body : Expr}
    (hparams : ∀ p ∈ params, p.ty.All Q) (hargs : ∀ arg ∈ args, arg.AllAtoms settings Q)
    (hbody : body.AllAtoms settings Q) : (bindParams params args body).AllAtoms settings Q := by
  induction params generalizing args with
  | nil => exact hbody
  | cons p ps ih =>
    cases args with
    | nil => exact hbody
    | cons arg args =>
      obtain ⟨hp, hps⟩ := List.forall_mem_cons.1 hparams
      obtain ⟨harg, hargs⟩ := List.forall_mem_cons.1 hargs
      refine allAtoms_iff.2 ⟨fun ty hty => ?_, nofun, fun c hc => ?_⟩
      · exact List.mem_singleton.1 hty ▸ hp
      · rcases List.mem_cons.1 hc with rfl | hc
        · exact harg
        · exact List.mem_singleton.1 hc ▸ ih hps hargs

/-- New parameters have the types of the old ones. -/
theorem map_ty_freshParams {names names' : Scopes} {params fresh : List Ident}
    (h : freshParams names params = (fresh, names')) : fresh.map (·.ty) = params.map (·.ty) := by
  have hrenamed := (freshParams_spec h).renamed
  clear h
  induction hrenamed with
  | nil => rfl
  | cons hp _ ih => rw [List.map_cons, ih, hp, List.map_cons]

/-- What a call is expanded to is annotated like the call. -/
theorem AllAtoms.expansion {file : SourceFile} {callee expanded : Expr} {args : List Expr}
    {isNew : Bool} {loc : Option Location} {s t : LowerState}
    (h : (call callee none args isNew ty loc).AllAtoms file.settings Q)
    (hexpand : expandInline file callee args s = (.ok (some expanded), t)) :
    expanded.AllAtoms file.settings Q := by
  rcases Lower.expandInline_cases file callee args s with
    ⟨_, heq⟩ | ⟨ref, inline, fresh, names, ⟨refTy, refLoc, hcallee⟩, hinline, -, hfresh, heq⟩
  · rw [heq] at hexpand
    nomatch hexpand
  · rw [heq] at hexpand
    obtain rfl := Option.some.inj (Except.ok.inj (Prod.mk.inj hexpand).1)
    have hcalled : (call callee none args isNew ty loc).calledInline? file.settings =
        some inline := by
      rw [calledInline?, inlined?, hcallee]
      exact hinline
    obtain ⟨hparams, hbody⟩ := (allAtoms_iff.1 h).2.1 inline hcalled
    refine allAtoms_bindParams (fun q hq => ?_) (fun arg harg => ?_) (hbody.rename _)
    · have hq := List.mem_map_of_mem (f := (·.ty)) hq
      rw [map_ty_freshParams hfresh] at hq
      obtain ⟨p, hp, hty⟩ := List.mem_map.1 hq
      exact hty ▸ hparams p hp
    · exact h.child (List.mem_cons_of_mem _ harg)

end Expr

end TypedLowering.Ir
