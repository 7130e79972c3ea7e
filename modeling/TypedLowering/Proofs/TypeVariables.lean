import TypedLowering.Proofs.Dart.Types

/-!
# Type variables are declared

A function declares the type variables that its signature mentions, and classes declare none. So the
types in lowered declarations are declared (`Ty.IsDeclared`) if type parameters are only mentioned
where the signature of a function around mentions them, and classes are not applied to types
(`typeVariables_declared`). A record with a field of generic type lacks the declaration of its type
variable (`genericField_undeclared`).
-/

namespace TypedLowering

/-! ## Types of declarations -/

namespace Ir

/-- The type parameters that the signature of a function mentions. -/
def Member.typeParams (m : Member) : List String :=
  Dart.typeParamsList (m.args.map (·.ty)) ++ Dart.typeParams m.body.type

/-- Whether a type annotates a parameter of a function or its body. -/
inductive Member.Annotates (settings : Settings) (m : Member) : Ty → Prop
  | param {p : Ident} (hp : p ∈ m.args) : Member.Annotates settings m p.ty
  | body {ty : Ty} (h : m.body.Annotates settings ty) : Member.Annotates settings m ty

/-- Whether a type annotates a declaration, where functions around mention those type parameters in
their signatures. Fields and constructors of classes are in no function. -/
inductive Leaf.Annotates (settings : Settings) : Leaf → List String → Ty → Prop
  | value {m : Member} {ty : Ty} (hm : m.isValue = true) (h : m.body.Annotates settings ty) :
    Leaf.Annotates settings (.member m) [] ty
  | function {m : Member} {ty : Ty} (hm : m.isValue = false) (h : m.Annotates settings ty) :
    Leaf.Annotates settings (.member m) m.typeParams ty
  | field {c : ClassDecl} {entity : Entity} {fields : List Field} {f : Field}
    (hentity : settings.entity? c.entity = some entity) (hkind : entity.kind = .record fields)
    (hf : f ∈ fields) : Leaf.Annotates settings (.classDecl c) [] f.ty
  | constructor {c : ClassDecl} {entity : Entity} {m : Member} {ty : Ty}
    (hentity : settings.entity? c.entity = some entity) (hkind : entity.kind = .plain)
    (hm : c.constructor = some m) (h : m.Annotates settings ty) :
    Leaf.Annotates settings (.classDecl c) [] ty
  | method {c : ClassDecl} {m : Member} {ty : Ty} (hm : m ∈ c.members)
    (h : m.Annotates settings ty) : Leaf.Annotates settings (.classDecl c) m.typeParams ty

end Ir

namespace Dart

open Lower (Produces)

/-- Whether all types in a class are of a kind, each with the type variables in scope there. -/
structure ClassDecl.AllTypes (P : List String → Ty → Prop) (c : ClassDecl) : Prop where
  fields : ∀ f ∈ c.fields, P c.generics f.id.ty
  constructor : ∀ k ∈ c.constructor,
    (∀ id ∈ k.args, P c.generics id.ty) ∧ AllTypesStmts P c.generics k.body
  methods : ∀ m ∈ c.methods, m.AllTypes P c.generics

/-- Whether all types in a declaration are of a kind, each with the type variables in scope
there. -/
def Declaration.AllTypes (P : List String → Ty → Prop) : Declaration → Prop
  | .value id initializer _ => P [] id.ty ∧ initializer.AllTypes P []
  | .function func => func.AllTypes P []
  | .classDecl c => c.AllTypes P

/-- Whether an atom of a type is declared: a type variable is in scope, and a reference to a class
has as many arguments as the class has type variables. -/
def Ty.Fits (classes : List ClassDecl) (scope : List String) : Ty → Prop
  | .generic name => name ∈ scope
  | .named none name args => ∀ c ∈ classes, c.name = name → args.length = c.generics.length
  | _ => True

/-- Whether the type variables of a type are in scope, and classes have as many arguments as they
declare. -/
def Ty.IsDeclared (classes : List ClassDecl) (scope : List String) (ty : Ty) : Prop :=
  ∀ a ∈ ty.atoms, a.Fits classes scope

/-- Whether an atom of a type needs no declaration but that of those type parameters: it is one of
them, or a type that is not lowered to one of the classes with arguments. -/
def IsCovered (settings : Settings) (classes : List ClassDecl) (params : List String) :
    Ir.Ty → Prop
  | .param name => name ∈ params
  | .declared fullName generics => ∀ entity, settings.entity? fullName = some entity →
    (∃ c ∈ classes, c.name = entity.displayName) → generics = []
  | _ => True

/-- What a declaration is lowered to, up to the first failure if there is one. -/
def declarationsOf (file : SourceFile) (decl : Ir.Declaration) (s : LowerState) :
    List Declaration :=
  (lowerDeclaration file decl s).2.1.declarations

/-- Whether a class is what a declaration is lowered to. -/
def ClassDecl.IsLowered (c : ClassDecl) : Prop :=
  ∃ file decl s, .classDecl c ∈ declarationsOf file decl s

/-! ## Functions -/

theorem mem_firstOccurrences {x : String} {names : List String} :
    x ∈ firstOccurrences names ↔ x ∈ names := by
  have hfold : ∀ seen : List String, x ∈ names.foldl
      (fun seen name => if name ∈ seen then seen else seen ++ [name]) seen ↔
        x ∈ seen ∨ x ∈ names := by
    induction names with
    | nil => simp
    | cons name names ih =>
      intro seen
      rw [List.foldl_cons, ih]
      split
      · rename_i hseen
        rw [List.mem_cons, or_left_comm]
        exact ⟨.inr, fun h => h.elim (fun hx => .inl (hx ▸ hseen)) id⟩
      · rw [List.mem_append, List.mem_singleton, List.mem_cons, or_assoc]
  exact (hfold []).trans (by simp)

section
variable {classes : List ClassDecl} (hclasses : ∀ c ∈ classes, c.generics = [])
  {file : SourceFile} {params scope : List String}
include hclasses

/-- Types that are covered by the type variables in scope are lowered to declared types. -/
theorem annotated_ofFile (hscope : ∀ x ∈ params, x ∈ scope) :
    Annotated (IsCovered file.settings classes params) (Ty.IsDeclared classes scope)
      (.ofFile file) where
  lowered {ty} hty s lowered t h a ha := by
    cases lowerType_atoms file ty s lowered t h a ha with
    | param hparam => exact hscope _ (hty _ hparam)
    | declared hdeclared hentity hlength =>
      intro c hc hname
      rw [hlength, hty _ hdeclared _ hentity ⟨c, hc, hname⟩, hclasses c hc, List.length_nil,
        List.length_nil]
    | regex => exact fun c hc _ => (hclasses c hc).symm ▸ rfl
    | library => exact trivial
  plain {ty} hty a ha := by
    rw [hty] at ha
    nomatch ha
  targets := nofun
  slots := nofun

theorem lowerFunction_allTypes (hscope : ∀ x ∈ params, x ∈ scope) {m : Ir.Member}
    (name : Option String)
    (hm : ∀ ty, m.Annotates file.settings ty → ty.All (IsCovered file.settings classes params)) :
    Produces (lowerFunction (.ofFile file) name m.args m.body) fun f =>
      (∀ id ∈ f.1, Ty.IsDeclared classes scope id.ty) ∧
        AllTypesStmts (Ty.IsDeclared classes) scope f.2.1 ∧ Ty.IsDeclared classes scope f.2.2 :=
  (rules_keepTypes _ _ scope _).function (annotated_ofFile hclasses hscope)
    (fun _ hp => hm _ (.param hp)) fun _ hty => hm _ (.body hty)

/-- A function declares the type variables of its signature. -/
theorem lowerMethod_allTypes {m : Ir.Member} (hm : ∀ ty, m.Annotates file.settings ty →
    ty.All (IsCovered file.settings classes m.typeParams)) :
    Produces (lowerMethod (.ofFile file) m) (Func.AllTypes (Ty.IsDeclared classes) scope) := by
  have hscope : ∀ x ∈ m.typeParams, x ∈ functionGenerics m.args m.body.type ++ scope :=
    fun x hx => List.mem_append_left _ (mem_firstOccurrences.2 hx)
  exact .bind (lowerFunction_allTypes hclasses hscope _ hm) fun ⟨_, _, _⟩ hf => .pure hf

theorem lowerMethods_allTypes {ms : List Ir.Member} (hms : ∀ m ∈ ms, ∀ ty,
    m.Annotates file.settings ty → ty.All (IsCovered file.settings classes m.typeParams)) :
    Produces (lowerMethods (.ofFile file) ms) fun methods =>
      ∀ f ∈ methods, f.AllTypes (Ty.IsDeclared classes) scope := by
  induction ms with
  | nil => exact .pure nofun
  | cons m ms ih =>
    obtain ⟨hm, hms⟩ := List.forall_mem_cons.1 hms
    exact .bind (lowerMethod_allTypes hclasses hm) fun _ hfirst => .bind (ih hms) fun _ hrest =>
      .pure (List.forall_mem_cons.2 ⟨hfirst, hrest⟩)

omit hclasses in
theorem allTypes_invoked {P : List String → Ty → Prop} {value : Hoisted Expr} {ty : Ty}
    (hvalue : value.AllTypes P scope (Expr.AllTypes P scope)) (hty : P scope ty) :
    (invoked value ty).AllTypes P scope := by
  rw [invoked]
  split
  · exact hvalue.value
  · exact ⟨⟨nofun, allTypesStmts_append.2 ⟨hvalue.before, hvalue.value, trivial⟩, hty⟩,
      trivial, trivial⟩

/-! ## Classes -/

theorem lowerFields_allTypes {fields : List Field}
    (hfields : ∀ f ∈ fields, f.ty.All (IsCovered file.settings classes [])) :
    Produces (lowerFields file fields) fun lowered =>
      ∀ f ∈ lowered, Ty.IsDeclared classes [] f.id.ty := by
  have hctx : Annotated _ _ (.ofFile file) := annotated_ofFile hclasses (List.Subset.refl [])
  induction fields with
  | nil => exact .pure nofun
  | cons f fields ih =>
    obtain ⟨hf, hfields⟩ := List.forall_mem_cons.1 hfields
    exact .bind (hctx.lowered hf) fun _ hty => .bind (ih hfields) fun _ hrest =>
      .pure (List.forall_mem_cons.2 ⟨hty, hrest⟩)

omit hclasses in
theorem fieldConstructor_allTypes {P : List String → Ty → Prop} {fields : List InstanceVar}
    (hfields : ∀ f ∈ fields, P scope f.id.ty) :
    (∀ id ∈ (fieldConstructor fields).args, P scope id.ty) ∧
      AllTypesStmts P scope (fieldConstructor fields).body := by
  refine ⟨fun id hid => ?_, trivial⟩
  obtain ⟨f, hf, rfl⟩ := List.mem_map.1 hid
  exact hfields f hf

theorem lowerClass_allTypes {c : Ir.ClassDecl}
    (hc : ∀ params ty, (Ir.Leaf.classDecl c).Annotates file.settings params ty →
      ty.All (IsCovered file.settings classes params)) :
    Produces (lowerClass (.ofFile file) c) (Declaration.AllTypes (Ty.IsDeclared classes)) := by
  refine .bind (.ofOption _ fun _ => id) fun entity hentity => ?_
  have hshape : Produces (lowerShape (.ofFile file) entity c.constructor) fun shape =>
      (∀ f ∈ shape.1, Ty.IsDeclared classes [] f.id.ty) ∧ ∀ k ∈ shape.2,
        (∀ id ∈ k.args, Ty.IsDeclared classes [] id.ty) ∧
          AllTypesStmts (Ty.IsDeclared classes) [] k.body := by
    unfold lowerShape
    split
    · rename_i fields hkind
      refine .bind (lowerFields_allTypes hclasses fun f hf => hc _ _ (.field hentity hkind hf))
        fun fields hfields => .pure ⟨hfields, fun k hk => ?_⟩
      obtain rfl := Option.some.inj hk
      exact fieldConstructor_allTypes hfields
    · have hfields : ∀ f ∈ [⟨.own "tag" .integer, true⟩, ⟨.own "fields" (.list .dynamic), true⟩],
          Ty.IsDeclared classes [] (InstanceVar.id f).ty := by
        simp [Ty.IsDeclared, Ident.own, Ty.atoms]
      refine .pure ⟨hfields, fun k hk => ?_⟩
      obtain rfl := Option.some.inj hk
      exact fieldConstructor_allTypes hfields
    · rename_i hkind
      cases hconstructor : c.constructor with
      | none => exact .pure ⟨nofun, nofun⟩
      | some m =>
        refine .bind (lowerFunction_allTypes hclasses (List.Subset.refl []) none fun ty hty =>
          hc _ _ (.constructor hentity hkind hconstructor hty)) fun ⟨_, _, _⟩ hf =>
            .pure ⟨nofun, fun k hk => ?_⟩
        obtain rfl := Option.some.inj hk
        exact ⟨hf.1, hf.2.1⟩
  have hmethods : Produces (lowerMethods (.ofFile file) c.members) fun methods =>
      ∀ f ∈ methods, f.AllTypes (Ty.IsDeclared classes) [] :=
    lowerMethods_allTypes hclasses fun m hm ty hty => hc _ _ (.method hm hty)
  exact .bind hshape fun ⟨_, _⟩ hshape => .bind hmethods fun _ hmethods =>
    .pure ⟨hshape.1, hshape.2, hmethods⟩

end

/-! ## Declarations -/

theorem lowerLeaf_allTypes {classes : List ClassDecl} (hclasses : ∀ c ∈ classes, c.generics = [])
    {file : SourceFile} {leaf : Ir.Leaf}
    (hleaf : ∀ params ty, leaf.Annotates file.settings params ty →
      ty.All (IsCovered file.settings classes params)) :
    Produces (lowerLeaf file leaf) fun output =>
      ∀ d ∈ output.declarations, d.AllTypes (Ty.IsDeclared classes) := by
  have hsingle : ∀ {m : Lower Declaration},
      Produces m (Declaration.AllTypes (Ty.IsDeclared classes)) →
      Produces (do return Output.mk [← m] []) fun output =>
        ∀ d ∈ output.declarations, d.AllTypes (Ty.IsDeclared classes) :=
    fun hm => .bind hm fun _ hd => .pure (List.forall_mem_singleton.2 hd)
  cases leaf with
  | action a => exact .inDeclaration _ (.bind (.any _) fun _ _ => .pure nofun)
  | classDecl c => exact .inDeclaration _ (hsingle (lowerClass_allTypes hclasses hleaf))
  | member m =>
    refine .inDeclaration _ (hsingle (.ite (fun hvalue => ?_) fun hvalue => ?_))
    · have hctx : Annotated _ _ (.ofFile file) := annotated_ofFile hclasses (List.Subset.refl [])
      have hbody : m.body.AllAtoms file.settings (IsCovered file.settings classes []) :=
        fun _ hty => hleaf _ _ (.value hvalue hty)
      exact .bind (hctx.lowered hbody.type) fun _ hty =>
        .bind ((rules_keepTypes _ _ [] _).expr hctx hbody) fun _ hvalue =>
          .pure ⟨hty, allTypes_invoked hvalue hty⟩
    · have hm : ∀ ty, m.Annotates file.settings ty →
          ty.All (IsCovered file.settings classes m.typeParams) :=
        fun _ hty => hleaf _ _ (.function (eq_false_of_ne_true hvalue) hty)
      exact .bind (lowerMethod_allTypes hclasses hm) fun _ hf => .pure hf

/-- A class declares no type variables. -/
theorem lowerLeaf_generics (file : SourceFile) (leaf : Ir.Leaf) :
    Produces (lowerLeaf file leaf) fun output =>
      ∀ c, .classDecl c ∈ output.declarations → c.generics = [] := by
  cases leaf with
  | action a => exact .inDeclaration _ (.bind (.any _) fun _ _ => .pure nofun)
  | member m =>
    have hmember : Produces (lowerMember (.ofFile file) m) fun d => ∀ c, .classDecl c ≠ d :=
      .ite (fun _ => .bind (.any _) fun _ _ => .bind (.any _) fun _ _ => .pure nofun)
        fun _ => .bind (.any _) fun _ _ => .pure nofun
    exact .inDeclaration _ (.bind hmember fun d hd => .pure fun c hc =>
      absurd (List.mem_singleton.1 hc) (hd c))
  | classDecl decl =>
    have hclass : Produces (lowerClass (.ofFile file) decl) fun d =>
        ∀ c, .classDecl c = d → c.generics = [] :=
      .bind (.any _) fun _ _ => .bind (.any _) fun ⟨_, _⟩ _ => .bind (.any _) fun _ _ =>
        .pure fun c hc => by cases hc; rfl
    exact .inDeclaration _ (.bind hclass fun d hd => .pure fun c hc =>
      hd c (List.mem_singleton.1 hc))

/-- What holds of the declarations that each leaf is lowered to holds of all. -/
theorem forall_mem_lowerLeaves {R : Declaration → Prop} {file : SourceFile} {leaves : List Ir.Leaf}
    (h : ∀ leaf ∈ leaves,
      Produces (lowerLeaf file leaf) fun output => ∀ d ∈ output.declarations, R d)
    (s : LowerState) : ∀ d ∈ (lowerLeaves file leaves s).2.1.declarations, R d := by
  induction leaves generalizing s with
  | nil => nofun
  | cons leaf leaves ih =>
    obtain ⟨hleaf, hleaves⟩ := List.forall_mem_cons.1 h
    rw [lowerLeaves]
    rcases hfirst : lowerLeaf file leaf s with ⟨e | output, t⟩
    · nofun
    · intro d hd
      rcases List.mem_append.1 hd with hd | hd
      · exact hleaf s output t hfirst d hd
      · exact ih hleaves t d hd

theorem ClassDecl.IsLowered.generics_eq {c : ClassDecl} (h : c.IsLowered) : c.generics = [] := by
  obtain ⟨file, decl, s, hc⟩ := h
  refine forall_mem_lowerLeaves (R := fun d => ∀ c, d = .classDecl c → c.generics = [])
    (fun leaf _ s output t h d hd c hdc => ?_) s _ hc c rfl
  exact lowerLeaf_generics file leaf s output t h c (hdc ▸ hd)

/-! ## All types are declared -/

/-- If type parameters are mentioned only where the signature of a function around mentions them,
and the classes of lowered code are not applied to types, then all types in lowered declarations are
declared: type variables by a function around, and the arguments of a class by the class. -/
theorem typeVariables_declared {classes : List ClassDecl} (hclasses : ∀ c ∈ classes, c.IsLowered)
    {file : SourceFile} {decl : Ir.Declaration}
    (hdecl : ∀ leaf ∈ decl.leaves, ∀ params ty, leaf.Annotates file.settings params ty →
      ty.All (IsCovered file.settings classes params)) (s : LowerState) :
    ∀ d ∈ declarationsOf file decl s, d.AllTypes (Ty.IsDeclared classes) := by
  have hgenerics : ∀ c ∈ classes, c.generics = [] := fun c hc => (hclasses c hc).generics_eq
  exact forall_mem_lowerLeaves
    (fun leaf hleaf => lowerLeaf_allTypes hgenerics (hdecl leaf hleaf)) s

/-! ## Boxes -/

/-- An identifier of that type. -/
def typedIdent (name : String) (ty : Ir.Ty) : Ir.Ident := ⟨name, ty, false, false, false, none⟩

/-- A file of a project with a record that has one field, of that type. -/
def boxFile (ty : Ir.Ty) : SourceFile :=
  ⟨⟨.default, ⟨[⟨"Box", "Box", .record [⟨"value", ty, false⟩], true⟩], [], [], []⟩, []⟩, "main"⟩

/-- The class of the record. -/
def boxDecl : Ir.Declaration := .classDecl ⟨"Box", "Box", none, [], []⟩

/-- What the class is lowered to, if the field has that type. -/
def loweredBox (ty : Ty) : ClassDecl :=
  ⟨"Box", [], [⟨.own "value" ty, true⟩], some ⟨[.own "value" ty], ["value"], []⟩, []⟩

/-- `keep x = fun y -> Some (try x with e -> x)`, for an `x` of type `T` and a `y` of type `U`. -/
def keep : Ir.Member :=
  let x := typedIdent "x" (.param "T")
  let guarded : Ir.Expr := .tryCatch (.ident x) (some ⟨typedIdent "e" .any, .ident x⟩) none none
  let kept : Ir.Expr := .option (some guarded) (.param "T") none
  ⟨"keep", [x], .lambda (typedIdent "y" (.param "U")) kept none, false, true, false,
    ["x", "y", "e"], none⟩

/-- What the function is lowered to. -/
def loweredKeep : Func :=
  let x : Expr := .ident (.own "x" (.generic "T"))
  let tmp := Ident.own "tmp" (.generic "T")
  let ret : Ty := .nullable (.generic "T")
  ⟨"keep", [.own "x" (.generic "T")],
    [.ret (some (.function [.own "y" (.generic "U")]
      [.declare tmp .var none,
        .tryCatch [.assign (.ident tmp) x]
          (some ⟨.own "e" .dynamic, [.assign (.ident tmp) x]⟩) none,
        .ret (some (.ident tmp))] ret))],
    .function [.generic "U"] ret, ["T", "U"]⟩

/-- The state before any declaration, with no name in use. -/
def startState : LowerState := .start .empty [] []

/-- All type parameters in the function are in its signature. -/
theorem keep_covered (classes : List ClassDecl) {ty : Ir.Ty}
    (h : keep.Annotates (boxFile .string).settings ty) :
    ty.All (IsCovered (boxFile .string).settings classes keep.typeParams) := by
  have hparams : keep.typeParams = ["T", "U", "T"] := rfl
  cases h with
  | param hp =>
    obtain rfl := List.mem_singleton.1 hp
    intro a ha
    obtain rfl := List.mem_singleton.1 ha
    exact List.mem_cons_self
  | body h =>
    have hatoms : (keep.body.subterms.flatMap Ir.Expr.annotations).flatMap Ir.Ty.atoms =
      [.param "U", .param "T", .param "T", .param "T"] := rfl
    refine Ir.Expr.allAtoms_of_subterms (fun d hd => ?_) (fun a ha => ?_) ty h
    · have hsubterms : ∀ d ∈ keep.body.subterms,
          (d.calledInline? (boxFile .string).settings).isNone := by decide
      exact Option.isNone_iff_eq_none.1 (hsubterms d hd)
    · rw [hatoms] at ha
      simp only [List.mem_cons, List.not_mem_nil, or_false] at ha
      rcases ha with rfl | rfl | rfl | rfl <;> simp [IsCovered, hparams]

/-- The temporary for the result of the handler and the closure have the type variables of the
function, which stands next to a class. -/
theorem keep_declared :
    let decl : Ir.Declaration := .module "Boxes" [boxDecl, .member keep]
    let classes := [loweredBox .string]
    (∀ c ∈ classes, c.IsLowered) ∧
    (∀ leaf ∈ decl.leaves, ∀ params ty, leaf.Annotates (boxFile .string).settings params ty →
      ty.All (IsCovered (boxFile .string).settings classes params)) ∧
    declarationsOf (boxFile .string) decl startState =
      [.classDecl (loweredBox .string), .function loweredKeep] ∧
    ∀ d ∈ declarationsOf (boxFile .string) decl startState,
      d.AllTypes (Ty.IsDeclared classes) := by
  intro decl classes
  have hclasses : ∀ c ∈ classes, c.IsLowered := by
    intro c hc
    obtain rfl := List.mem_singleton.1 hc
    exact ⟨boxFile .string, boxDecl, startState, List.mem_singleton.2 rfl⟩
  have hdecl : ∀ leaf ∈ decl.leaves, ∀ params ty,
      leaf.Annotates (boxFile .string).settings params ty →
        ty.All (IsCovered (boxFile .string).settings classes params) := by
    intro leaf hleaf params ty hty
    rcases List.mem_cons.1 hleaf with rfl | hleaf
    · cases hty with
      | field hentity hkind hf =>
        obtain rfl := Option.some.inj hentity
        cases hkind
        obtain rfl := List.mem_singleton.1 hf
        nofun
      | constructor hentity hkind =>
        obtain rfl := Option.some.inj hentity
        nomatch hkind
      | method hm => nomatch hm
    · obtain rfl := List.mem_singleton.1 hleaf
      cases hty with
      | value hm => nomatch hm
      | function _ h => exact keep_covered classes h
  exact ⟨hclasses, hdecl, rfl, typeVariables_declared hclasses hdecl startState⟩

/-- The class of a record with a field of type `T` does not declare `T`. -/
theorem genericField_undeclared :
    declarationsOf (boxFile (.param "T")) boxDecl startState =
      [.classDecl (loweredBox (.generic "T"))] ∧
    ¬ ∀ d ∈ declarationsOf (boxFile (.param "T")) boxDecl startState,
      d.AllTypes (Ty.IsDeclared [loweredBox (.generic "T")]) := by
  have hlowered : declarationsOf (boxFile (.param "T")) boxDecl startState =
      [.classDecl (loweredBox (.generic "T"))] := rfl
  refine ⟨hlowered, fun hall => ?_⟩
  have hbox : Declaration.AllTypes (Ty.IsDeclared [loweredBox (.generic "T")])
      (.classDecl (loweredBox (.generic "T"))) := hall _ (hlowered ▸ List.mem_singleton_self _)
  have hdeclared : "T" ∈ (loweredBox (.generic "T")).generics :=
    hbox.fields _ List.mem_cons_self _ List.mem_cons_self
  nomatch hdeclared

end Dart

end TypedLowering
