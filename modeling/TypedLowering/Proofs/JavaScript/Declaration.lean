import TypedLowering.Proofs.JavaScript.Depth
import TypedLowering.Proofs.Lowering.Declarations

/-!
# Lowered declarations and files

A declaration is lowered in a scope of its own (`lowerLeaf_inScope`), a file declaration by
declaration (`lowerFile_inTurn`), and its import list has the aliases of the table
(`locals_importDecls`).
-/

namespace TypedLowering.JavaScript

open Lower (Below)

/-! ## Declarations -/

/-- Lowering to an expression only makes requests, and takes no notice of further names in use. -/
theorem below_lowerExpr (ctx : Context) (e : Ir.Expr) : Below (lowerExpr ctx e) (lowerExpr ctx e) :=
  (rules_deepens (Nat.le_refl _)).expr _ _

/-- Lowering to statements only makes requests, and takes no notice of further names in use. -/
theorem below_lowerStmts (ctx : Context) (strategy : Strategy Expr) (e : Ir.Expr) :
    Below (lowerStmts ctx strategy e) (lowerStmts ctx strategy e) :=
  (rules_deepens (Nat.le_refl _)).stmts _ _ _

/-- Lowering a function only makes requests, and takes no notice of further names in use. -/
theorem below_lowerFunction (ctx : Context) (name : Option String) (params : List Ir.Ident)
    (body : Ir.Expr) : Below (lowerFunction ctx name params body)
      (lowerFunction ctx name params body) :=
  (rules_deepens (Nat.le_refl _)).function _ _ _ _

/-- Lowering a constructor only makes requests, and takes no notice of further names in use. -/
theorem below_lowerConstructor (ctx : Context) (entity : Entity) (constructor : Option Ir.Member) :
    Below (lowerConstructor ctx entity constructor) (lowerConstructor ctx entity constructor) := by
  unfold lowerConstructor
  split
  · exact .pure _
  · exact .pure _
  · cases constructor with
    | none => exact .pure _
    | some m => exact .bind (below_lowerFunction _ _ _ _) fun _ => .pure _

/-- Lowering methods only makes requests, and takes no notice of further names in use. -/
theorem below_lowerMethods (ctx : Context) (ms : List Ir.Member) :
    Below (lowerMethods ctx ms) (lowerMethods ctx ms) := by
  induction ms with
  | nil => exact .pure _
  | cons m ms ih =>
    exact .bind (below_lowerFunction _ _ _ _) fun _ => .bind ih fun _ => .pure _

/-- Lowering a class only makes requests, and takes no notice of further names in use. -/
theorem below_lowerClass (ctx : Context) (decl : Ir.ClassDecl) :
    Below (lowerClass ctx decl) (lowerClass ctx decl) :=
  .bind (.ofOption _ _) fun _ => .bind (below_lowerConstructor _ _ _) fun _ =>
    .bind (below_lowerMethods _ _) fun _ => .pure _

/-- Lowering a member only makes requests, and takes no notice of further names in use. -/
theorem below_lowerMember (ctx : Context) (m : Ir.Member) :
    Below (lowerMember ctx m) (lowerMember ctx m) :=
  .ite (.bind (below_lowerExpr _ _) fun _ => .pure _)
    (.bind (below_lowerFunction _ _ _ _) fun _ => .pure _)

/-- A declaration is lowered in a scope of its own, which holds the names it uses. -/
theorem lowerLeaf_inScope {file : SourceFile} {leaf : Ir.Leaf} {s t : LowerState}
    {stmts : List Stmt} (h : lowerLeaf file leaf s = (.ok stmts, t)) : InScope leaf.used s t := by
  cases leaf with
  | action a => exact (below_lowerStmts _ _ _).inScope h
  | member m => exact (Below.bind (below_lowerMember _ _) fun _ => .pure _).inScope h
  | classDecl c => exact (Below.bind (below_lowerClass _ _) fun _ => .pure _).inScope h

/-! ## Files -/

/-- What it takes to lower a declaration and those after it. -/
theorem lowerLeaves_cons_eq_ok {file : SourceFile} {leaf : Ir.Leaf} {leaves : List Ir.Leaf}
    {s t : LowerState} {stmts : List Stmt}
    (h : lowerLeaves file (leaf :: leaves) s = (.ok (), stmts, t)) :
    ∃ first u more, lowerLeaf file leaf s = (.ok first, u) ∧
      lowerLeaves file leaves u = (.ok (), more, t) ∧ stmts = first ++ more := by
  rw [lowerLeaves] at h
  rcases hleaf : lowerLeaf file leaf s with ⟨e | first, u⟩
  · rw [hleaf] at h
    cases h
  · rw [hleaf] at h
    rcases hrest : lowerLeaves file leaves u with ⟨r, more, v⟩
    simp only [hrest, Prod.mk.injEq] at h
    obtain ⟨rfl, rfl, rfl⟩ := h
    exact ⟨first, u, more, rfl, hrest, rfl⟩

/-- Declarations are lowered in turn. -/
theorem lowerLeaves_inTurn {file : SourceFile} {leaves : List Ir.Leaf} {s t : LowerState}
    {stmts : List Stmt} (h : lowerLeaves file leaves s = (.ok (), stmts, t)) :
    InTurn (lowerLeaf file) leaves s t := by
  induction leaves generalizing s stmts with
  | nil =>
    obtain ⟨-, -, rfl⟩ := h
    exact .nil _
  | cons leaf leaves ih =>
    obtain ⟨_, _, _, hleaf, hrest, -⟩ := lowerLeaves_cons_eq_ok h
    exact .cons hleaf (ih hrest)

/-- The statements of a file are those of its declarations in order, and each of these was lowered
between the ones before it and the ones after it. -/
theorem lowerLeaves_forall₂ {file : SourceFile} {leaves : List Ir.Leaf} {s t : LowerState}
    {stmts : List Stmt} (h : lowerLeaves file leaves s = (.ok (), stmts, t)) :
    Passes s t ∧ ∃ codes, stmts = codes.flatten ∧ List.Forall₂ (fun leaf code =>
      ∃ u v, Passes s u ∧ lowerLeaf file leaf u = (.ok code, v) ∧ Passes v t) leaves codes := by
  induction leaves generalizing s stmts with
  | nil =>
    obtain ⟨-, rfl, rfl⟩ := h
    exact ⟨.refl _, [], rfl, .nil⟩
  | cons leaf leaves ih =>
    obtain ⟨first, u, more, hleaf, hrest, rfl⟩ := lowerLeaves_cons_eq_ok h
    obtain ⟨hpasses, codes, rfl, hcodes⟩ := ih hrest
    have hfirst := (lowerLeaf_inScope hleaf).passes
    refine ⟨hfirst.trans hpasses, first :: codes, rfl, .cons ⟨s, u, .refl s, hleaf, hpasses⟩ ?_⟩
    exact hcodes.imp fun _ _ ⟨u', v', hu, hlower, hv⟩ => ⟨u', v', hfirst.trans hu, hlower, hv⟩

/-- A file that is lowered has the statements of its declarations, and imports what they ask for. -/
theorem lowerFile_eq_ok {file : SourceFile} {content : Ir.File} {journal journal' : Journal}
    {program : Program} (h : lowerFile file content journal = (.ok program, journal')) :
    ∃ body t, lowerLeaves file (Ir.Declaration.leavesList content.declarations)
        (.start journal content.used reservedWords) = (.ok (), body, t) ∧
      program = ⟨importDecls t.imports, body⟩ := by
  rw [lowerFile] at h
  rcases hleaves : lowerLeaves file (Ir.Declaration.leavesList content.declarations)
    (.start journal content.used reservedWords) with ⟨_ | _, body, t⟩
  · simp only [hleaves] at h
    cases h
  · simp only [hleaves, Prod.mk.injEq, Except.ok.injEq] at h
    exact ⟨body, t, rfl, h.1.symm⟩

/-- Its declarations are lowered in turn. -/
theorem lowerFile_inTurn {file : SourceFile} {content : Ir.File} {journal journal' : Journal}
    {program : Program} (h : lowerFile file content journal = (.ok program, journal')) :
    ∃ t, InTurn (lowerLeaf file) (Ir.Declaration.leavesList content.declarations)
        (.start journal content.used reservedWords) t ∧
      program.imports = importDecls t.imports := by
  obtain ⟨_, t, hleaves, rfl⟩ := lowerFile_eq_ok h
  exact ⟨t, lowerLeaves_inTurn hleaves, rfl⟩

/-! ## Imports -/

/-- The local names that an import declaration binds. -/
def ImportDecl.locals (d : ImportDecl) : List String :=
  d.default.toList ++ d.whole.toList ++ d.names.map (·.2)

/-- The local names that the imports of a program bind. -/
def Program.importLocals (p : Program) : List String :=
  p.imports.flatMap ImportDecl.locals

/-- An import declaration binds aliases of the table only. -/
theorem mem_aliases_of_mem_locals {m : ModuleImports} {x : String}
    (hx : x ∈ (importDecl m).locals) : x ∈ m.aliases := by
  rcases List.mem_append.1 hx with hx | hx
  · rcases List.mem_append.1 hx with hx | hx
    · obtain ⟨p, hp, rfl⟩ := Option.map_eq_some_iff.1 (Option.mem_toList.1 hx)
      have hmem := (List.mem_filter.1 (List.mem_of_getLast? hp)).1
      exact List.mem_append_right _ (List.mem_map_of_mem hmem)
    · exact List.mem_append_left _ hx
  · obtain ⟨p, hp, rfl⟩ := List.mem_map.1 hx
    exact List.mem_append_right _ (List.mem_map_of_mem (List.mem_filter.1 hp).1)

/-- A name of an import declaration is an alias of the table. -/
theorem mem_aliases_of_mem_importDecls {t : ImportTable} {x : String}
    (hx : x ∈ (importDecls t).flatMap ImportDecl.locals) : x ∈ t.aliases := by
  obtain ⟨d, hd, hx⟩ := List.mem_flatMap.1 hx
  obtain ⟨m, hm, rfl⟩ := List.mem_map.1 hd
  exact List.mem_flatMap.2 ⟨m, hm, mem_aliases_of_mem_locals hx⟩

/-- What the table records is bound by an import declaration. A module has one default export at
most. -/
theorem mem_locals_of_alias? {m : ModuleImports} {asked : List ImportKey} {selector x : String}
    (h : m.Records asked) (hx : m.alias? selector = some x) : x ∈ (importDecl m).locals := by
  rw [ModuleImports.alias?] at hx
  split at hx
  · exact List.mem_append_left _ (List.mem_append_right _ (Option.mem_toList.2 hx))
  · obtain ⟨p, hp, rfl⟩ := Option.map_eq_some_iff.1 hx
    have hmem := List.mem_of_find?_eq_some hp
    by_cases hdefault : p.1 = "default"
    · have hfilter : p ∈ m.members.filter (·.1 == "default") :=
        List.mem_filter.2 ⟨hmem, beq_iff_eq.2 hdefault⟩
      obtain ⟨q, hq⟩ := Option.isSome_iff_exists.1
        (List.getLast?_isSome.2 (List.ne_nil_of_mem hfilter))
      obtain ⟨hqmem, hqdefault⟩ := List.mem_filter.1 (List.mem_of_getLast? hq)
      have hnodup : (m.members.map (·.1)).Nodup := h.members ▸ eraseDups_nodup _
      obtain rfl := List.inj_on_of_nodup_map hnodup hqmem hmem
        ((beq_iff_eq.1 hqdefault).trans hdefault.symm)
      refine List.mem_append_left _ (List.mem_append_left _ (Option.mem_toList.2 ?_))
      exact Option.map_eq_some_iff.2 ⟨q, hq, rfl⟩
    · exact List.mem_append_right _ (List.mem_map_of_mem
        (List.mem_filter.2 ⟨hmem, bne_iff_ne.2 hdefault⟩))

/-- The alias of a key stands in the import declarations. -/
theorem mem_importDecls_of_alias? {t : ImportTable} {asked : List ImportKey} {key : ImportKey}
    {x : String} (h : t.Records asked) (hx : t.alias? key = some x) :
    x ∈ (importDecls t).flatMap ImportDecl.locals := by
  obtain ⟨m, hm, hx⟩ := Option.bind_eq_some_iff.1 hx
  have hmem := List.mem_of_find?_eq_some hm
  exact List.mem_flatMap.2 ⟨_, List.mem_map_of_mem hmem, mem_locals_of_alias? (h.entries m hmem) hx⟩

end TypedLowering.JavaScript
