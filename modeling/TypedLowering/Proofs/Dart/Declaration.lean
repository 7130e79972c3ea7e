import TypedLowering.Proofs.Dart.Depth
import TypedLowering.Proofs.Lowering.Declarations

/-!
# Lowered declarations and files

A declaration is lowered in a scope of its own (`lowerLeaf_inScope`), a file declaration by
declaration (`lowerFile_inTurn`). The function that runs the actions of the file only takes one more
root name.
-/

namespace TypedLowering.Dart

open Lower (Below)

/-! ## Declarations -/

/-- Lowering to an expression only makes requests, and takes no notice of further names in use. -/
theorem below_captureExpr (ctx : Context) (e : Ir.Expr) :
    Below (captureExpr ctx e) (captureExpr ctx e) :=
  (rules_deepens (Nat.le_refl _)).expr _ _ _

/-- Lowering to statements only makes requests, and takes no notice of further names in use. -/
theorem below_lowerStmts (ctx : Context) (strategy : Strategy Expr) (e : Ir.Expr) :
    Below (lowerStmts ctx strategy e) (lowerStmts ctx strategy e) :=
  (rules_deepens (Nat.le_refl _)).stmts _ _ _

/-- Lowering a function only makes requests, and takes no notice of further names in use. -/
theorem below_lowerFunction (ctx : Context) (name : Option String) (params : List Ir.Ident)
    (body : Ir.Expr) : Below (lowerFunction ctx name params body)
      (lowerFunction ctx name params body) :=
  (rules_deepens (Nat.le_refl _)).function _ _ _ _

/-- Lowering a method only makes requests, and takes no notice of further names in use. -/
theorem below_lowerMethod (ctx : Context) (m : Ir.Member) :
    Below (lowerMethod ctx m) (lowerMethod ctx m) :=
  .bind (below_lowerFunction _ _ _ _) fun _ => .pure _

/-- Lowering methods only makes requests, and takes no notice of further names in use. -/
theorem below_lowerMethods (ctx : Context) (ms : List Ir.Member) :
    Below (lowerMethods ctx ms) (lowerMethods ctx ms) := by
  induction ms with
  | nil => exact .pure _
  | cons m ms ih => exact .bind (below_lowerMethod _ _) fun _ => .bind ih fun _ => .pure _

/-- Lowering a member only makes requests, and takes no notice of further names in use. -/
theorem below_lowerMember (ctx : Context) (m : Ir.Member) :
    Below (lowerMember ctx m) (lowerMember ctx m) :=
  .ite (.bind (below_lowerType _ _) fun _ => .bind (below_captureExpr _ _) fun _ => .pure _)
    (.bind (below_lowerMethod _ _) fun _ => .pure _)

/-- Lowering fields only makes requests, and takes no notice of further names in use. -/
theorem below_lowerFields (file : SourceFile) (fields : List Field) :
    Below (lowerFields file fields) (lowerFields file fields) := by
  induction fields with
  | nil => exact .pure _
  | cons f fields ih => exact .bind (below_lowerType _ _) fun _ => .bind ih fun _ => .pure _

/-- Lowering the fields and the constructor of a class only makes requests, and takes no notice of
further names in use. -/
theorem below_lowerShape (ctx : Context) (entity : Entity) (constructor : Option Ir.Member) :
    Below (lowerShape ctx entity constructor) (lowerShape ctx entity constructor) := by
  unfold lowerShape
  split
  · exact .bind (below_lowerFields _ _) fun _ => .pure _
  · exact .pure _
  · cases constructor with
    | none => exact .pure _
    | some m => exact .bind (below_lowerFunction _ _ _ _) fun _ => .pure _

/-- Lowering a class only makes requests, and takes no notice of further names in use. -/
theorem below_lowerClass (ctx : Context) (decl : Ir.ClassDecl) :
    Below (lowerClass ctx decl) (lowerClass ctx decl) :=
  .bind (.ofOption _ _) fun _ => .bind (below_lowerShape _ _ _) fun _ =>
    .bind (below_lowerMethods _ _) fun _ => .pure _

/-- A declaration is lowered in a scope of its own, which holds the names it uses. -/
theorem lowerLeaf_inScope {file : SourceFile} {leaf : Ir.Leaf} {s t : LowerState}
    {output : Output} (h : lowerLeaf file leaf s = (.ok output, t)) : InScope leaf.used s t := by
  cases leaf with
  | action a => exact (Below.bind (below_lowerStmts _ _ _) fun _ => .pure _).inScope h
  | member m => exact (Below.bind (below_lowerMember _ _) fun _ => .pure _).inScope h
  | classDecl c => exact (Below.bind (below_lowerClass _ _) fun _ => .pure _).inScope h

/-! ## Files -/

/-- What it takes to lower a declaration and those after it. -/
theorem lowerLeaves_cons_eq_ok {file : SourceFile} {leaf : Ir.Leaf} {leaves : List Ir.Leaf}
    {s t : LowerState} {output : Output}
    (h : lowerLeaves file (leaf :: leaves) s = (.ok (), output, t)) :
    ∃ first u more, lowerLeaf file leaf s = (.ok first, u) ∧
      lowerLeaves file leaves u = (.ok (), more, t) ∧ output = first.append more := by
  rw [lowerLeaves] at h
  rcases hleaf : lowerLeaf file leaf s with ⟨e | first, u⟩
  · rw [hleaf] at h
    nomatch h
  · rw [hleaf] at h
    rcases hrest : lowerLeaves file leaves u with ⟨r, more, v⟩
    simp only [hrest, Prod.mk.injEq] at h
    obtain ⟨rfl, rfl, rfl⟩ := h
    exact ⟨first, u, more, rfl, hrest, rfl⟩

/-- Declarations are lowered in turn. -/
theorem lowerLeaves_inTurn {file : SourceFile} {leaves : List Ir.Leaf} {s t : LowerState}
    {output : Output} (h : lowerLeaves file leaves s = (.ok (), output, t)) :
    InTurn (lowerLeaf file) leaves s t := by
  induction leaves generalizing s output with
  | nil =>
    obtain ⟨-, -, rfl⟩ := h
    exact .nil _
  | cons leaf leaves ih =>
    obtain ⟨_, _, _, hleaf, hrest, -⟩ := lowerLeaves_cons_eq_ok h
    exact .cons hleaf (ih hrest)

/-- The function that runs the actions imports nothing. -/
theorem mainFunction_imports {actions : List Stmt} {s t : LowerState} {more : List Declaration}
    (h : mainFunction actions s = (.ok more, t)) : t.imports = s.imports := by
  rw [mainFunction] at h
  split at h
  · obtain ⟨-, rfl⟩ := Lower.pure_eq_ok.1 h
    rfl
  · obtain ⟨-, rfl⟩ := Prod.mk.inj h
    rfl

/-- A library has what the declarations of the file are lowered to, and then the function that runs
the actions. -/
theorem lowerFile_eq_ok {file : SourceFile} {content : Ir.File} {journal journal' : Journal}
    {library : File} (h : lowerFile file content journal = (.ok library, journal')) :
    ∃ output t more u, lowerLeaves file (Ir.Declaration.leavesList content.declarations)
        (.start journal content.used reservedWords) = (.ok (), output, t) ∧
      mainFunction output.actions t = (.ok more, u) ∧
      library = ⟨importDecls u.imports, output.declarations ++ more⟩ := by
  rw [lowerFile] at h
  rcases hleaves : lowerLeaves file (Ir.Declaration.leavesList content.declarations)
    (.start journal content.used reservedWords) with ⟨_ | _, output, t⟩
  · simp only [hleaves] at h
    nomatch h
  · rcases hmain : mainFunction output.actions t with ⟨_ | more, u⟩
    · simp only [hleaves, hmain] at h
      nomatch h
    · simp only [hleaves, hmain, Prod.mk.injEq, Except.ok.injEq] at h
      exact ⟨output, t, more, u, rfl, hmain, h.1.symm⟩

/-- Its declarations are lowered in turn, and it imports what they ask for. -/
theorem lowerFile_inTurn {file : SourceFile} {content : Ir.File} {journal journal' : Journal}
    {library : File} (h : lowerFile file content journal = (.ok library, journal')) :
    ∃ t, InTurn (lowerLeaf file) (Ir.Declaration.leavesList content.declarations)
        (.start journal content.used reservedWords) t ∧
      library.imports = importDecls t.imports := by
  obtain ⟨_, t, _, _, hleaves, hmain, rfl⟩ := lowerFile_eq_ok h
  exact ⟨t, lowerLeaves_inTurn hleaves, by rw [mainFunction_imports hmain]⟩

/-! ## Imports -/

/-- The prefixes that the imports of a library bind. -/
def File.importLocals (library : File) : List String :=
  library.imports.filterMap (·.importPrefix)

/-- A prefix of an import declaration is an alias of the table. -/
theorem mem_aliases_of_mem_importDecls {t : ImportTable} {x : String}
    (hx : x ∈ (importDecls t).filterMap (·.importPrefix)) : x ∈ t.aliases := by
  obtain ⟨d, hd, hx⟩ := List.mem_filterMap.1 hx
  obtain ⟨m, hm, rfl⟩ := List.mem_map.1 hd
  refine List.mem_flatMap.2 ⟨m, hm, List.mem_append_left _ ?_⟩
  exact Option.mem_toList.2 hx

end TypedLowering.Dart
