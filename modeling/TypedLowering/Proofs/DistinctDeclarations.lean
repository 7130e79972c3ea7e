import TypedLowering.Proofs.Dart.Blocks
import TypedLowering.Proofs.ImportShadowing
import TypedLowering.Proofs.JavaScript.Blocks

/-!
# Blocks declare no name twice

Lowering moves bindings out of expressions and into the block around them, and adds variables of its
own. If the binders of each declaration are distinct, then the names in each block are distinct
(`blocks_nodup`). Nothing keeps apart what several actions declare: all of them stand in one block
(`actions_declareTwice`).
-/

namespace TypedLowering

open Ir (Leaf)
open Ir.Expr (int)

/-- Whether a declaration of a file that uses the names `roots` gives each of its variables a name
of its own, and declares its own name as one of the file. -/
structure Ir.Leaf.BindsApart (load : String → List String) (roots : List String) (leaf : Leaf) :
    Prop where
  rooted : ∀ x ∈ leaf.declared, x ∈ roots
  bodies : ∀ e ∈ leaf.bodies, e.Closed
  distinct : (leaf.binders load).Nodup
  binders : ∀ x ∈ leaf.binders load, x ∈ leaf.used ∧ x ∉ roots

instance (load : String → List String) (roots : List String) (leaf : Leaf) :
    Decidable (leaf.BindsApart load roots) :=
  decidable_of_iff
    ((∀ x ∈ leaf.declared, x ∈ roots) ∧ (∀ e ∈ leaf.bodies, e.Closed) ∧
      (leaf.binders load).Nodup ∧ ∀ x ∈ leaf.binders load, x ∈ leaf.used ∧ x ∉ roots)
    ⟨fun h => ⟨h.1, h.2.1, h.2.2.1, h.2.2.2⟩, fun h => ⟨h.rooted, h.bodies, h.distinct, h.binders⟩⟩

/-- Whether the declarations of a file do. `load` tells what an expansion of an inline function
brings with it, which counts for the declaration that has the call. -/
structure BindsApart (load : String → List String) (settings : Settings) (content : Ir.File) :
    Prop where
  inlines : ∀ i ∈ settings.project.inlines,
    (i.2.body.binders load).Subperm (load i.1) ∧ i.2.body.Closed
  declared : ((Ir.Declaration.leavesList content.declarations).flatMap Leaf.declared).Nodup
  leaves : ∀ leaf ∈ Ir.Declaration.leavesList content.declarations,
    leaf.BindsApart load content.used

instance (load : String → List String) (settings : Settings) (content : Ir.File) :
    Decidable (BindsApart load settings content) :=
  decidable_of_iff
    ((∀ i ∈ settings.project.inlines,
        (i.2.body.binders load).Subperm (load i.1) ∧ i.2.body.Closed) ∧
      ((Ir.Declaration.leavesList content.declarations).flatMap Leaf.declared).Nodup ∧
      ∀ leaf ∈ Ir.Declaration.leavesList content.declarations, leaf.BindsApart load content.used)
    ⟨fun h => ⟨h.1, h.2.1, h.2.2⟩, fun h => ⟨h.inlines, h.declared, h.leaves⟩⟩

variable {load : String → List String} {file : SourceFile} {content : Ir.File}

theorem BindsApart.bounded (h : BindsApart load file.settings content) (x : String) :
    Bounded load x file [] :=
  ⟨fun i hi => ⟨(h.inlines i hi).1.count_le x, (h.inlines i hi).2⟩, nofun⟩

namespace JavaScript

/-- What the statements of declarations declare: what each of these does for its file, and variables
of actions. -/
theorem lowerLeaves_declaresAtMost (h : BindsApart load file.settings content)
    {leaves : List Leaf} {s t : LowerState} {stmts : List Stmt} {x : String}
    (hsub : leaves ⊆ Ir.Declaration.leavesList content.declarations)
    (hroots : x ∈ content.used → x ∈ s.names.root)
    (hstmts : lowerLeaves file leaves s = (.ok (), stmts, t)) :
    DeclaresAtMost x ((leaves.flatMap Leaf.declared).count x +
      if x ∈ content.used then 0 else leaves.countP Leaf.isAction) stmts := by
  induction leaves generalizing s stmts with
  | nil =>
    obtain ⟨-, rfl, -⟩ := hstmts
    exact .nil
  | cons leaf leaves ih =>
    obtain ⟨first, u, rest, hleaf, hleaves, rfl⟩ := lowerLeaves_cons_eq_ok hstmts
    obtain ⟨hmem, hsub⟩ := List.cons_subset.1 hsub
    have hapart := h.leaves leaf hmem
    have hfirst := lowerLeaf_declaresAtMost hleaf (h.bounded x) hroots hapart.bodies
      (List.nodup_iff_count_le_one.1 hapart.distinct x) (hapart.binders x)
    have hrest := ih hsub (fun hx => (lowerLeaf_inScope hleaf).keeps.1 x (hroots hx)) hleaves
    refine (hfirst.append hrest).mono ?_
    rw [List.flatMap_cons, List.count_append, List.countP_cons]
    cases leaf.isAction <;> split <;> simp <;> omega

theorem lowerFile_nodup (h : BindsApart load file.settings content) {journal journal' : Journal}
    {program : Program} (hprogram : lowerFile file content journal = (.ok program, journal')) :
    (∀ names ∈ innerBlocks program.body, names.Nodup) ∧
      ((Ir.Declaration.leavesList content.declarations).countP Leaf.isAction ≤ 1 →
        (introduced program.body).Nodup) := by
  obtain ⟨body, t, hleaves, rfl⟩ := lowerFile_eq_ok hprogram
  have hdeclares := fun x => lowerLeaves_declaresAtMost h (x := x) (List.Subset.refl _)
    (fun hx => Scopes.mem_union.2 (.inr hx)) hleaves
  refine ⟨fun names hnames => ?_, fun hone => ?_⟩
  · exact List.nodup_iff_count_le_one.2 fun x => (hdeclares x).inner names hnames
  · refine List.nodup_iff_count_le_one.2 fun x => (hdeclares x).count.trans ?_
    split
    · exact List.nodup_iff_count_le_one.1 h.declared x
    · rename_i hx
      have hzero : ((Ir.Declaration.leavesList content.declarations).flatMap
          Leaf.declared).count x = 0 := List.count_eq_zero_of_not_mem fun hmem => by
        obtain ⟨leaf, hleaf, hmem⟩ := List.mem_flatMap.1 hmem
        exact hx ((h.leaves leaf hleaf).rooted x hmem)
      omega

end JavaScript

namespace Dart

/-- What declarations are lowered to: what each of these declares for its file, and statements that
declare a variable no more often than there are actions. -/
theorem lowerLeaves_declaresAtMost (h : BindsApart load file.settings content)
    {leaves : List Leaf} {s t : LowerState} {output : Output}
    (hsub : leaves ⊆ Ir.Declaration.leavesList content.declarations)
    (houtput : lowerLeaves file leaves s = (.ok (), output, t)) :
    output.declarations.map (·.name) = leaves.flatMap Leaf.declared ∧
      ∀ x, Once x (output.declarations.flatMap Declaration.blocks) ∧
        DeclaresAtMost x (leaves.countP Leaf.isAction) output.actions := by
  induction leaves generalizing s output with
  | nil =>
    obtain ⟨-, rfl, -⟩ := houtput
    exact ⟨rfl, fun x => ⟨.nil, .nil⟩⟩
  | cons leaf leaves ih =>
    obtain ⟨first, u, rest, hleaf, hleaves, rfl⟩ := lowerLeaves_cons_eq_ok houtput
    obtain ⟨hmem, hsub⟩ := List.cons_subset.1 hsub
    have hapart := h.leaves leaf hmem
    have hfirst : ∀ x, first.DeclaresAtMost x leaf := fun x =>
      lowerLeaf_declaresAtMost hleaf (h.bounded x) hapart.bodies
        (List.nodup_iff_count_le_one.1 hapart.distinct x) fun hx => (hapart.binders x hx).1
    obtain ⟨hnames, hrest⟩ := ih hsub hleaves
    refine ⟨?_, fun x => ⟨?_, ?_⟩⟩
    · rw [Output.append, List.map_append, (hfirst "").names, hnames, List.flatMap_cons]
    · rw [Output.append, List.flatMap_append]
      exact Once.append_iff.2 ⟨(hfirst x).blocks, (hrest x).1⟩
    · refine ((hfirst x).actions.append (hrest x).2).mono ?_
      rw [List.countP_cons]
      cases leaf.isAction <;> simp
      all_goals omega

/-- The function that runs the actions, if there are any, has a name that is new to the library. -/
theorem mainFunction_cases {actions : List Stmt} {s t : LowerState} {more : List Declaration}
    (h : mainFunction actions s = (.ok more, t)) : more = [] ∨
      ∃ name, name ∉ s.names.root ∧ more = [.function ⟨name, [], actions, .void, []⟩] := by
  rw [mainFunction] at h
  split at h
  · exact .inl (Lower.pure_eq_ok.1 h).1.symm
  · obtain ⟨hmore, -⟩ := Prod.mk.inj h
    have hnew := s.names.allocateRoot_not_isTaken "main"
    exact .inr ⟨_, fun hroot => hnew (.inl hroot), (Except.ok.inj hmore).symm⟩

theorem lowerFile_nodup (h : BindsApart load file.settings content) {journal journal' : Journal}
    {library : File} (hlibrary : lowerFile file content journal = (.ok library, journal')) :
    (library.declarations.map (·.name)).Nodup ∧
      (∀ d ∈ library.declarations, d.name ∈ content.used ∨
        (Ir.Declaration.leavesList content.declarations).countP Leaf.isAction ≤ 1 →
          ∀ names ∈ d.blocks, names.Nodup) ∧
      ∀ func, .function func ∈ library.declarations →
        ∀ names ∈ innerBlocks func.body, names.Nodup := by
  obtain ⟨output, t, more, u, hleaves, hmain, rfl⟩ := lowerFile_eq_ok hlibrary
  obtain ⟨hnames, hdeclares⟩ := lowerLeaves_declaresAtMost h (List.Subset.refl _) hleaves
  have hblocks : ∀ d ∈ output.declarations, ∀ names ∈ d.blocks, names.Nodup :=
    fun d hd names hmem => List.nodup_iff_count_le_one.2 fun x =>
      (hdeclares x).1 names (List.mem_flatMap.2 ⟨d, hd, hmem⟩)
  have hinner : ∀ func, .function func ∈ output.declarations →
      ∀ names ∈ innerBlocks func.body, names.Nodup := by
    rintro ⟨_, _, body, _, _⟩ hfunc names hmem
    exact hblocks _ hfunc names (List.mem_cons_of_mem (introduced body) hmem)
  rcases mainFunction_cases hmain with rfl | ⟨name, hname, rfl⟩
  · simp only [List.append_nil]
    exact ⟨hnames ▸ h.declared, fun d hd _ => hblocks d hd, hinner⟩
  · have hnew : name ∉ content.used := fun hused => hname
      (((lowerLeaves_inTurn hleaves).passes fun _ _ _ _ => lowerLeaf_inScope).root name
        (Scopes.mem_union.2 (.inr hused)))
    refine ⟨?_, fun d hd hone => ?_, fun func hfunc => ?_⟩
    · rw [List.map_append, hnames]
      refine List.nodup_append.2 ⟨h.declared, List.nodup_singleton _, fun x hx y hy heq => ?_⟩
      obtain ⟨leaf, hleaf, hmem⟩ := List.mem_flatMap.1 hx
      obtain rfl : x = name := heq.trans (List.mem_singleton.1 hy)
      exact hnew ((h.leaves leaf hleaf).rooted x hmem)
    · rcases List.mem_append.1 hd with hd | hd
      · exact hblocks d hd
      · obtain rfl := List.mem_singleton.1 hd
        have hone := hone.resolve_left hnew
        exact fun names hmem => List.nodup_iff_count_le_one.2 fun x =>
          ((hdeclares x).2.once hone) names hmem
    · rcases List.mem_append.1 hfunc with hfunc | hfunc
      · exact hinner func hfunc
      · cases List.mem_singleton.1 hfunc
        exact fun names hmem => List.nodup_iff_count_le_one.2 fun x =>
          (hdeclares x).2.inner names hmem

end Dart

/-- Where the names that each declaration binds are distinct and new to the file, no block declares
a name twice, in JavaScript and in Dart. The block that the actions of a file have in common is such
a block if there is one action at most. -/
theorem blocks_nodup (load : String → List String) (file : SourceFile) (content : Ir.File)
    (journal journal' : Journal) (h : BindsApart load file.settings content) :
    (∀ program, JavaScript.lowerFile file content journal = (.ok program, journal') →
      (∀ names ∈ JavaScript.innerBlocks program.body, names.Nodup) ∧
      ((Ir.Declaration.leavesList content.declarations).countP Leaf.isAction ≤ 1 →
        (JavaScript.introduced program.body).Nodup)) ∧
    ∀ library, Dart.lowerFile file content journal = (.ok library, journal') →
      (library.declarations.map (·.name)).Nodup ∧
      (∀ d ∈ library.declarations, d.name ∈ content.used ∨
        (Ir.Declaration.leavesList content.declarations).countP Leaf.isAction ≤ 1 →
          ∀ names ∈ d.blocks, names.Nodup) ∧
      ∀ func, .function func ∈ library.declarations →
        ∀ names ∈ Dart.innerBlocks func.body, names.Nodup :=
  ⟨fun _ => JavaScript.lowerFile_nodup h, fun _ => Dart.lowerFile_nodup h⟩

/-- The function `g a = a`. -/
def identityMember : Ir.Member :=
  let a : Ir.Ident := ⟨"a", .any, false, false, false, none⟩
  ⟨"g", [a], .ident a, false, false, false, ["g", "a"], none⟩

/-- `g e`. -/
def callG (e : Ir.Expr) (ty : Ir.Ty) : Ir.Expr :=
  .call (.ident ⟨"g", .any, false, false, false, none⟩) none [e] false ty none

/-- `for i = 0 to g n do g i`. -/
def countTo (n : Nat) : Ir.Action :=
  ⟨.forLoop (int "i") (.literal (.number (.ofNat 0) .int32) none)
    (callG (.literal (.number (.ofNat n) .int32) none) (.number .int32))
    (callG (.ident (int "i")) .unit) true none, ["g", "i"]⟩

/-- A file with loops up to these bounds. -/
def counting (bounds : List Nat) : Ir.File :=
  ⟨.member identityMember :: bounds.map fun n => .action (countTo n), ["g"]⟩

/-- A file with one loop is lowered, and no block declares a name twice. -/
theorem counting_blocks_nodup : ∃ program library journal',
    JavaScript.lowerFile bareFile (counting [3]) .empty = (.ok program, journal') ∧
      JavaScript.introduced program.body = ["g", "limit"] ∧
      Dart.lowerFile bareFile (counting [3]) .empty = (.ok library, journal') ∧
      (JavaScript.introduced program.body).Nodup ∧ (library.declarations.map (·.name)).Nodup := by
  have hlower : ∃ program library journal',
      JavaScript.lowerFile bareFile (counting [3]) .empty = (.ok program, journal') ∧
        JavaScript.introduced program.body = ["g", "limit"] ∧
        Dart.lowerFile bareFile (counting [3]) .empty = (.ok library, journal') :=
    ⟨_, _, _, rfl, rfl, rfl⟩
  obtain ⟨program, library, journal', hprogram, hnames, hlibrary⟩ := hlower
  obtain ⟨hjs, hdart⟩ := blocks_nodup (fun _ => []) bareFile (counting [3]) .empty journal'
    (by decide)
  exact ⟨program, library, journal', hprogram, hnames, hlibrary,
    (hjs program hprogram).2 (by decide), (hdart library hlibrary).1⟩

/-- Two loops of a file get the same name for their bounds. -/
theorem actions_declareTwice :
    (∃ program journal',
      JavaScript.lowerFile bareFile (counting [3, 4]) .empty = (.ok program, journal') ∧
        JavaScript.introduced program.body = ["g", "limit", "limit"]) ∧
    ¬ ∀ load file content journal journal' program, BindsApart load file.settings content →
      JavaScript.lowerFile file content journal = (.ok program, journal') →
        ∀ names ∈ program.blocks, names.Nodup := by
  have hnames : (JavaScript.lowerFile bareFile (counting [3, 4]) .empty).1.toOption.map
      (fun program => JavaScript.introduced program.body) = some ["g", "limit", "limit"] := by
    decide +kernel
  rcases hlower : JavaScript.lowerFile bareFile (counting [3, 4]) .empty with
    ⟨_ | program, journal'⟩
  · rw [hlower] at hnames
    cases hnames
  · rw [hlower] at hnames
    have hnames : JavaScript.introduced program.body = ["g", "limit", "limit"] :=
      Option.some.inj hnames
    refine ⟨⟨program, journal', rfl, hnames⟩, fun hnodup => ?_⟩
    have htop : (JavaScript.introduced program.body).Nodup :=
      hnodup (fun _ => []) bareFile (counting [3, 4]) .empty journal' program (by decide) hlower _
        List.mem_cons_self
    rw [hnames] at htop
    exact absurd htop (by decide)

end TypedLowering
