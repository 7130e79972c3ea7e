import TypedLowering.Proofs.Dart.Declaration
import TypedLowering.Proofs.JavaScript.Declaration
import TypedLowering.Proofs.ReturnDiscipline

/-!
# Which declarations may shadow an import

The alias of an import is chosen when the first declaration asks for it. It is a name that neither
the root scope uses, nor this declaration, nor any before it (`imports_unusedUpToIntroduction`). The
names that later declarations use are not known then, and one of them may use the alias for
something else (`laterDeclaration_shadows`). -/

namespace TypedLowering

/-- The names that imports bind are new to the root scope, to the declaration that asked first, and
to all declarations before that one. -/
theorem imports_unusedUpToIntroduction (file : SourceFile) (content : Ir.File)
    (journal journal' : Journal) :
    (∀ program, JavaScript.lowerFile file content journal = (.ok program, journal') →
      ∃ t, program.imports = JavaScript.importDecls t.imports ∧
        ∀ x ∈ program.importLocals, x ∉ content.used ∧
          Introduced (JavaScript.lowerLeaf file)
            (Ir.Declaration.leavesList content.declarations)
            (.start journal content.used JavaScript.reservedWords) t x) ∧
    ∀ library, Dart.lowerFile file content journal = (.ok library, journal') →
      ∃ t, library.imports = Dart.importDecls t.imports ∧
        ∀ x ∈ library.importLocals, x ∉ content.used ∧
          Introduced (Dart.lowerLeaf file) (Ir.Declaration.leavesList content.declarations)
            (.start journal content.used Dart.reservedWords) t x := by
  refine ⟨fun program h => ?_, fun library h => ?_⟩
  · obtain ⟨t, hturn, himports⟩ := JavaScript.lowerFile_inTurn h
    refine ⟨t, himports, fun x hx => ?_⟩
    rw [JavaScript.Program.importLocals, himports] at hx
    obtain ⟨hroot, -, hintroduced⟩ := hturn.introduced
      (fun _ _ _ _ => JavaScript.lowerLeaf_inScope)
      (JavaScript.mem_aliases_of_mem_importDecls hx) List.not_mem_nil
    exact ⟨fun hused => hroot (Scopes.mem_union.2 (.inr hused)), hintroduced⟩
  · obtain ⟨t, hturn, himports⟩ := Dart.lowerFile_inTurn h
    refine ⟨t, himports, fun x hx => ?_⟩
    rw [Dart.File.importLocals, himports] at hx
    obtain ⟨hroot, -, hintroduced⟩ := hturn.introduced
      (fun _ _ _ _ => Dart.lowerLeaf_inScope)
      (Dart.mem_aliases_of_mem_importDecls hx) List.not_mem_nil
    exact ⟨fun hused => hroot (Scopes.mem_union.2 (.inr hused)), hintroduced⟩

/-- The function `name a b = (a = b)`. -/
def comparison (name a b : String) : Ir.Member where
  name := name
  args := [⟨a, .any, false, false, false, none⟩, ⟨b, .any, false, false, false, none⟩]
  body := .binary .equal (.ident ⟨a, .any, false, false, false, none⟩)
    (.ident ⟨b, .any, false, false, false, none⟩) .boolean none
  isValue := false
  isPublic := true
  isMutable := false
  used := [name, a, b]
  loc := none

/-- A file with two comparisons. The second one calls a parameter `equals`. -/
def comparisons : Ir.File :=
  ⟨[.member (comparison "first" "a" "b"), .member (comparison "second" "equals" "c")],
    ["first", "second"]⟩

/-- The alias `equals` is introduced as a name that the file does not use. -/
theorem comparisons_introduced : ∃ program journal' t,
    JavaScript.lowerFile bareFile comparisons .empty = (.ok program, journal') ∧
      "equals" ∈ program.importLocals ∧ "equals" ∉ comparisons.used ∧
      Introduced (JavaScript.lowerLeaf bareFile)
        (Ir.Declaration.leavesList comparisons.declarations)
        (.start .empty comparisons.used JavaScript.reservedWords) t "equals" := by
  have hlower : ∃ program journal', JavaScript.lowerFile bareFile comparisons .empty =
      (.ok program, journal') ∧ program.importLocals = ["equals"] := ⟨_, _, rfl, rfl⟩
  obtain ⟨program, journal', hlower, hlocals⟩ := hlower
  have hmem : "equals" ∈ program.importLocals := hlocals ▸ List.mem_singleton_self _
  obtain ⟨hjs, -⟩ := imports_unusedUpToIntroduction bareFile comparisons .empty journal'
  obtain ⟨t, -, hintroduced⟩ := hjs program hlower
  exact ⟨program, journal', t, hlower, hmem, hintroduced "equals" hmem⟩

/-- The function `name(a, b)` that calls the helper. -/
def comparisonCode (name a b : String) : JavaScript.Stmt :=
  .of (.exported (.of (.function (.named name [⟨a, false⟩, ⟨b, false⟩]
    [.of (.ret (some (.call (.ident "equals") [.ident a, .ident b])))]))))

/-- In the second function the name of the helper is the parameter. -/
theorem laterDeclaration_shadows :
    (∃ program journal', JavaScript.lowerFile bareFile comparisons .empty =
        (.ok program, journal') ∧ program.importLocals = ["equals"] ∧
      program.body = [comparisonCode "first" "a" "b", comparisonCode "second" "equals" "c"]) ∧
    ¬ ∀ program journal', JavaScript.lowerFile bareFile comparisons .empty =
        (.ok program, journal') → ∀ x ∈ program.importLocals,
      ∀ leaf ∈ Ir.Declaration.leavesList comparisons.declarations, x ∉ leaf.used := by
  have hlower : ∃ program journal', JavaScript.lowerFile bareFile comparisons .empty =
      (.ok program, journal') ∧ program.importLocals = ["equals"] ∧
      program.body = [comparisonCode "first" "a" "b", comparisonCode "second" "equals" "c"] :=
    ⟨_, _, rfl, rfl, rfl⟩
  refine ⟨hlower, fun hunused => ?_⟩
  obtain ⟨program, journal', hlower, hlocals, -⟩ := hlower
  refine hunused program journal' hlower "equals" (hlocals ▸ List.mem_singleton_self _)
    (.member (comparison "second" "equals" "c")) ?_ ?_
  · exact List.mem_cons_of_mem _ List.mem_cons_self
  · exact List.mem_cons_of_mem _ List.mem_cons_self

end TypedLowering
