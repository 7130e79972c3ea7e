import TypedLowering.Proofs.JavaScript.Success
import TypedLowering.Proofs.ReturnDiscipline

/-!
# Well-formed input is lowered to JavaScript

Without inline functions every well-formed expression is lowered, in any context and for any
strategy, and so is every file of well-formed declarations (`wellFormed_lowers`): no failure is in
reach, and no path through the targets of decision trees is too long.
-/

namespace TypedLowering

/-- Well-formed expressions and files are lowered. -/
theorem wellFormed_lowers (file : SourceFile) (hinlines : file.settings.project.inlines = []) :
    (∀ (ctx : Context) (e : Ir.Expr), ctx.file = file → e.WellFormed file.settings .top →
      (∀ prefer, ∃ b, isStatement ctx prefer e = .ok b) ∧
      (∀ s, ∃ code t, JavaScript.lowerExpr ctx e s = (.ok code, t)) ∧
      ∀ strategy s, ∃ code t, JavaScript.lowerStmts ctx strategy e s = (.ok code, t)) ∧
    ∀ (content : Ir.File) (journal : Journal),
      (∀ leaf ∈ Ir.Declaration.leavesList content.declarations, leaf.WellFormed file.settings) →
      ∃ program journal', JavaScript.lowerFile file content journal =
        (.ok program, journal') := by
  refine ⟨?_, fun content journal hcontent => ?_⟩
  · rintro ctx e rfl he
    have hready := Ready.of_wellFormed hinlines he
    refine ⟨fun prefer => ?_, fun s => ?_, fun strategy s => ?_⟩
    · obtain ⟨b, hb⟩ := hready.isStatement prefer
      exact ⟨b, congrArg Prod.fst (congrFun hb default)⟩
    · obtain ⟨code, t, hcode, -⟩ := JavaScript.lowerExpr_succeeds hready s nofun
      exact ⟨code, t, hcode⟩
    · obtain ⟨code, t, hcode, -⟩ := JavaScript.lowerStmts_succeeds strategy hready s nofun
      exact ⟨code, t, hcode⟩
  · obtain ⟨stmts, t, hstmts⟩ := JavaScript.lowerLeaves_succeeds hinlines hcontent
      (.start journal content.used JavaScript.reservedWords)
    exact ⟨⟨JavaScript.importDecls t.imports, stmts⟩, t.journal,
      by simp only [JavaScript.lowerFile, hstmts]⟩

/-- A file of a project that knows one record. -/
def recordFile : SourceFile :=
  ⟨⟨.default, ⟨[⟨"Main.Pair", "Pair", .record [], true⟩], [], [], []⟩, []⟩, "main"⟩

/-- `try (match x with :? Pair | _ -> Pair ()) with e -> reraise ()`, with one target for both
cases. -/
def guardedBody : Ir.Expr :=
  .tryCatch
    (.decisionTree
      (.ifThenElse (.test (.ident (flag "x")) (.type (.declared "Main.Pair" [])) none)
        (.success 0 [] .any) (.success 0 [] .any) none)
      [⟨[], .aggregate (.record "Main.Pair" []) [] none⟩])
    (some ⟨flag "e", .throw none .any none⟩) none none

/-- A file with that function. -/
def guardedContent : Ir.File :=
  ⟨[.member ⟨"f", [flag "x"], guardedBody, false, true, false, ["f", "x", "e"], none⟩], ["f"]⟩

theorem guardedBody_wellFormed : guardedBody.WellFormed recordFile.settings .top := by
  have hrecord : (recordFile.settings.entity? "Main.Pair").isSome := by decide
  have hleaf : ∀ {w} {e : Ir.Expr}, e.Fits recordFile.settings w → e.parts w = [] →
      e.WellFormed recordFile.settings w := fun hfits hparts =>
    .node hfits fun p hp => absurd (hparts ▸ hp) List.not_mem_nil
  have hsuccess : (Ir.Expr.success 0 [] .any).WellFormed recordFile.settings ⟨1, false⟩ :=
    hleaf Nat.zero_lt_one rfl
  have htest : (Ir.Expr.test (.ident (flag "x")) (.type (.declared "Main.Pair" []))
      none).WellFormed recordFile.settings ⟨1, false⟩ :=
    .node hrecord (List.forall_mem_singleton.2 (hleaf trivial rfl))
  refine .node trivial (List.forall_mem_cons.2 ⟨?_, List.forall_mem_singleton.2 ?_⟩)
  · refine .node trivial (List.forall_mem_cons.2 ⟨.node trivial ?_, List.forall_mem_singleton.2 ?_⟩)
    · exact List.forall_mem_cons.2 ⟨htest, List.forall_mem_cons.2 ⟨hsuccess,
        List.forall_mem_singleton.2 hsuccess⟩⟩
    · exact hleaf hrecord rfl
  · exact hleaf rfl rfl

/-- The file is lowered, and so is the body of its function in every state. -/
theorem guardedContent_lowers :
    (∀ s, ∃ code t, JavaScript.lowerExpr (.ofFile recordFile) guardedBody s = (.ok code, t)) ∧
      ∃ program journal', JavaScript.lowerFile recordFile guardedContent .empty =
        (.ok program, journal') := by
  obtain ⟨hexpr, hfile⟩ := wellFormed_lowers recordFile rfl
  refine ⟨(hexpr (.ofFile recordFile) guardedBody rfl guardedBody_wellFormed).2.1,
    hfile guardedContent .empty (List.forall_mem_singleton.2 ⟨nofun, ?_⟩)⟩
  exact List.forall_mem_singleton.2 guardedBody_wellFormed

end TypedLowering
