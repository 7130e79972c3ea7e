import TypedLowering.Proofs.JavaScript.Handlers
import TypedLowering.Proofs.ReturnDiscipline

/-!
# Rethrowing

A rethrow throws what the innermost handler around it caught (`rethrow_throwsInnermost`), if no
handler selects targets of a decision tree around it. The code for a target that is selected in a
handler is put into this handler. A rethrow in it throws what that handler caught, and not what the
one around the tree did (`selectedInHandler_rethrows`).
-/

namespace TypedLowering

namespace JavaScript

/-- The ways to lower a node: as an expression, as statements, and as the body of a function. -/
inductive Lowers (ctx : Context) (e : Ir.Expr) : {α : Type} → (Parts → Lower α) → Prop
  | expr : Lowers ctx e (·.expr ctx e)
  | stmts (strategy : Strategy Expr) : Lowers ctx e (·.stmts ctx strategy e)
  | function (name : Option String) (params : List Ir.Ident) :
      Lowers ctx e (·.function ctx name params e)

variable {ctx : Context} {e : Ir.Expr} {α : Type} {m : Parts → Lower α}

theorem Lowers.related {R : ∀ {α : Type}, Lower α → Lower α → Prop} (hR : Lower.Comparison R)
    {P : Reach} (hP : P.Hereditary) {r r' : Parts} (h : Parts.Related R P.here r r')
    (hm : Lowers ctx e m) (he : P.here ctx e) : R (m r) (m r') := by
  cases hm with
  | expr => exact h.expr he
  | stmts strategy => exact h.stmts strategy he
  | function name params => exact h.function hR hP name params he

theorem Lowers.failsWithin (hm : Lowers ctx e m) (n : Nat) (params : List String) :
    Lower.FailsWithin params (OpenRethrow ctx e) (m (rules n)) :=
  hm.related (Lower.FailsWithin.comparison _ _) (rethrowReach_hereditary _)
    (rules_failWithin n params _) fun _ h => h

/-- How a computation resolves rethrows in a state. It does what one does that gets the handlers
passed down, and fails for want of a handler if and only if that one reports a rethrow, however it
reports it. If it does not, then nothing is reported. -/
structure ResolvesRethrows (m : Lower α) (lexical : (Option Ir.Location → LowerError) → Lower α)
    (s : LowerState) : Prop where
  same : m s = lexical unhandled s
  fails_iff (loc : Option Ir.Location) : (m s).1 = .error (unhandled loc) ↔
    s.caught = [] ∧ ∀ report, (lexical report s).1 = .error (report loc)
  reports_nothing (h : ∀ loc, (m s).1 ≠ .error (unhandled loc))
    (report : Option Ir.Location → LowerError) : lexical report s = m s

theorem resolvesRethrows_of_resolves {m : Lower α}
    {lexical : (Option Ir.Location → LowerError) → Lower α} {s : LowerState}
    (h : ∀ report, Lower.Resolves s.caught report m (lexical report)) :
    ResolvesRethrows m lexical s := by
  have hcases : ∀ report, (∀ loc, (m s).1 ≠ .error (unhandled loc)) ∧ lexical report s = m s ∨
      s.caught = [] ∧ ∃ loc, (m s).1 = .error (unhandled loc) ∧
        lexical report s = (.error (report loc), (m s).2) := by
    intro report
    obtain ⟨r, t, hm, ht, h⟩ := h report s rfl
    have hs : t.withHandlers s.caught = t := ht ▸ rfl
    rw [hm]
    refine h.imp (fun ⟨hne, hother⟩ => ⟨hne, ?_⟩) fun ⟨hnone, loc, hloc, hother⟩ =>
      ⟨hnone, loc, hloc, ?_⟩
    · exact (hother s.caught).trans (by rw [hs])
    · exact (hother s.caught).trans (by rw [hs])
  have hsame : m s = lexical unhandled s := by
    rcases hcases unhandled with ⟨-, heq⟩ | ⟨-, loc, hloc, heq⟩
    · exact heq.symm
    · rw [heq, ← hloc]
  refine ⟨hsame, fun loc => ⟨fun hfail => ?_, fun ⟨_, hreport⟩ => ?_⟩, fun hne report => ?_⟩
  · have hreport : ∀ report, s.caught = [] ∧ (lexical report s).1 = .error (report loc) := by
      intro report
      rcases hcases report with ⟨hne, -⟩ | ⟨hnone, loc', hloc', heq⟩
      · exact absurd hfail (hne loc)
      · have hplace : unhandled loc = unhandled loc' := Except.error.inj (hfail.symm.trans hloc')
        cases hplace
        exact ⟨hnone, congrArg Prod.fst heq⟩
    exact ⟨(hreport unhandled).1, fun report => (hreport report).2⟩
  · rw [hsame]
    exact hreport unhandled
  · rcases hcases report with ⟨-, heq⟩ | ⟨-, loc, hloc, -⟩
    · exact heq
    · exact absurd hloc (hne loc)

end JavaScript

open JavaScript in
/-- To lower a node leaves the handlers in the state as they were, and fails for want of a handler
only at a rethrow outside of all handlers. If no handler selects targets of a tree around it, then
rethrows throw what the innermost handler around them caught, and lowering fails for want of a
handler exactly if it comes to a rethrow without one. -/
theorem rethrow_throwsInnermost {ctx : Context} {e : Ir.Expr} {α : Type} {m : Parts → Lower α}
    (hm : Lowers ctx e m) (n : Nat) (s : LowerState) :
    (m (rules n) s).2.caught = s.caught ∧
    (∀ loc, (m (rules n) s).1 = .error (unhandled loc) → s.caught = [] ∧ OpenRethrow ctx e loc) ∧
    (Settled ctx → e.HandlersSettled → ResolvesRethrows (m (rules n))
      (fun report => m (lexical report n ⟨s.caught.head?, s.caught.head?⟩)) s) := by
  obtain ⟨hcaught, hfails⟩ := hm.failsWithin n s.caught s rfl
  refine ⟨hcaught, hfails, fun hctx he => resolvesRethrows_of_resolves fun report => ?_⟩
  exact hm.related (Lower.Resolves.comparison _ _) (settledReach_hereditary _)
    (resolves_lexical report n s.caught _ rfl) ⟨hctx, he, .inl rfl⟩

/-! ## Two handlers -/

/-- A call of `f` without arguments. -/
def callF : Ir.Expr := .call (.ident (flag "f")) none [] false .unit none

/-- `try f() with param -> caught` -/
def guardedCall (param : String) (caught : Ir.Expr) : Ir.Expr :=
  .tryCatch callF (some ⟨flag param, caught⟩) none none

/-- A rethrow. -/
def reraise : Ir.Expr := .throw none .unit none

/-- A decision tree whose only target is a rethrow, which is selected in the handler of a call. -/
def selectedInHandler : Ir.Expr :=
  .decisionTree (guardedCall "e" (.success 0 [] .unit)) [⟨[], reraise⟩]

/-- In a closure, too, the innermost handler counts. -/
theorem nestedHandlers_resolve :
    let e := guardedCall "o" (.sequence [guardedCall "e" (.lambda (flag "x") reraise none),
      reraise])
    JavaScript.Lowers (.ofFile bareFile) e (·.stmts (.ofFile bareFile) .effect e) ∧
    JavaScript.Settled (.ofFile bareFile) ∧ e.HandlersSettled ∧
    (JavaScript.rules 8).stmts (.ofFile bareFile) .effect e swapState =
      (JavaScript.lexical unhandled 8 ⟨none, none⟩).stmts (.ofFile bareFile) .effect e
        swapState := by
  intro e
  have hm : JavaScript.Lowers (.ofFile bareFile) e (·.stmts (.ofFile bareFile) .effect e) :=
    .stmts .effect
  have hctx : JavaScript.Settled (.ofFile bareFile) := ⟨nofun, nofun⟩
  have he : e.HandlersSettled := by decide
  exact ⟨hm, hctx, he, ((rethrow_throwsInnermost hm 8 swapState).2.2 hctx he).same⟩

/-- The code that is thrown in a handler of a handler. -/
def thrownInside : List JavaScript.Stmt → Option JavaScript.ExprForm
  | [⟨_, .tryCatch _ (some ⟨_, [⟨_, .tryCatch _ (some ⟨_, [⟨_, .throw error⟩]⟩) _⟩]⟩) _⟩] =>
    some error.form
  | _ => none

/-- The rethrow of a target stands in the handler `o`, and throws what `e` caught. -/
theorem selectedInHandler_rethrows :
    let e := guardedCall "o" selectedInHandler
    ((JavaScript.rules 8).stmts (.ofFile bareFile) .effect e swapState).1.toOption.bind
      thrownInside = some (.ident "e") ∧
    ((JavaScript.lexical unhandled 8 ⟨none, none⟩).stmts (.ofFile bareFile) .effect e
      swapState).1.toOption.bind thrownInside = some (.ident "o") :=
  ⟨rfl, rfl⟩

end TypedLowering
