import TypedLowering.Lowering.State
import TypedLowering.Proofs.Ir.Subterms

/-!
# Where lowering goes

Lowering a node comes to nodes inside it and, at success nodes, to the bodies of the targets in
reach. `Within ctx e ctx' e'` says that `e'` in the context `ctx'` is such a node of `e` in `ctx`,
for the same file and the same loop.
-/

namespace TypedLowering

open Ir (Expr Target)

namespace Context

/-- Whether a node is in reach: inside `e`, or inside the body of a target. -/
def Reaches (ctx : Context) (e d : Expr) : Prop :=
  d ∈ e.subterms ∨ ∃ t ∈ ctx.targets, d ∈ t.body.subterms

/-- Whether a target is one of the context, or of a decision tree in reach. -/
def HasTarget (ctx : Context) (e : Expr) (t : Target) : Prop :=
  t ∈ ctx.targets ∨ ∃ dispatcher ts, ctx.Reaches e (.decisionTree dispatcher ts) ∧ t ∈ ts

/-- What is inside a node in reach is in reach. -/
theorem Reaches.subterm {ctx : Context} {e d c : Expr} (h : ctx.Reaches e d)
    (hc : c ∈ d.subterms) : ctx.Reaches e c := by
  rcases h with hd | ⟨t, ht, hd⟩
  · exact .inl (Expr.subterms_trans hc hd)
  · exact .inr ⟨t, ht, Expr.subterms_trans hc hd⟩

/-- What is inside the body of a target in reach is in reach. -/
theorem HasTarget.reaches {ctx : Context} {e d : Expr} {t : Target} (h : ctx.HasTarget e t)
    (hd : d ∈ t.body.subterms) : ctx.Reaches e d := by
  rcases h with ht | ⟨dispatcher, ts, htree, ht⟩
  · exact .inr ⟨t, ht, hd⟩
  · refine htree.subterm (Expr.mem_subterms.2 (.inr ⟨t.body, ?_, hd⟩))
    exact List.mem_cons_of_mem _ (List.mem_map_of_mem ht)

/-- Targets do not change the file. -/
@[simp] theorem file_withTargets (ctx : Context) (ts : List Target) :
    (ctx.withTargets ts).file = ctx.file := rfl

/-- The loop has no part in the file. -/
@[simp] theorem file_withoutTailCall (ctx : Context) : ctx.withoutTailCall.file = ctx.file := rfl

/-- The targets are those that were given last. -/
@[simp] theorem targets_withTargets (ctx : Context) (ts : List Target) :
    (ctx.withTargets ts).targets = ts := rfl

/-- The loop has no part in the targets. -/
@[simp] theorem targets_withoutTailCall (ctx : Context) :
    ctx.withoutTailCall.targets = ctx.targets := rfl

/-- Targets do not change the loop. -/
@[simp] theorem tailCall_withTargets (ctx : Context) (ts : List Target) :
    (ctx.withTargets ts).tailCall = ctx.tailCall := rfl

/-- No loop is left. -/
@[simp] theorem tailCall_withoutTailCall (ctx : Context) : ctx.withoutTailCall.tailCall = none :=
  rfl

end Context

/-- What a node in a context can come to. -/
structure Within (ctx : Context) (e : Expr) (ctx' : Context) (e' : Expr) : Prop where
  file : ctx'.file = ctx.file
  tailCall : ctx'.tailCall = ctx.tailCall
  node : ∀ d ∈ e'.subterms, ctx.Reaches e d
  targets : ∀ t ∈ ctx'.targets, ctx.HasTarget e t

namespace Within

variable {ctx ctx' ctx'' : Context} {e e' e'' : Expr}

/-- What is in reach of an inner node is in reach of the outer one. -/
theorem reaches (h : Within ctx e ctx' e') {d : Expr} (hd : ctx'.Reaches e' d) :
    ctx.Reaches e d := by
  rcases hd with hd | ⟨t, ht, hd⟩
  · exact h.node d hd
  · exact (h.targets t ht).reaches hd

/-- A node is within itself. -/
theorem refl (ctx : Context) (e : Expr) : Within ctx e ctx e :=
  ⟨rfl, rfl, fun _ => .inl, fun _ => .inl⟩

/-- A node within an inner node is within the outer one. -/
theorem trans (h : Within ctx e ctx' e') (h' : Within ctx' e' ctx'' e'') :
    Within ctx e ctx'' e'' where
  file := h'.file.trans h.file
  tailCall := h'.tailCall.trans h.tailCall
  node d hd := h.reaches (h'.node d hd)
  targets t ht := by
    rcases h'.targets t ht with ht | ⟨dispatcher, ts, htree, ht⟩
    · exact h.targets t ht
    · exact .inr ⟨dispatcher, ts, h.reaches htree, ht⟩

/-- A node that stands further inside. -/
theorem of_mem (h : e' ∈ e.subterms) : Within ctx e ctx e' :=
  ⟨rfl, rfl, fun _ hd => .inl (Expr.subterms_trans hd h), fun _ => .inl⟩

/-- A child is within its parent. -/
theorem of_child (h : e' ∈ e.children) : Within ctx e ctx e' :=
  of_mem (Expr.mem_subterms_of_child h)

/-- The dispatcher of a decision tree, with the targets of the tree. -/
theorem dispatcher {d : Expr} {ts : List Target} :
    Within ctx (.decisionTree d ts) (ctx.withTargets ts) d where
  file := rfl
  tailCall := rfl
  node _ hc := .inl (Expr.mem_subterms.2 (.inr ⟨d, List.mem_cons_self, hc⟩))
  targets _ ht := .inr ⟨d, ts, .inl (Expr.self_mem_subterms _), ht⟩

/-- The body of a target of a decision tree. -/
theorem target {d : Expr} {ts : List Target} {t : Target} (ht : t ∈ ts) :
    Within ctx (.decisionTree d ts) ctx t.body :=
  of_child (List.mem_cons_of_mem _ (List.mem_map_of_mem ht))

/-- The body of a target that a success node selects. -/
theorem selected {t : Target} (ht : t ∈ ctx.targets) : Within ctx e ctx t.body :=
  ⟨rfl, rfl, fun _ hd => .inr ⟨t, ht, hd⟩, fun _ => .inl⟩

end Within

end TypedLowering
