import TypedLowering.Proofs.Lowering.Growth
import TypedLowering.Proofs.Lowering.Unused
import TypedLowering.Proofs.Names.ImportRuns

/-!
# Lowering as a run of requests

The parts of a declaration change the names and the imports only by asking for imports and for local
names (`Extends`). So what holds of every run of requests holds of lowering, among it that the state
only grows (`Extends.grows`).
-/

namespace TypedLowering

/-- A recorded alias is one of the aliases. -/
theorem ImportTable.mem_aliases_of_alias? {t : ImportTable} {key : ImportKey} {x : String}
    (h : t.alias? key = some x) : x ∈ t.aliases := by
  obtain ⟨m, hm, hx⟩ := Option.bind_eq_some_iff.1 h
  refine mem_aliases_of_lookup hm ?_
  rw [ModuleImports.alias?] at hx
  split at hx
  · exact List.mem_append_left _ (Option.mem_toList.2 hx)
  · obtain ⟨p, hp, rfl⟩ := Option.map_eq_some_iff.1 hx
    exact List.mem_append_right _ (List.mem_map_of_mem (List.mem_of_find?_eq_some hp))

/-- Recording an import adds its alias only. -/
theorem ImportTable.mem_aliases_record {t : ImportTable} {key : ImportKey} {name x : String}
    (hx : x ∈ (t.record key name).aliases) : x ∈ t.aliases ∨ x = name := by
  refine mem_aliases_update (fun m hx => ?_) hx
  rw [ModuleImports.bind] at hx
  split at hx
  · rcases List.mem_append.1 hx with hx | hx
    · exact .inr (List.mem_singleton.1 hx)
    · exact .inl (List.mem_append_right _ hx)
  · rw [ModuleImports.aliases, List.map_append, ← List.append_assoc, List.mem_append] at hx
    exact hx.imp_right List.mem_singleton.1

/-- The names and the imports of the state. -/
def LowerState.registry (s : LowerState) : Registry :=
  ⟨s.names, s.imports⟩

/-- Whether the parts of a declaration ask for this. They allocate no root names of their own, and
they enter no scope. -/
def Request.IsInner : Request → Prop
  | .whole _ | .member _ _ | .own _ => True
  | .root _ | .enter _ | .leave _ => False

/-- What lowering the parts of a declaration may do to the state. -/
structure Extends (s t : LowerState) : Prop where
  looped : s.looped = true → t.looped = true
  caught : t.caught = s.caught
  asks : ∃ requests : List Request, (∀ q ∈ requests, q.IsInner) ∧
    s.registry.run requests = t.registry

namespace Extends

variable {s t u : LowerState}

/-- A state extends itself. -/
theorem refl (s : LowerState) : Extends s s :=
  ⟨id, rfl, [], nofun, rfl⟩

/-- What extends an extension extends the state. -/
theorem trans (h : Extends s t) (h' : Extends t u) : Extends s u := by
  obtain ⟨requests, hinner, hrun⟩ := h.asks
  obtain ⟨more, hinner', hrun'⟩ := h'.asks
  refine ⟨h'.looped ∘ h.looped, h'.caught.trans h.caught, requests ++ more, ?_, ?_⟩
  · exact List.forall_mem_append.2 ⟨hinner, hinner'⟩
  · rw [Registry.run_append, hrun, hrun']

/-- A change that neither the names nor the imports take part in. -/
theorem of_registry (hlooped : s.looped = true → t.looped = true) (hcaught : t.caught = s.caught)
    (hregistry : s.registry = t.registry) : Extends s t :=
  ⟨hlooped, hcaught, [], nofun, hregistry⟩

/-- One request. -/
theorem of_request {q : Request} {names : Scopes} {imports : ImportTable} (hq : q.IsInner)
    (h : (s.registry.serve q).2 = ⟨names, imports⟩) : Extends s { s with names, imports } :=
  ⟨id, rfl, [q], List.forall_mem_singleton.2 hq, h⟩

/-- A new local extends the state. -/
theorem of_allocateLocal (candidate : String) :
    Extends s { s with names := (s.names.allocateLocal candidate).2 } :=
  of_request (q := .own candidate) trivial rfl

/-- An import of a whole module extends the state. -/
theorem of_importWhole {path name : String} {imports : ImportTable} {names : Scopes}
    (h : s.imports.importWhole s.names path = (name, imports, names)) :
    Extends s { s with imports, names } := by
  refine of_request (q := .whole path) trivial ?_
  rw [LowerState.registry, Registry.serve, h]

/-- An import of a member extends the state. -/
theorem of_importMember {path selector name : String} {imports : ImportTable} {names : Scopes}
    (h : s.imports.importMember s.names path selector = (name, imports, names)) :
    Extends s { s with imports, names } := by
  refine of_request (q := .member path selector) trivial ?_
  rw [LowerState.registry, Registry.serve, h]

/-- The slots of a loop are local names. -/
theorem of_allocateSlots {names : Scopes} {params : List Ir.Ident} {slots : List String}
    (h : TailCall.allocateSlots s.names params = (slots, names)) :
    Extends s { s with names } := by
  induction params generalizing s slots names with
  | nil =>
    obtain ⟨rfl, rfl⟩ := h
    exact refl s
  | cons p ps ih =>
    obtain ⟨rfl, rfl⟩ := h
    have hslots : TailCall.allocateSlots (s.names.allocateLocal (p.name ++ "_mut")).2 ps =
        (_, _) := rfl
    exact (of_allocateLocal (p.name ++ "_mut")).trans
      (ih (s := { s with names := (s.names.allocateLocal (p.name ++ "_mut")).2 }) hslots)

/-- New parameters are local names. -/
theorem of_freshParams {names : Scopes} {params fresh : List Ir.Ident}
    (h : freshParams s.names params = (fresh, names)) : Extends s { s with names } := by
  induction params generalizing s fresh names with
  | nil =>
    obtain ⟨rfl, rfl⟩ := h
    exact refl s
  | cons p ps ih =>
    obtain ⟨rfl, rfl⟩ := h
    have hparams : freshParams (s.names.allocateLocal p.name).2 ps = (_, _) := rfl
    exact (of_allocateLocal p.name).trans
      (ih (s := { s with names := (s.names.allocateLocal p.name).2 }) hparams)

/-- Requests of the parts of a declaration only grow the state. -/
theorem grows_run {requests : List Request} (hinner : ∀ q ∈ requests, q.IsInner)
    (s : LowerState) : Grows s
      { s with
        names := (s.registry.run requests).names,
        imports := (s.registry.run requests).imports } := by
  induction requests generalizing s with
  | nil => exact .refl s
  | cons q requests ih =>
    obtain ⟨hq, hinner⟩ := List.forall_mem_cons.1 hinner
    have hfirst : Grows s { s with
        names := (s.registry.serve q).2.names, imports := (s.registry.serve q).2.imports } := by
      cases q with
      | whole path => exact .of_import (ImportTable.importWhole_spec rfl)
      | member path selector => exact .of_import (ImportTable.importMember_spec rfl)
      | own candidate => exact .of_allocateLocal candidate
      | root | enter | leave => exact hq.elim
    exact hfirst.trans (ih hinner _)

/-- A state that is extended grows. -/
theorem grows (h : Extends s t) : Grows s t := by
  obtain ⟨requests, hinner, hrun⟩ := h.asks
  have hg := grows_run hinner s
  rw [hrun] at hg
  exact ⟨h.looped, h.caught, hg.taken, hg.aliases, hg.rooted⟩

end Extends

end TypedLowering

/-!
## Computations below others

`Below m m'` says that `m'` gives every result that `m` gives, from the same state and leaving the
same state, and that the way there is a run of requests. Names that do not come up make no
difference, whether they are in use or not. It holds of each step that lowering consists of and
passes to what is built from such steps, so it holds of the rules of a back end at two depths: more
depth changes no result.
-/

namespace TypedLowering.Lower

variable {α β : Type}

/-- Whatever `m` gives, `m'` gives, and the state is extended by requests only. The same comes of it
if a name that is free afterwards is in use. -/
def Below (m m' : Lower α) : Prop :=
  ∀ s a t, m s = (.ok a, t) → m' s = (.ok a, t) ∧ Extends s t ∧
    ∀ x, ¬ t.names.IsTaken x → m' (s.withTaken x) = (.ok a, t.withTaken x)

namespace Below

/-- Where there is a result, the state is extended. -/
theorem state {m m' : Lower α} (h : Below m m') {s t : LowerState} {a : α}
    (hm : m s = (.ok a, t)) : Extends s t :=
  (h s a t hm).2.1

/-- Where there is a result, the state grows. -/
theorem grows {m m' : Lower α} (h : Below m m') {s t : LowerState} {a : α}
    (hm : m s = (.ok a, t)) : Grows s t :=
  (h.state hm).grows

/-- What is in use besides makes no difference to a computation, unless it takes the name. -/
theorem withTaken {m m' : Lower α} (h : Below m m') {s t : LowerState} {a : α}
    (hm : m s = (.ok a, t)) {x : String} (hx : ¬ t.names.IsTaken x) :
    m' (s.withTaken x) = (.ok a, t.withTaken x) :=
  (h s a t hm).2.2 x hx

/-- A computation that only extends the state is below itself. -/
theorem of_extends {m : Lower α} (h : ∀ s a t, m s = (.ok a, t) → Extends s t)
    (hx : ∀ s a t x, m s = (.ok a, t) → ¬ t.names.IsTaken x →
      m (s.withTaken x) = (.ok a, t.withTaken x)) : Below m m :=
  fun s a t hm => ⟨hm, h s a t hm, fun x => hx s a t x hm⟩

/-- A computation that leaves the state as it is and reads no names. -/
theorem of_refl {m : Lower α} (h : ∀ s a t, m s = (.ok a, t) → t = s)
    (hx : ∀ s a x, m s = (.ok a, s) → m (s.withTaken x) = (.ok a, s.withTaken x)) : Below m m :=
  of_extends (fun s a t hm => h s a t hm ▸ .refl s) fun s a t x hm _ => by
    obtain rfl := h s a t hm
    exact hx t a x hm

/-- Computations in sequence are below others if each is. -/
theorem bind {m m' : Lower α} {f f' : α → Lower β} (hm : Below m m')
    (hf : ∀ a, Below (f a) (f' a)) : Below (m >>= f) (m' >>= f') := by
  intro s b t h
  obtain ⟨a, u, hma, hfa⟩ := bind_eq_ok.1 h
  obtain ⟨hma', hsu, hm⟩ := hm s a u hma
  obtain ⟨hfa', hut, hf⟩ := hf a u b t hfa
  refine ⟨bind_eq_ok.2 ⟨a, u, hma', hfa'⟩, hsu.trans hut, fun x hx => ?_⟩
  exact bind_eq_ok.2 ⟨a, u.withTaken x, hm x (mt (hut.grows.taken x) hx), hf x hx⟩

/-- A result that is given is below itself. -/
theorem pure (a : α) : Below (Pure.pure a) (Pure.pure a : Lower α) :=
  of_refl (fun _ _ _ h => (pure_eq_ok.1 h).2.symm) fun _ _ _ h =>
    pure_eq_ok.2 ⟨(pure_eq_ok.1 h).1, rfl⟩

/-- A failure is below everything. -/
theorem fail (e : LowerError) (m : Lower α) : Below (.fail e) m :=
  fun _ _ _ h => absurd h fail_ne_ok

/-- A result that does not touch the state. -/
theorem ofExcept (r : Except LowerError α) : Below (.ofExcept r) (.ofExcept r) :=
  of_refl (fun _ _ _ h => (ofExcept_eq_ok.1 h).2.symm) fun _ _ _ h =>
    ofExcept_eq_ok.2 ⟨(ofExcept_eq_ok.1 h).1, rfl⟩

/-- A value that may be missing is below itself. -/
theorem ofOption (e : LowerError) (o : Option α) : Below (.ofOption e o) (.ofOption e o) :=
  of_refl (fun _ _ _ h => (ofOption_eq_ok.1 h).2.symm) fun _ _ _ h =>
    ofOption_eq_ok.2 ⟨(ofOption_eq_ok.1 h).1, rfl⟩

/-- Asking whether a node needs statements is below itself. -/
theorem isStatement (ctx : Context) (prefer : Bool) (e : Ir.Expr) :
    Below (.isStatement ctx prefer e) (.isStatement ctx prefer e) :=
  ofExcept _

/-- Asking what the handler around caught is below itself. -/
theorem caught : Below caught? caught? :=
  of_refl (fun _ _ _ h => (read_eq_ok.1 h).2.symm) fun _ _ _ h =>
    read_eq_ok.2 ⟨(read_eq_ok.1 h).1, rfl⟩

/-- Allocating a local is below itself. -/
theorem allocateLocal (candidate : String) :
    Below (.allocateLocal candidate) (.allocateLocal candidate) := by
  refine of_extends (fun s a t h => ?_) fun s a t x h hx => ?_
  · obtain ⟨-, rfl⟩ := Prod.mk.inj h
    exact .of_allocateLocal candidate
  · obtain ⟨ha, rfl⟩ := Prod.mk.inj h
    obtain rfl := Except.ok.inj ha
    rw [Lower.allocateLocal, LowerState.withTaken,
      Scopes.allocateLocal_withTaken (Scopes.allocateLocal_ne hx)]
    rfl

/-- Allocating the names of a loop is below itself. -/
theorem allocateTailCall (label : String) (params : List Ir.Ident) :
    Below (.allocateTailCall label params) (.allocateTailCall label params) := by
  refine of_extends (fun s a t h => ?_) fun s a t x h hx => ?_
  all_goals
    obtain ⟨ha, rfl⟩ := Prod.mk.inj h
    have hslots : TailCall.allocateSlots s.names (declaredParams params) = (_, _) := rfl
  · exact .of_allocateSlots hslots
  · obtain rfl := Except.ok.inj ha
    rw [Lower.allocateTailCall, TailCall.allocate, LowerState.withTaken,
      TailCall.allocateSlots_withTaken hslots hx]
    rfl

/-- Importing a whole module is below itself. -/
theorem importWhole (path : String) : Below (.importWhole path) (.importWhole path) := by
  refine of_extends (fun s a t h => ?_) fun s a t x h hx => ?_
  · obtain ⟨-, rfl⟩ := Prod.mk.inj h
    exact .of_importWhole rfl
  · obtain ⟨ha, rfl⟩ := Prod.mk.inj h
    obtain rfl := Except.ok.inj ha
    rw [Lower.importWhole, LowerState.withTaken, ImportTable.importWhole_withTaken rfl hx]
    rfl

/-- Importing a member is below itself. -/
theorem importMember (path selector : String) :
    Below (.importMember path selector) (.importMember path selector) := by
  refine of_extends (fun s a t h => ?_) fun s a t x h hx => ?_
  · obtain ⟨-, rfl⟩ := Prod.mk.inj h
    exact .of_importMember rfl
  · obtain ⟨ha, rfl⟩ := Prod.mk.inj h
    obtain rfl := Except.ok.inj ha
    rw [Lower.importMember, LowerState.withTaken, ImportTable.importMember_withTaken rfl hx]
    rfl

/-- Resolving an import is below itself. -/
theorem resolveImport (file : SourceFile) (ref : Ir.ImportRef) :
    Below (.resolveImport file ref) (.resolveImport file ref) := by
  refine of_extends (fun s a t h => ?_) fun s a t x h _ => ?_
  · obtain ⟨-, rfl⟩ := Prod.mk.inj h
    exact .of_registry id rfl rfl
  · obtain ⟨ha, rfl⟩ := Prod.mk.inj h
    obtain rfl := Except.ok.inj ha
    rfl

/-- Marking the loop as used is below itself. -/
theorem markLooped : Below .markLooped .markLooped := by
  refine of_extends (fun s a t h => ?_) fun s a t x h _ => ?_
  · obtain rfl := markLooped_eq_ok.1 h
    exact .of_registry (fun _ => rfl) rfl rfl
  · obtain rfl := markLooped_eq_ok.1 h
    rfl

/-- A function is below another if its body is. -/
theorem inFunction {m m' : Lower α} (h : Below m m') :
    Below (.inFunction m) (.inFunction m') := by
  rintro s ⟨a, looped⟩ t hm
  obtain ⟨u, hma, rfl, rfl⟩ := inFunction_eq_ok.1 hm
  obtain ⟨hma', hu, hx⟩ := h _ _ _ hma
  exact ⟨inFunction_eq_ok.2 ⟨u, hma', rfl, rfl⟩, ⟨id, hu.caught, hu.asks⟩, fun x hnew =>
    inFunction_eq_ok.2 ⟨u.withTaken x, hx x hnew, rfl, rfl⟩⟩

/-- A handler is below another if its body is. -/
theorem inHandler {m m' : Lower α} (param : String) (h : Below m m') :
    Below (.inHandler param m) (.inHandler param m') := by
  intro s a t hm
  obtain ⟨u, hma, rfl⟩ := inHandler_eq_ok.1 hm
  obtain ⟨hma', hu, hx⟩ := h _ _ _ hma
  exact ⟨inHandler_eq_ok.2 ⟨u, hma', rfl⟩,
    ⟨hu.looped, congrArg List.tail hu.caught, hu.asks⟩, fun x hnew =>
    inHandler_eq_ok.2 ⟨u.withTaken x, hx x hnew, rfl⟩⟩

/-- Expanding a call is below itself. -/
theorem expandInline (file : SourceFile) (callee : Ir.Expr) (args : List Ir.Expr) :
    Below (TypedLowering.expandInline file callee args)
      (TypedLowering.expandInline file callee args) := by
  refine of_extends (fun s a t h => ?_) fun s a t x => expandInline_withTaken
  rcases expandInline_cases file callee args s with
    ⟨journal, heq⟩ | ⟨_, inline, fresh, names, -, -, -, hparams, heq⟩
  · rw [heq] at h
    obtain ⟨-, rfl⟩ := Prod.mk.inj h
    exact .of_registry id rfl rfl
  · rw [heq] at h
    obtain ⟨-, rfl⟩ := Prod.mk.inj h
    exact .of_freshParams hparams

/-- A choice is below another if its branches are. -/
theorem ite {c : Prop} [Decidable c] {m m' n n' : Lower α} (hm : Below m m') (hn : Below n n') :
    Below (if c then m else n) (if c then m' else n') := by
  split
  · exact hm
  · exact hn

/-- Asking items in turn is below itself if asking each is. -/
theorem anyM {xs : List β} {p : β → Lower Bool} (h : ∀ x, Below (p x) (p x)) :
    Below (xs.anyM p) (xs.anyM p) := by
  induction xs with
  | nil => exact pure false
  | cons x xs ih =>
    refine bind (h x) fun b => ?_
    cases b with
    | true => exact pure true
    | false => exact ih

end Below

end TypedLowering.Lower
