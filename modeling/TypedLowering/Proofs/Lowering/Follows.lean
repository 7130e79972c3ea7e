import Mathlib.Tactic.SplitIfs
import TypedLowering.Proofs.Lowering.Relocation

/-!
# Lowering relocated code

Where the locations of a file are changed, a back end does the same steps, whatever stands in the
journal: `Lower.Follows` says of two computations that they leave states that differ in the journal
alone, and that a function takes the result of one to that of the other. It holds of each step of
lowering (`Follows.expandInline`, `Follows.isStatement`) and passes to what is built from such
steps. What is noted on the way does not depend on the journal, and reports no failure
(`Note.IsQuiet`).
-/

namespace TypedLowering

open Ir (Expr Ident Target)

variable {ρ : Relocation}

/-! ## Notes -/

/-- Whether an entry may report that a file failed. -/
def LogEntry.isFailure (e : LogEntry) : Bool :=
  e.severity == .error || e.tag == some "lowering"

/-- Whether a note does not report that a file failed. -/
def Note.IsQuiet : Note → Prop
  | .entry e => e.isFailure = false
  | .warning _ _ _ | .dependency _ _ => True

/-- Notes of two parts are made one after the other. -/
theorem Journal.notes_append (j : Journal) (as bs : List Note) :
    j.notes (as ++ bs) = (j.notes as).notes bs :=
  List.foldl_append

/-! ## Computations -/

namespace Lower

variable {α β γ δ : Type}

/-- The result with the locations of an error changed. -/
def relocated (ρ : Relocation) (f : α → β) : Except LowerError α → Except LowerError β
  | .ok a => .ok (f a)
  | .error e => .error (e.relocate ρ)

/-- Whatever stands in the journal, `m'` leaves the state that `m` leaves, and the result is that of
`m` with its locations changed. What is noted does not depend on the journal, and no failure is
noted. -/
def Follows (ρ : Relocation) (f : α → β) (m : Lower α) (m' : Lower β) : Prop :=
  ∀ s, ∃ notes : List Note, (∀ note ∈ notes, note.IsQuiet) ∧ ∀ j,
    m' { s with journal := j } = (relocated ρ f (m s).1, { (m s).2 with journal := j.notes notes })

/-- Relocating the result of a sequence relocates that of its last part. -/
theorem relocated_bind (g : γ → δ) (r : Except LowerError α) (k : α → Except LowerError γ) :
    relocated ρ g (r >>= k) = relocated ρ (fun a => a) r >>= fun a => relocated ρ g (k a) := by
  cases r <;> rfl

/-- An answer to a question about items has no locations. -/
theorem relocated_anyM {p : α → Except LowerError Bool}
    (h : ∀ a, relocated ρ (fun b => b) (p a) = p a) (as : List α) :
    relocated ρ (fun b => b) (as.anyM p) = as.anyM p := by
  induction as with
  | nil => rfl
  | cons a as ih =>
    rw [List.anyM_cons, relocated_bind, h]
    congr 1
    funext b
    cases b with
    | true => rfl
    | false => exact ih

/-- What is asked of the shape of an expression fails without a location. -/
theorem relocated_isStatementWithin (n : Nat) (targets : List Target) (prefer : Bool) (e : Expr) :
    relocated ρ (fun b => b) (isStatementWithin n targets prefer e) =
      isStatementWithin n targets prefer e := by
  induction n generalizing targets prefer e with
  | zero => rfl
  | succ n ih =>
    cases e with
    | cast expr => exact ih targets prefer expr
    | ifThenElse =>
      cases prefer with
      | true => rfl
      | false =>
        simp only [isStatementWithin, Bool.false_eq_true, if_false, relocated_bind, ih]
        congr 1
        funext b
        cases b with
        | true => rfl
        | false => exact ih targets false _
    | decisionTree dispatcher inner =>
      cases prefer with
      | true => rfl
      | false =>
        simp only [isStatementWithin, Bool.false_eq_true, if_false, relocated_bind, ih]
        congr 1
        funext b
        cases b with
        | true => rfl
        | false => exact relocated_anyM (fun t => ih targets false t.body) inner
    | success index values =>
      simp only [isStatementWithin]
      split
      · rfl
      · split
        · exact ih targets false _
        · rfl
    | _ => rfl

namespace Follows

variable {f : α → β} {g : γ → δ}

/-- Two computations follow in sequence if each does. -/
theorem bind {m : Lower α} {m' : Lower β} {k : α → Lower γ} {k' : β → Lower δ}
    (hm : Follows ρ f m m') (hk : ∀ a, Follows ρ g (k a) (k' (f a))) :
    Follows ρ g (m >>= k) (m' >>= k') := by
  intro s
  obtain ⟨notes, hquiet, hm'⟩ := hm s
  rcases hms : m s with ⟨e | a, t⟩
  · rw [hms] at hm'
    exact ⟨notes, hquiet, fun j => by rw [bind_error hms, bind_error (hm' j)]; rfl⟩
  · rw [hms] at hm'
    obtain ⟨notes', hquiet', hk'⟩ := hk a t
    refine ⟨notes ++ notes', fun note => (List.mem_append.1 · |>.elim (hquiet note) (hquiet' note)),
      fun j => ?_⟩
    rw [bind_ok hms, bind_ok (hm' j), hk', Journal.notes_append]

/-- A step that notes nothing. -/
theorem of_noteless {m : Lower α} {m' : Lower β}
    (h : ∀ s j,
      m' { s with journal := j } = (relocated ρ f (m s).1, { (m s).2 with journal := j })) :
    Follows ρ f m m' :=
  fun s => ⟨[], nofun, h s⟩

/-- A result that is given follows. -/
theorem pure {a : α} {b : β} (h : b = f a) : Follows ρ f (Pure.pure a) (Pure.pure b) :=
  of_noteless fun _ _ => by rw [h]; rfl

/-- A relocated failure follows. -/
theorem fail {e e' : LowerError} (h : e' = e.relocate ρ) :
    Follows ρ f (.fail e) (.fail e') :=
  of_noteless fun _ _ => by rw [h]; rfl

/-- A value that is in the project or is not. -/
theorem ofOption {e e' : LowerError} (he : e' = e.relocate ρ) {o : Option α} {o' : Option β}
    (ho : o' = o.map f) : Follows ρ f (.ofOption e o) (.ofOption e' o') := by
  subst ho
  cases o with
  | none => exact fail he
  | some a => exact pure rfl

/-- What the handler around caught has no location. -/
theorem caught : Follows ρ (fun name => name) caught? caught? :=
  of_noteless fun _ _ => rfl

/-- The same local is allocated. -/
theorem allocateLocal (candidate : String) :
    Follows ρ (fun name => name) (.allocateLocal candidate) (.allocateLocal candidate) :=
  of_noteless fun _ _ => rfl

/-- The same root name is allocated. -/
theorem allocateRoot (candidate : String) :
    Follows ρ (fun name => name) (.allocateRoot candidate) (.allocateRoot candidate) :=
  of_noteless fun _ _ => rfl

/-- The same names are allocated for a loop with relocated parameters. -/
theorem allocateTailCall (label : String) (params : List Ident) :
    Follows ρ (TailCall.relocate ρ) (.allocateTailCall label params)
      (.allocateTailCall label (params.map (·.relocate ρ))) :=
  of_noteless fun s j => by
    simp only [Lower.allocateTailCall, TailCall.allocate_relocate]
    rfl

/-- The same alias is given to a module. -/
theorem importWhole (path : String) :
    Follows ρ (fun name => name) (.importWhole path) (.importWhole path) :=
  of_noteless fun _ _ => rfl

/-- The same alias is given to a member. -/
theorem importMember (path selector : String) :
    Follows ρ (fun name => name) (.importMember path selector) (.importMember path selector) :=
  of_noteless fun _ _ => rfl

/-- An import is resolved alike in a relocated file. -/
theorem resolveImport {file file' : SourceFile} (hfile : file' = file.relocate ρ)
    (ref : Ir.ImportRef) :
    Follows ρ (fun resolved => resolved) (.resolveImport file ref) (.resolveImport file' ref) := by
  subst hfile
  intro s
  simp only [Lower.resolveImport, TypedLowering.resolveImport]
  split
  · exact ⟨[], nofun, fun _ => rfl⟩
  · exact ⟨[.dependency _ _], List.forall_mem_singleton.2 trivial, fun _ => rfl⟩
  · exact ⟨[.dependency _ _], List.forall_mem_singleton.2 trivial, fun _ => rfl⟩

/-- The loop around is marked alike. -/
theorem markLooped : Follows ρ (fun u => u) .markLooped .markLooped :=
  of_noteless fun _ _ => rfl

/-- A function follows if its body does. -/
theorem inFunction {m : Lower α} {m' : Lower β} (h : Follows ρ f m m') :
    Follows ρ (fun p => (f p.1, p.2)) (.inFunction m) (.inFunction m') := by
  intro s
  obtain ⟨notes, hquiet, hm'⟩ := h { s with looped := false }
  refine ⟨notes, hquiet, fun j => ?_⟩
  simp only [Lower.inFunction, hm']
  rcases m { s with looped := false } with ⟨e | a, t⟩ <;> rfl

/-- A handler follows if its body does. -/
theorem inHandler {m : Lower α} {m' : Lower β} (param : String) (h : Follows ρ f m m') :
    Follows ρ f (.inHandler param m) (.inHandler param m') := by
  intro s
  obtain ⟨notes, hquiet, hm'⟩ := h { s with caught := param :: s.caught }
  refine ⟨notes, hquiet, fun j => ?_⟩
  simp only [Lower.inHandler, hm']

/-- A declaration follows if what is lowered in it does. -/
theorem inDeclaration {m : Lower α} {m' : Lower β} (used : List String) (h : Follows ρ f m m') :
    Follows ρ f (.inDeclaration used m) (.inDeclaration used m') := by
  intro s
  obtain ⟨notes, hquiet, hm'⟩ := h { s with names := (s.names.enter used).2 }
  refine ⟨notes, hquiet, fun j => ?_⟩
  simp only [Lower.inDeclaration, hm']

/-- A choice follows if its branches do. -/
theorem ite {c : Prop} [Decidable c] {m n : Lower α} {m' n' : Lower β} (hm : Follows ρ f m m')
    (hn : Follows ρ f n n') : Follows ρ f (if c then m else n) (if c then m' else n') := by
  split
  · exact hm
  · exact hn

/-- Whether a relocated node needs statements is answered alike. -/
theorem isStatement {ctx ctx' : Context} (h : ctx.Follows ρ ctx') (prefer : Bool) (e : Expr) :
    Follows ρ (fun b => b) (.isStatement ctx prefer e)
      (.isStatement ctx' prefer (e.relocate ρ)) := by
  refine of_noteless fun s j => ?_
  rw [Lower.isStatement, Lower.isStatement, h.isStatement, TypedLowering.isStatement, ofExcept,
    ofExcept, relocated_isStatementWithin]

/-- Whether some relocated item passes is answered alike. -/
theorem anyM {as : List α} {h : α → β} {p : α → Lower Bool} {q : β → Lower Bool}
    (hp : ∀ a, Follows ρ (fun b => b) (p a) (q (h a))) :
    Follows ρ (fun b => b) (as.anyM p) ((as.map h).anyM q) := by
  induction as with
  | nil => exact pure rfl
  | cons a as ih =>
    refine bind (hp a) fun b => ?_
    cases b with
    | true => exact pure rfl
    | false => exact ih

/-- A relocated call is expanded to the relocated expansion. -/
theorem expandInline {file file' : SourceFile} (hfile : file' = file.relocate ρ) (callee : Expr)
    (args : List Expr) :
    Follows ρ (Option.map (Expr.relocate ρ)) (TypedLowering.expandInline file callee args)
      (TypedLowering.expandInline file' (callee.relocate ρ) (args.map (·.relocate ρ))) := by
  subst hfile
  intro s
  simp only [TypedLowering.expandInline, Expr.uncast_relocate]
  cases callee.uncast with
  | imported ref ty loc =>
    simp only [Expr.relocate, SourceFile.relocate, Settings.inline?_relocate,
      Settings.isPrecompiling_relocate]
    cases file.settings.inline? ref.selector with
    | none => exact ⟨[], List.forall_mem_nil _, fun _ => rfl⟩
    | some inline =>
      simp only [Option.map_some, InlineFunction.relocate, List.length_map]
      split_ifs
      · exact ⟨[.warning _ _ _], List.forall_mem_singleton.2 trivial, fun _ => rfl⟩
      · refine ⟨[.entry ⟨.info, _, some "inline", _, _⟩], List.forall_mem_singleton.2 ?_,
        fun _ => rfl⟩
        simp [Note.IsQuiet, LogEntry.isFailure]
      · refine ⟨[], List.forall_mem_nil _, fun j => ?_⟩
        simp only [freshParams_relocate, paramRenaming_relocate, Expr.rename_relocate,
          bindParams_relocate]
        rfl
  | _ => exact ⟨[], List.forall_mem_nil _, fun _ => rfl⟩

end Follows

end Lower

end TypedLowering
