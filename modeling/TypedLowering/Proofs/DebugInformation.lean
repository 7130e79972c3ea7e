import TypedLowering.Lowering.Files
import TypedLowering.Proofs.Dart.Follows
import TypedLowering.Proofs.JavaScript.Follows
import TypedLowering.Proofs.Printing.Relocation

/-!
# Debug information is not in the code

Whether the expressions of a file carry locations makes no difference to the code: for JavaScript
the two programs differ in the locations of their nodes alone and are printed as the same text, and
for Dart, whose trees carry none, they are one program (`locations_notInCode`). Where lowering fails
it fails in the same way, and the locations of the two errors may differ.
-/

namespace TypedLowering

/-- Both runs succeed, with programs that are related, or both fail with the same error, at places
that may differ. -/
inductive Agree {α : Type} (R : α → α → Prop) :
    Except LowerError α → Except LowerError α → Prop
  | ok {a b : α} (h : R a b) : Agree R (.ok a) (.ok b)
  | error {e e' : LowerError} (h : e.relocate .erase = e'.relocate .erase) :
    Agree R (.error e) (.error e')

namespace JavaScript.Program

/-- The programs differ in the locations of their nodes alone and are printed as the same text.
Without those locations nothing of them is mapped. -/
structure SameCode (p q : Program) : Prop where
  tree : p.relocate .erase = q.relocate .erase
  text : ∀ options, (p.print options).1 = (q.print options).1
  unmapped : ∀ options, ((p.relocate .erase).print options).2 = []

/-- The second program is the first one without its locations. It is printed as the same text, and
nothing of it is mapped. -/
structure Unlocated (p q : Program) : Prop where
  tree : q = p.relocate .erase
  text : ∀ options, (q.print options).1 = (p.print options).1
  unmapped : ∀ options, (q.print options).2 = []

theorem SameCode.of_tree {p q : Program} (h : p.relocate .erase = q.relocate .erase) :
    SameCode p q where
  tree := h
  text options := by
    have hp := p.print_erase options
    rw [h, q.print_erase] at hp
    exact (congrArg Prod.fst hp).symm
  unmapped options := by rw [p.print_erase]

theorem unlocated_relocate (p : Program) : Unlocated p (p.relocate .erase) where
  tree := rfl
  text options := by rw [p.print_erase]
  unmapped options := by rw [p.print_erase]

end JavaScript.Program

/-- A file is lowered alike with and without its locations. In the first case the bodies of the
session's inline functions keep theirs, in the second they have none either. -/
structure LocationsErasable {α : Type} (lower : FileLowering α) (Same Erased : α → α → Prop) :
    Prop where
  content : ∀ file content j j', Agree Same (lower file content j).1
    (lower file (content.relocate .erase) j').1
  session : ∀ file content j j', Agree Erased (lower file content j).1
    (lower (file.relocate .erase) (content.relocate .erase) j').1

namespace Agree

variable {α : Type} {f : α → α}

/-- Results that are the same without their locations agree. -/
theorem of_relocated {r r' : Except LowerError α}
    (h : Lower.relocated .erase f r = Lower.relocated .erase f r') :
    Agree (fun a b => f a = f b) r r' := by
  match r, r' with
  | .ok _, .ok _ => exact .ok (Except.ok.inj h)
  | .error _, .error _ => exact .error (Except.error.inj h)
  | .ok _, .error _ | .error _, .ok _ => cases h

theorem relocated (r : Except LowerError α) :
    Agree (fun a b => b = f a) r (Lower.relocated .erase f r) := by
  rcases r with e | a
  · exact .error (by cases e <;> rfl)
  · exact .ok rfl

theorem mono {R S : α → α → Prop} (h : ∀ a b, R a b → S a b) {r r' : Except LowerError α} :
    Agree R r r' → Agree S r r'
  | .ok hab => .ok (h _ _ hab)
  | .error he => .error he

end Agree

/-- A back end erases locations if its program for a relocated file is the relocated program. -/
theorem LocationsErasable.of_follows {α : Type} {lower : FileLowering α} {f : α → α}
    (h : ∀ file content j, ∃ notes : List Note, (∀ note ∈ notes, note.IsQuiet) ∧ ∀ j₁,
      lower (file.relocate .erase) (content.relocate .erase) j₁ =
        (Lower.relocated .erase f (lower file content j).1, j₁.notes notes)) :
    LocationsErasable lower (fun a b => f a = f b) (fun a b => b = f a) where
  content file content j j' := by
    obtain ⟨_, -, hwith⟩ := h file content j
    obtain ⟨_, -, hwithout⟩ := h file (content.relocate .erase) j'
    replace hwith := hwith .empty
    replace hwithout := hwithout .empty
    -- erasing the locations of the content twice is erasing them once
    rw [content.relocate_relocate, Relocation.erase_andThen_erase, hwith] at hwithout
    exact .of_relocated (congrArg Prod.fst hwithout)
  session file content j j' := by
    obtain ⟨_, -, hwithout⟩ := h file content j
    rw [hwithout j']
    exact .relocated _

theorem LocationsErasable.mono {α : Type} {lower : FileLowering α} {R R' S S' : α → α → Prop}
    (h : LocationsErasable lower R S) (hR : ∀ a b, R a b → R' a b) (hS : ∀ a b, S a b → S' a b) :
    LocationsErasable lower R' S' where
  content file content j j' := (h.content file content j j').mono hR
  session file content j j' := (h.session file content j j').mono hS

/-- For every session, file and print options, a file without its locations is lowered as the file
itself: to a JavaScript program that differs in the locations of its nodes alone and is printed as
the same text, without any mapping where no location is left, and to the same Dart program. -/
theorem locations_notInCode :
    LocationsErasable JavaScript.lowerFile JavaScript.Program.SameCode
        JavaScript.Program.Unlocated ∧
      LocationsErasable Dart.lowerFile (· = ·) (· = ·) :=
  ⟨(LocationsErasable.of_follows (JavaScript.lowerFile_follows .erase)).mono
      (fun _ _ => .of_tree) (fun p _ h => h ▸ p.unlocated_relocate),
    (LocationsErasable.of_follows (Dart.lowerFile_follows .erase)).mono
      (fun _ _ h => h) (fun _ _ h => h.symm)⟩

end TypedLowering
