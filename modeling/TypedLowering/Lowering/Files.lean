import TypedLowering.Ir.Declaration
import TypedLowering.Lowering.Error
import TypedLowering.Session.Basic

/-!
# Compiling several files

The files of a session are lowered for any target. A file that fails is logged and does not stop the
others. Several threads may do this at a time, each with a file of its own; they share the journal
(`Task.Step`). A single thread lowers the files one after the other (`compileFiles`).
-/

namespace TypedLowering

/-- How a target lowers a file. -/
abbrev FileLowering (α : Type) :=
  SourceFile → Ir.File → Journal → Except LowerError α × Journal

/-- The entry of the log for the failure of a file. -/
def FileError.entry (e : FileError) : LogEntry :=
  ⟨.error, e.error.message, some "lowering", some e.file, e.error.location⟩

/-- Lowers one file. -/
def lowerFile {α : Type} (lower : FileLowering α) (settings : Settings) (path : String)
    (content : Ir.File) (journal : Journal) : Except FileError α × Journal :=
  match lower ⟨settings, path⟩ content journal with
  | (.ok result, journal) => (.ok result, journal)
  | (.error error, journal) => (.error ⟨path, error⟩, journal)

/-- Lowers one file and logs its failure. -/
def compileFile {α : Type} (lower : FileLowering α) (settings : Settings) (path : String)
    (content : Ir.File) (journal : Journal) : Except FileError α × Journal :=
  match lowerFile lower settings path content journal with
  | (.ok result, journal) => (.ok result, journal)
  | (.error e, journal) => (.error e, journal.add e.entry)

/-- Lowers the files in order. -/
def lowerFiles {α : Type} (lower : FileLowering α) (settings : Settings) :
    List (String × Ir.File) → Journal → List (Except FileError α) × Journal
  | [], journal => ([], journal)
  | (path, content) :: files, journal =>
    let (result, journal) := lowerFile lower settings path content journal
    let (results, journal) := lowerFiles lower settings files journal
    (result :: results, journal)

/-- Lowers the files in order, on a single thread, and logs their failures. -/
def compileFiles {α : Type} (lower : FileLowering α) (settings : Settings) :
    List (String × Ir.File) → Journal → List (Except FileError α) × Journal
  | [], journal => ([], journal)
  | (path, content) :: files, journal =>
    let (result, journal) := compileFile lower settings path content journal
    let (results, journal) := compileFiles lower settings files journal
    (result :: results, journal)

/-! ## Several threads -/

/-- A file that is being compiled: what is still to be noted, and what comes out in the end. -/
structure Task (α : Type) where
  notes : List Note
  result : Except FileError α

/-- The thread that compiles one of the files goes on. -/
inductive Task.Step {α : Type} : List (Task α) × Journal → List (Task α) × Journal → Prop
  | note {before after : List (Task α)} {note : Note} {rest : List Note}
      {result : Except FileError α} {journal : Journal} :
    Step (before ++ ⟨note :: rest, result⟩ :: after, journal)
      (before ++ ⟨(journal.start note).2 ++ rest, result⟩ :: after, (journal.start note).1)

end TypedLowering
