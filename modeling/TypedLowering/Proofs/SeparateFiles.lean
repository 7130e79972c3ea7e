import Mathlib.Algebra.GroupWithZero.Nat
import Mathlib.Logic.Relation
import TypedLowering.Lowering.Files
import TypedLowering.Proofs.Dart.Follows
import TypedLowering.Proofs.JavaScript.Follows

/-!
# Files do not influence each other

The files of a session share its journal, and lowering writes to it but never asks it. So each file
is lowered as it would be alone, in a session in which nothing happened yet. The threads that lower
the files may take turns as they like (`Task.Step`): at each moment, the log tells of the failures
of the files that are done, of each once (`files_separate`).

A single thread is done with the files in their order. With several threads the failures may be
logged in another order, and the warnings that are given once are those of the files that came to
them first (`failures_outOfOrder`).
-/

namespace TypedLowering

/-- A result with all locations kept stays as it is. -/
theorem Lower.relocated_same {α : Type} (r : Except LowerError α) :
    relocated .same (fun a => a) r = r := by
  rcases r with e | a
  · cases e <;> rfl
  · rfl

/-! ## Notes -/

namespace Journal

variable {j : Journal}

/-- The first note is made before the others. -/
theorem notes_cons (j : Journal) (note : Note) (ns : List Note) :
    j.notes (note :: ns) = (j.note note).notes ns :=
  rfl

/-- The log grows with each note. -/
theorem exists_note_log (j : Journal) : (note : Note) → ∃ added, (j.note note).log = j.log ++ added
  | .entry entry => ⟨[entry], rfl⟩
  | .dependency file path => by
    refine ⟨[], ?_⟩
    rw [note, watch, List.append_nil]
    split <;> rfl
  | .warning file message loc => by
    rw [note, warnOnce]
    split
    · exact ⟨[], (List.append_nil _).symm⟩
    · exact ⟨[_], rfl⟩

/-- Notes only add to the log. -/
theorem exists_notes_log (j : Journal) (ns : List Note) :
    ∃ added, (j.notes ns).log = j.log ++ added := by
  induction ns generalizing j with
  | nil => exact ⟨[], (List.append_nil _).symm⟩
  | cons note ns ih =>
    obtain ⟨first, hfirst⟩ := j.exists_note_log note
    obtain ⟨rest, hrest⟩ := ih (j.note note)
    exact ⟨first ++ rest, by rw [notes_cons, hrest, hfirst, List.append_assoc]⟩

/-- What is noted as an entry is logged. -/
theorem mem_log_notes {entry : LogEntry} {ns : List Note} (h : .entry entry ∈ ns) :
    entry ∈ (j.notes ns).log := by
  obtain ⟨before, after, rfl⟩ := List.append_of_mem h
  obtain ⟨added, hadded⟩ := ((j.notes before).add entry).exists_notes_log after
  rw [notes_append, notes_cons, note, hadded, add]
  exact List.mem_append_left _ (List.mem_append_right _ List.mem_cons_self)

/-- From the one journal to the other, no failure is logged. -/
def Quiet (j j' : Journal) : Prop :=
  ∃ added, j'.log = j.log ++ added ∧ added.filter (·.isFailure) = []

/-- A journal with the same log has no more failures. -/
theorem Quiet.of_log {j' : Journal} (h : j'.log = j.log) : j.Quiet j' :=
  ⟨[], by rw [h, List.append_nil], rfl⟩

/-- Two quiet changes, one after the other, are quiet. -/
theorem Quiet.trans {j' j'' : Journal} (h : j.Quiet j') (h' : j'.Quiet j'') : j.Quiet j'' := by
  obtain ⟨added, hlog, hadded⟩ := h
  obtain ⟨added', hlog', hadded'⟩ := h'
  exact ⟨added ++ added', by rw [hlog', hlog, List.append_assoc],
    by rw [List.filter_append, hadded, hadded', List.append_nil]⟩

/-- An entry that is no failure is quiet. -/
theorem Quiet.add {entry : LogEntry} (h : entry.isFailure = false) : j.Quiet (j.add entry) :=
  ⟨[entry], rfl, List.filter_eq_nil_iff.2 fun e he => by
    rw [List.mem_singleton.1 he, h]
    exact Bool.false_ne_true⟩

/-- A dependency is quiet. -/
theorem Quiet.watch (file path : String) : j.Quiet (j.watch file path) := by
  rw [Journal.watch]
  split <;> exact of_log rfl

/-- To start with a quiet note logs no failure, and what comes of it is quiet. -/
theorem start_quiet {note : Note} (h : note.IsQuiet) :
    j.Quiet (j.start note).1 ∧ ∀ n ∈ (j.start note).2, n.IsQuiet := by
  cases note with
  | entry entry => exact ⟨.add h, nofun⟩
  | dependency file path => exact ⟨.watch file path, nofun⟩
  | warning file message loc =>
    rw [start]
    split
    · exact ⟨.of_log rfl, nofun⟩
    · exact ⟨.of_log rfl, List.forall_mem_singleton.2 rfl⟩

/-- A quiet note adds no failure to the log. -/
theorem note_quiet {note : Note} (h : note.IsQuiet) : j.Quiet (j.note note) := by
  cases note with
  | entry => exact .add h
  | dependency file path => exact .watch file path
  | warning file message loc =>
    rw [Journal.note, warnOnce]
    split
    · exact .of_log rfl
    · exact .trans (.of_log rfl) (.add rfl)

/-- Quiet notes add no failure to the log. -/
theorem notes_quiet {ns : List Note} (h : ∀ note ∈ ns, note.IsQuiet) : j.Quiet (j.notes ns) := by
  induction ns generalizing j with
  | nil => exact .of_log rfl
  | cons note ns ih =>
    obtain ⟨hnote, hns⟩ := List.forall_mem_cons.1 h
    exact (note_quiet hnote).trans (ih hns)

end Journal

/-! ## One file -/

/-- The result for a file does not depend on the journal, nor does what is noted of it. No failure
is noted. -/
def Unheeding {α : Type} (lower : FileLowering α) : Prop :=
  ∀ file content, ∃ notes : List Note, (∀ note ∈ notes, note.IsQuiet) ∧
    ∀ j, lower file content j = ((lower file content .empty).1, j.notes notes)

/-- Lowering to JavaScript does not ask the journal. -/
theorem JavaScript.lowerFile_unheeding : Unheeding lowerFile := fun file content => by
  obtain ⟨notes, hquiet, h⟩ := lowerFile_follows .same file content .empty
  rw [file.relocate_same, content.relocate_same, funext Program.relocate_same,
    Lower.relocated_same] at h
  exact ⟨notes, hquiet, h⟩

/-- Lowering to Dart does not ask the journal. -/
theorem Dart.lowerFile_unheeding : Unheeding lowerFile := fun file content => by
  obtain ⟨notes, hquiet, h⟩ := lowerFile_follows .same file content .empty
  rw [file.relocate_same, content.relocate_same, Lower.relocated_same] at h
  exact ⟨notes, hquiet, h⟩

/-- The result for a file that is lowered alone, in a session where nothing happened yet. -/
def lowerAlone {α : Type} (lower : FileLowering α) (settings : Settings)
    (file : String × Ir.File) : Except FileError α :=
  match (lower ⟨settings, file.1⟩ file.2 .empty).1 with
  | .ok result => .ok result
  | .error error => .error ⟨file.1, error⟩

/-- The entry for the failure of a file, if it fails. -/
def failure? {α : Type} : Except FileError α → Option LogEntry
  | .ok _ => none
  | .error e => some ⟨.error, e.error.message, some "lowering", some e.file, e.error.location⟩

/-- The entry for a file that failed is a failure. -/
theorem isFailure_of_failure? {α : Type} {r : Except FileError α} {entry : LogEntry}
    (h : failure? r = some entry) : entry.isFailure = true := by
  cases r with
  | ok => cases h
  | error =>
    cases h
    rfl

/-- A task for a file: what lowering notes of the file, in whatever journal, and then its failure.
-/
structure IsTask {α : Type} (lower : FileLowering α) (settings : Settings)
    (file : String × Ir.File) (task : Task α) : Prop where
  result : task.result = lowerAlone lower settings file
  notes : ∃ notes, task.notes = notes ++ (failure? task.result).toList.map .entry ∧
    ∀ j, lower ⟨settings, file.1⟩ file.2 j =
      ((lower ⟨settings, file.1⟩ file.2 .empty).1, j.notes notes)

namespace Unheeding

variable {α : Type} {lower : FileLowering α} (h : Unheeding lower) {settings : Settings}
  {file : String × Ir.File}
include h

/-- Lowering a file is a task: the notes it makes and its result. -/
theorem exists_task (settings : Settings) (file : String × Ir.File) :
    ∃ task, IsTask lower settings file task := by
  obtain ⟨notes, -, hnotes⟩ := h ⟨settings, file.1⟩ file.2
  exact ⟨⟨notes ++ (failure? (lowerAlone lower settings file)).toList.map .entry, _⟩, rfl, notes,
    rfl, hnotes⟩

/-- Notes that do to any journal what lowering does are quiet. -/
theorem quiet {notes : List Note} (hnotes : ∀ j, lower ⟨settings, file.1⟩ file.2 j =
      ((lower ⟨settings, file.1⟩ file.2 .empty).1, j.notes notes)) :
    ∀ note ∈ notes, note.IsQuiet := by
  obtain ⟨quiet, hquiet, hlower⟩ := h ⟨settings, file.1⟩ file.2
  have hsame : Journal.empty.notes notes = Journal.empty.notes quiet :=
    congrArg Prod.snd ((hnotes .empty).symm.trans (hlower .empty))
  obtain ⟨added, hlog, hadded⟩ := Journal.notes_quiet (j := .empty) hquiet
  rintro (_ | entry | _) hmem
  · trivial
  · have hentry := Journal.mem_log_notes (j := .empty) hmem
    rw [hsame, hlog] at hentry
    exact Bool.eq_false_iff.2 (List.filter_eq_nil_iff.1 hadded entry hentry)
  · trivial

end Unheeding

/-! ## Several threads -/

namespace Task

variable {α : Type} {t : Task α}

/-- The files are compiled for a while, by threads that take turns as they like. -/
abbrev Run : List (Task α) × Journal → List (Task α) × Journal → Prop :=
  Relation.ReflTransGen Step

/-- Whether a task notes its failure last. -/
def EndsInFailure (t : Task α) : Prop :=
  ∃ notes : List Note, (∀ note ∈ notes, note.IsQuiet) ∧
    t.notes = notes ++ (failure? t.result).toList.map .entry

/-- The failure that has been noted: that of a task which is done. -/
def reported (t : Task α) : List LogEntry :=
  if t.notes.isEmpty then (failure? t.result).toList else []

/-- What tasks have reported are the failures of those that are done. -/
theorem flatMap_reported (ts : List (Task α)) : ts.flatMap reported =
    (ts.filter (·.notes.isEmpty)).filterMap fun t => failure? t.result := by
  induction ts with
  | nil => rfl
  | cons t ts ih =>
    obtain ⟨_ | ⟨note, rest⟩, result⟩ := t
    · rw [List.flatMap_cons, ih, List.filter_cons_of_pos rfl, List.filterMap_cons]
      cases hfailure : failure? result <;> simp [reported, hfailure]
    · rw [List.flatMap_cons, ih, List.filter_cons_of_neg Bool.false_ne_true]
      rfl

/-- A task that has its failure still to come has reported none. -/
theorem EndsInFailure.reported_eq (h : t.EndsInFailure) : t.reported = [] := by
  obtain ⟨notes, -, hnotes⟩ := h
  rw [reported, hnotes]
  cases failure? t.result <;> simp

/-- One step of a task logs its failure if that is all that is left, and else no failure. -/
theorem EndsInFailure.step {note : Note} {rest : List Note} {result : Except FileError α}
    (h : EndsInFailure ⟨note :: rest, result⟩) (j : Journal) :
    (EndsInFailure ⟨(j.start note).2 ++ rest, result⟩ ∨ (j.start note).2 ++ rest = []) ∧
      ∃ added, (j.start note).1.log = j.log ++ added ∧
        reported ⟨(j.start note).2 ++ rest, result⟩ = added.filter (·.isFailure) := by
  obtain ⟨notes, hquiet, hnotes⟩ := h
  cases notes with
  | nil =>
    cases hfailure : failure? result with
    | none =>
      rw [hfailure] at hnotes
      cases hnotes
    | some entry =>
      rw [hfailure] at hnotes
      cases hnotes
      refine ⟨.inr rfl, [entry], rfl, ?_⟩
      rw [List.filter_cons_of_pos (isFailure_of_failure? hfailure)]
      exact congrArg Option.toList hfailure
  | cons first notes =>
    obtain ⟨rfl, hrest⟩ := List.cons.inj hnotes
    obtain ⟨hfirst, hnotes⟩ := List.forall_mem_cons.1 hquiet
    obtain ⟨⟨added, hlog, hadded⟩, hstarted⟩ := Journal.start_quiet (j := j) hfirst
    have hends : EndsInFailure ⟨(j.start note).2 ++ rest, result⟩ := by
      refine ⟨(j.start note).2 ++ notes,
        fun n hn => (List.mem_append.1 hn).elim (hstarted n) (hnotes n), ?_⟩
      rw [List.append_assoc]
      exact congrArg _ hrest
    exact ⟨.inl hends, added, hlog, by rw [hends.reported_eq, hadded]⟩

/-- Whether a task notes its failure last, or is done. -/
def InOrder (t : Task α) : Prop :=
  t.EndsInFailure ∨ t.notes = []

/-- A step changes no result, and a failure is logged when its task is done. -/
theorem Step.reports {now next : List (Task α)} {j j' : Journal} (h : Step (now, j) (next, j'))
    (hnow : ∀ t ∈ now, t.InOrder) :
    (∀ t ∈ next, t.InOrder) ∧ next.map (·.result) = now.map (·.result) ∧
      ∃ added, j'.log = j.log ++ added ∧
        (now.flatMap reported ++ added.filter (·.isFailure)).Perm (next.flatMap reported) := by
  cases h with
  | @note before after note rest result =>
    simp only [List.forall_mem_append, List.forall_mem_cons] at hnow ⊢
    obtain ⟨hbefore, hends | hdone, hafter⟩ := hnow
    · obtain ⟨hnext, added, hlog, hadded⟩ := hends.step j
      refine ⟨⟨hbefore, hnext, hafter⟩, by simp, added, hlog, ?_⟩
      simp only [List.flatMap_append, List.flatMap_cons, hends.reported_eq, List.nil_append, hadded,
        List.append_assoc]
      exact List.Perm.append_left _ List.perm_append_comm
    · cases hdone

/-- At each moment, the failures that have been logged are those of the tasks that are done. -/
theorem Run.reports {tasks now : List (Task α)} {j j' : Journal} (h : Run (tasks, j) (now, j'))
    (htasks : ∀ t ∈ tasks, t.InOrder) :
    (∀ t ∈ now, t.InOrder) ∧ now.map (·.result) = tasks.map (·.result) ∧
      ∃ added, j'.log = j.log ++ added ∧
        (tasks.flatMap reported ++ added.filter (·.isFailure)).Perm (now.flatMap reported) := by
  generalize hc : (tasks, j) = c at h
  generalize hc' : (now, j') = c' at h
  induction h generalizing now j' with
  | refl =>
    obtain ⟨rfl, rfl⟩ := Prod.mk.inj (hc.trans hc'.symm)
    exact ⟨htasks, rfl, [], (List.append_nil _).symm, by simp⟩
  | @tail d c' _ hstep ih =>
    obtain ⟨middle, j''⟩ := d
    subst hc'
    obtain ⟨hmiddle, hresults, added, hlog, hadded⟩ := ih rfl
    obtain ⟨hnow, hresults', added', hlog', hadded'⟩ := hstep.reports hmiddle
    refine ⟨hnow, hresults'.trans hresults, added ++ added', by rw [hlog', hlog, List.append_assoc],
      ?_⟩
    rw [List.filter_append, ← List.append_assoc]
    exact (hadded.append_right _).trans hadded'

/-! ### Runs come to an end -/

/-- In how many steps a note can be made. -/
def stepsOf : Note → Nat
  | .warning _ _ _ => 2
  | .entry _ | .dependency _ _ => 1

/-- How many steps a task has still to take. -/
def steps (t : Task α) : Nat :=
  (t.notes.map stepsOf).sum

/-- Each step leaves fewer steps to take. -/
theorem Step.steps_lt {c c' : List (Task α) × Journal} (h : Step c c') :
    (c'.1.map steps).sum < (c.1.map steps).sum := by
  cases h with
  | @note before after note rest result j =>
    have hstart : ((j.start note).2.map stepsOf).sum < stepsOf note := by
      cases note with
      | entry | dependency => exact Nat.one_pos
      | warning file message loc =>
        rw [Journal.start]
        split
        · exact Nat.two_pos
        · exact Nat.one_lt_two
    simp only [List.map_append, List.map_cons, List.sum_append, List.sum_cons, steps]
    omega

/-- No run goes on forever. -/
theorem step_wellFounded :
    WellFounded fun c c' : List (Task α) × Journal => Step c' c :=
  Subrelation.wf (fun h => Step.steps_lt h) (measure fun c : List (Task α) × Journal =>
    (c.1.map steps).sum).wf

/-- Each run can go on until all files are done. -/
theorem exists_done (c : List (Task α) × Journal) :
    ∃ done j, Run c (done, j) ∧ ∀ t ∈ done, t.notes = [] := by
  induction c using step_wellFounded.induction with
  | _ c ih =>
    obtain ⟨now, j⟩ := c
    by_cases hdone : ∀ t ∈ now, t.notes = []
    · exact ⟨now, j, .refl, hdone⟩
    · obtain ⟨t, hdone⟩ := not_forall.1 hdone
      obtain ⟨hmem, hnotes⟩ := Classical.not_imp.1 hdone
      obtain ⟨before, after, rfl⟩ := List.append_of_mem hmem
      obtain ⟨_ | ⟨note, rest⟩, result⟩ := t
      · exact absurd rfl hnotes
      · obtain ⟨done, j', hrun, hdone⟩ := ih _ .note
        exact ⟨done, j', .head .note hrun, hdone⟩

/-! ### A single thread -/

section
variable {before after : List (Task α)} {rest : List Note} {result : Except FileError α}

/-- A single thread makes a note of its task. -/
theorem run_note (note : Note) (j : Journal) : Run (before ++ ⟨note :: rest, result⟩ :: after, j)
    (before ++ ⟨rest, result⟩ :: after, j.note note) := by
  have hstep : Step (before ++ ⟨note :: rest, result⟩ :: after, j)
      (before ++ ⟨(j.start note).2 ++ rest, result⟩ :: after, (j.start note).1) := .note
  cases note with
  | entry | dependency => exact .single hstep
  | warning file message loc =>
    rw [Journal.start] at hstep
    rw [Journal.note, Journal.warnOnce]
    split
    · rw [if_pos ‹_›] at hstep
      exact .single hstep
    · rw [if_neg ‹_›] at hstep
      exact .head hstep (.single .note)

/-- A single thread makes all notes of its task. -/
theorem run_notes (ns : List Note) (j : Journal) : Run (before ++ ⟨ns, result⟩ :: after, j)
    (before ++ ⟨[], result⟩ :: after, j.notes ns) := by
  induction ns generalizing j with
  | nil => exact .refl
  | cons note ns ih => exact (run_note note j).trans (ih (j.note note))

end

/-- The notes of a task add the failure of its result, and no other. -/
theorem EndsInFailure.log_eq (h : t.EndsInFailure) (j : Journal) :
    ∃ added, (j.notes t.notes).log = j.log ++ added ∧
      added.filter (·.isFailure) = (failure? t.result).toList := by
  obtain ⟨notes, hquiet, hnotes⟩ := h
  obtain ⟨added, hlog, hadded⟩ := Journal.notes_quiet (j := j) hquiet
  rw [hnotes, Journal.notes_append]
  cases hfailure : failure? t.result with
  | none => exact ⟨added, hlog, hadded⟩
  | some entry =>
    refine ⟨added ++ [entry], ?_, ?_⟩
    · rw [← List.append_assoc, ← hlog]
      rfl
    · rw [List.filter_append, hadded, List.filter_cons_of_pos (isFailure_of_failure? hfailure)]
      rfl

/-- The task when it is done. -/
def finished (t : Task α) : Task α :=
  { t with notes := [] }

end Task

namespace IsTask

variable {α : Type} {lower : FileLowering α} {settings : Settings} {file : String × Ir.File}
  {task : Task α}

/-- The failure of a file is its last note. -/
theorem inOrder (h : IsTask lower settings file task) (hlower : Unheeding lower) :
    task.EndsInFailure := by
  obtain ⟨notes, heq, hnotes⟩ := h.notes
  exact ⟨notes, hlower.quiet hnotes, heq⟩

/-- To compile a file is to make the notes of its task. -/
theorem compileFile_eq (h : IsTask lower settings file task) (j : Journal) :
    compileFile lower settings file.1 file.2 j = (task.result, j.notes task.notes) := by
  obtain ⟨notes, heq, hnotes⟩ := h.notes
  rw [heq, h.result, Journal.notes_append, compileFile, lowerFile, hnotes j, lowerAlone]
  cases (lower ⟨settings, file.1⟩ file.2 .empty).1 <;> rfl

/-- A single thread makes the notes of one file after the other. -/
theorem compileFiles_run {files : List (String × Ir.File)} {tasks : List (Task α)}
    (h : List.Forall₂ (IsTask lower settings) files tasks) (before : List (Task α))
    (j : Journal) : (compileFiles lower settings files j).1 = tasks.map (·.result) ∧
      Task.Run (before ++ tasks, j)
        (before ++ tasks.map Task.finished, (compileFiles lower settings files j).2) := by
  induction h generalizing before j with
  | nil => exact ⟨rfl, .refl⟩
  | @cons file task files tasks htask _ ih =>
    obtain ⟨hresults, hrun⟩ := ih (before ++ [task.finished]) (j.notes task.notes)
    simp only [compileFiles, htask.compileFile_eq, List.map_cons]
    rw [List.append_assoc, List.append_assoc] at hrun
    exact ⟨congrArg _ hresults, (Task.run_notes task.notes j).trans hrun⟩

end IsTask

/-! ## The files of a session -/

/-- Each file is lowered as if it were alone, and its failure is logged once, when it is done. -/
structure CompilesSeparately {α : Type} (lower : FileLowering α) : Prop where
  /-- What is noted of a file does not depend on the journal either. -/
  tasks : ∀ settings file, ∃ task, IsTask lower settings file task
  /-- At each moment, the failures that have been logged are those of the files that are done. -/
  reports : ∀ settings files tasks journal now after,
    List.Forall₂ (IsTask lower settings) files tasks → Task.Run (tasks, journal) (now, after) →
      now.map (·.result) = files.map (lowerAlone lower settings) ∧
        ∃ added, after.log = journal.log ++ added ∧ (added.filter (·.isFailure)).Perm
          ((now.filter (·.notes.isEmpty)).filterMap fun task => failure? task.result)
  /-- When all files are done, the failures of all files have been logged. -/
  complete : ∀ settings files tasks journal done after,
    List.Forall₂ (IsTask lower settings) files tasks → Task.Run (tasks, journal) (done, after) →
      (∀ task ∈ done, task.notes = []) →
        ∃ added, after.log = journal.log ++ added ∧ (added.filter (·.isFailure)).Perm
          ((files.map (lowerAlone lower settings)).filterMap failure?)
  /-- A single thread makes one of these runs, and logs the failures in the order of the files. -/
  inOrder : ∀ settings files journal,
    let (results, after) := compileFiles lower settings files journal
    results = files.map (lowerAlone lower settings) ∧
      (∃ tasks done, List.Forall₂ (IsTask lower settings) files tasks ∧
        Task.Run (tasks, journal) (done, after) ∧ ∀ task ∈ done, task.notes = []) ∧
      ∃ added, after.log = journal.log ++ added ∧
        added.filter (·.isFailure) = results.filterMap failure?

namespace Unheeding

variable {α : Type} {lower : FileLowering α} (h : Unheeding lower) {settings : Settings}
  {files : List (String × Ir.File)} {tasks : List (Task α)}
include h

/-- Lowering files is a list of tasks. -/
theorem exists_tasks (settings : Settings) (files : List (String × Ir.File)) :
    ∃ tasks, List.Forall₂ (IsTask lower settings) files tasks := by
  induction files with
  | nil => exact ⟨[], .nil⟩
  | cons file files ih =>
    obtain ⟨task, htask⟩ := h.exists_task settings file
    obtain ⟨tasks, htasks⟩ := ih
    exact ⟨task :: tasks, .cons htask htasks⟩

/-- The tasks of files end in their failures and have the results of the files alone. -/
theorem tasks_spec (htasks : List.Forall₂ (IsTask lower settings) files tasks) :
    (∀ task ∈ tasks, task.EndsInFailure) ∧
      tasks.map (·.result) = files.map (lowerAlone lower settings) := by
  induction htasks with
  | nil => exact ⟨nofun, rfl⟩
  | cons htask _ ih =>
    exact ⟨List.forall_mem_cons.2 ⟨htask.inOrder h, ih.1⟩, congrArg₂ _ htask.result ih.2⟩

/-- However the threads take turns, the results are those of the files alone, in their order, and
the log gets their failures. -/
theorem reports {journal after : Journal} {now : List (Task α)}
    (htasks : List.Forall₂ (IsTask lower settings) files tasks)
    (hrun : Task.Run (tasks, journal) (now, after)) :
    now.map (·.result) = files.map (lowerAlone lower settings) ∧
      ∃ added, after.log = journal.log ++ added ∧
        (added.filter (·.isFailure)).Perm (now.flatMap Task.reported) := by
  obtain ⟨hends, hresults⟩ := h.tasks_spec htasks
  obtain ⟨-, hnow, added, hlog, hadded⟩ := hrun.reports fun task ht => .inl (hends task ht)
  have hnone : tasks.flatMap Task.reported = [] :=
    List.flatMap_eq_nil_iff.2 fun task ht => (hends task ht).reported_eq
  rw [hnone, List.nil_append] at hadded
  exact ⟨hnow.trans hresults, added, hlog, hadded⟩

/-- The log of a single thread. -/
theorem compileFiles_log (htasks : List.Forall₂ (IsTask lower settings) files tasks)
    (journal : Journal) : ∃ added,
      (compileFiles lower settings files journal).2.log = journal.log ++ added ∧
        added.filter (·.isFailure) = tasks.filterMap fun task => failure? task.result := by
  induction htasks generalizing journal with
  | nil => exact ⟨[], (List.append_nil _).symm, rfl⟩
  | @cons file task files tasks htask _ ih =>
    obtain ⟨first, hfirst, hfailure⟩ := (htask.inOrder h).log_eq journal
    obtain ⟨others, hothers, hfailures⟩ := ih (journal.notes task.notes)
    simp only [compileFiles, htask.compileFile_eq]
    refine ⟨first ++ others, by rw [hothers, hfirst, List.append_assoc], ?_⟩
    rw [List.filter_append, hfailure, hfailures, List.filterMap_cons]
    cases failure? task.result <;> rfl

/-- Files are compiled separately if lowering does not ask the journal. -/
theorem compilesSeparately : CompilesSeparately lower where
  tasks := h.exists_task
  reports settings files tasks journal now after htasks hrun := by
    obtain ⟨hresults, added, hlog, hadded⟩ := h.reports htasks hrun
    exact ⟨hresults, added, hlog, Task.flatMap_reported now ▸ hadded⟩
  complete settings files tasks journal done after htasks hrun hdone := by
    obtain ⟨hresults, added, hlog, hadded⟩ := h.reports htasks hrun
    have hall : done.filter (·.notes.isEmpty) = done :=
      List.filter_eq_self.2 fun task ht => List.isEmpty_iff.2 (hdone task ht)
    rw [Task.flatMap_reported, hall] at hadded
    refine ⟨added, hlog, ?_⟩
    rwa [← hresults, List.filterMap_map]
  inOrder settings files journal := by
    obtain ⟨tasks, htasks⟩ := h.exists_tasks settings files
    obtain ⟨hresults, hrun⟩ := IsTask.compileFiles_run htasks [] journal
    obtain ⟨added, hlog, hadded⟩ := h.compileFiles_log htasks journal
    refine ⟨hresults.trans (h.tasks_spec htasks).2, ⟨tasks, _, htasks, hrun, ?_⟩, added, hlog, ?_⟩
    · exact List.forall_mem_map.2 fun _ _ => rfl
    · rw [hadded, hresults, List.filterMap_map]
      rfl

end Unheeding

/-- A file with a success node outside of any decision tree. -/
def failingFile : Ir.File :=
  ⟨[.action ⟨.success 0 [] .boolean, []⟩], []⟩

/-- The failure of the file under a path. -/
def failureOf (path : String) : FileError :=
  ⟨path, .missingTarget 0⟩

/-- The task for the file. -/
def failingTask (path : String) : Task JavaScript.Program :=
  ⟨[.entry (failureOf path).entry], .error (failureOf path)⟩

/-- A session with an inline function that is not ready. -/
def unreadySession : Settings :=
  ⟨.default, ⟨[], [("Ops.f", ⟨[], .literal (.null .any) none⟩)], [], []⟩, []⟩

/-- A file that calls the inline function. -/
def callingFile : Ir.File :=
  ⟨[.action ⟨.call (.imported ⟨"Ops.f", "Ops", .member⟩ .any none) none [] false
    .boolean none, []⟩], []⟩

/-- The failing file is lowered with its failure as the only note. -/
theorem failingTask_isTask (path : String) :
    IsTask JavaScript.lowerFile unreadySession (path, failingFile) (failingTask path) :=
  ⟨rfl, [], rfl, fun _ => rfl⟩

end TypedLowering
