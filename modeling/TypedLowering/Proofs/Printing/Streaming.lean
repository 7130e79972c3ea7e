import TypedLowering.Printing.Program
import TypedLowering.Proofs.Printing.Rendering

/-!
# Programs through a writer

A printer whose text is taken away goes on as if it was not (`Printer.run_clear`), so a program may
be written part by part: the imports, and then statement by statement. A writer that never fails is
given what the program prints in memory, one whole part with each write
(`JavaScript.Program.emit_delivers`).
-/

namespace TypedLowering

/-- A part of a printed program: a text with its mappings. -/
structure Span where
  text : String
  mappings : List Mapping
  deriving DecidableEq, Repr

namespace Span

/-- The text and the mappings of parts that follow each other. -/
def join : List Span → String × List Mapping
  | [] => ("", [])
  | span :: spans => (span.text ++ (join spans).1, span.mappings ++ (join spans).2)

/-- One write, and the mappings of what was written. -/
def deliver {σ : Type} (writer : Writer σ) (s : σ) (span : Span) : σ :=
  span.mappings.foldl (fun s m => writer.addMapping m s) (writer.write span.text s).2

end Span

namespace Printer

/-- What the printer holds. -/
def span (p : Printer) : Span := ⟨p.out, p.mappings⟩

/-- The printer with a part in front of what it holds. -/
def behindSpan (p : Printer) (span : Span) : Printer :=
  { p with
    out := String.ofList (span.text.toList ++ p.out.toList)
    mappings := span.mappings ++ p.mappings }

/-- A text is printed the same behind a span. -/
theorem print_behindSpan (p : Printer) (span : Span) (text : String) :
    (p.behindSpan span).print text = (p.print text).behindSpan span := by
  simp [print, behindSpan, String.append_assoc]

/-- Text is put in behind the part in front as it is without it. -/
theorem insertAt_behindSpan (p q : Printer) (span : Span) (text : String) :
    (q.behindSpan span).insertAt (p.behindSpan span).place text =
      (q.insertAt p.place text).behindSpan span := by
  simp [insertAt, behindSpan, place, since, List.take_length_add_append, List.append_assoc]

/-- What was printed since a place is the same if a span is put in front of all. -/
theorem since_behindSpan (p q : Printer) (span : Span) :
    (q.behindSpan span).since (p.behindSpan span).place = q.since p.place := by
  simp [since, place, behindSpan]

mutual

/-- A piece is printed the same behind a span. -/
theorem put_behindSpan (span : Span) (p : Printer) : (x : Piece) →
    (p.behindSpan span).put x = (p.put x).behindSpan span
  | .text text => p.print_behindSpan span text
  | .mark loc => by simp [put, map, behindSpan]
  | .indent | .dedent => rfl
  | .margin => p.print_behindSpan span p.marginText
  | .guarded stmt => by
    rw [put, run_behindSpan span p stmt, since_behindSpan, insertAt_behindSpan, put]
    split <;> rfl

/-- What a printer prints does not depend on what it holds. -/
theorem run_behindSpan (span : Span) (p : Printer) : (xs : List Piece) →
    (p.behindSpan span).run xs = (p.run xs).behindSpan span
  | [] => rfl
  | x :: xs => by rw [run_cons, put_behindSpan, run_behindSpan span (p.put x) xs, run_cons]

end

/-- A printer prints behind what it holds just what it prints when this is taken away. -/
theorem run_clear (p : Printer) (xs : List Piece) :
    (p.run xs).out = p.out ++ (p.clear.run xs).out ∧
      (p.run xs).mappings = p.mappings ++ (p.clear.run xs).mappings ∧
      (p.run xs).clear = (p.clear.run xs).clear := by
  have hp : p.clear.behindSpan p.span = p := by simp [behindSpan, clear, span]
  have hrun := run_behindSpan p.span p.clear xs
  rw [hp] at hrun
  rw [hrun]
  exact ⟨by simp [behindSpan, span], rfl, rfl⟩

/-- The parts that printers hold that print the pieces one list after the other, and whose text is
taken away in between. -/
def spans (p : Printer) : List (List Piece) → List Span
  | [] => []
  | part :: parts => (p.clear.run part).span :: (p.clear.run part).spans parts

/-- What each part prints does not depend on what was printed and taken away before. -/
theorem spans_clear (p : Printer) (parts : List (List Piece)) :
    p.clear.spans parts = p.spans parts := by
  cases parts <;> rfl

/-- Each part has one span. -/
@[simp] theorem spans_length (p : Printer) (parts : List (List Piece)) :
    (p.spans parts).length = parts.length := by
  induction parts generalizing p with
  | nil => rfl
  | cons part parts ih => simp [spans, ih]

/-- The first spans are those of the first parts. -/
theorem spans_take (p : Printer) (parts : List (List Piece)) (n : Nat) :
    (p.spans parts).take n = p.spans (parts.take n) := by
  induction parts generalizing p n with
  | nil => simp [spans]
  | cons part parts ih =>
    cases n with
    | zero => rfl
    | succ n => simp [spans, ih]

/-- Taking the text away loses nothing and changes nothing of what follows. -/
theorem join_spans (p : Printer) (parts : List (List Piece)) :
    Span.join (p.spans parts) =
      ((p.clear.run parts.flatten).out, (p.clear.run parts.flatten).mappings) := by
  induction parts generalizing p with
  | nil => rfl
  | cons part parts ih =>
    obtain ⟨hout, hmappings, -⟩ := run_clear (p.clear.run part) parts.flatten
    rw [List.flatten_cons, run_append, hout, hmappings, spans, Span.join, ih]
    rfl

section
variable {σ : Type} {writer : Writer σ} (hok : ∀ text s, (writer.write text s).1 = .ok ())

include hok in
/-- A flush is one write, if there is something to write. -/
theorem flush_delivers {p : Printer} (h : p.isEmpty = false) (s : σ) :
    p.flush writer s = (.ok (), p.clear, p.span.deliver writer s) := by
  have hwrite : writer.write p.out s = (.ok (), (writer.write p.out s).2) :=
    Prod.ext (hok p.out s) rfl
  rw [flush, h, hwrite]
  rfl

end

end Printer

namespace Layout

/-- The lines of statements, one by one. -/
def stmtParts (sep : Separator) : Bool → List (List Piece) → List (List Piece)
  | _, [] => []
  | follows, stmt :: stmts => stmtLine sep follows stmt :: stmtParts sep true stmts

/-- Each statement is a part. -/
@[simp] theorem stmtParts_length (sep : Separator) (follows : Bool) (stmts : List (List Piece)) :
    (stmtParts sep follows stmts).length = stmts.length := by
  induction stmts generalizing follows with
  | nil => rfl
  | cons stmt stmts ih => simp [stmtParts, ih]

/-- The first parts are those of the first statements. -/
theorem stmtParts_take (sep : Separator) (follows : Bool) (stmts : List (List Piece)) (n : Nat) :
    (stmtParts sep follows stmts).take n = stmtParts sep follows (stmts.take n) := by
  induction stmts generalizing follows n with
  | nil => simp [stmtParts]
  | cons stmt stmts ih =>
    cases n with
    | zero => rfl
    | succ n => simp [stmtParts, ih]

/-- The parts of statements make up their lines. -/
theorem flatten_stmtParts (sep : Separator) (follows : Bool) (stmts : List (List Piece)) :
    (stmtParts sep follows stmts).flatten = stmtLines sep follows stmts := by
  induction stmts generalizing follows with
  | nil => rfl
  | cons stmt stmts ih => rw [stmtParts, List.flatten_cons, ih, stmtLines]

/-- A line prints at least its end. -/
theorem run_line_not_empty (p : Printer) (pieces : List Piece) :
    (p.run (line pieces)).isEmpty = false := by
  simp [line, Printer.run_append, Printer.put, Printer.print, Printer.isEmpty]

end Layout

namespace JavaScript

open Layout (stmtParts stmtLine flatten_stmtParts)

/-- The live statements give pieces one by one. -/
theorem livePieces_eq (sep : Separator) (stmts : List Stmt) :
    livePieces sep stmts = (live stmts).map fun s => (s.isConditional, s.pieces sep) := by
  induction stmts with
  | nil => rw [livePieces, live, List.filter_nil, List.map_nil]
  | cons s stmts ih =>
    rw [livePieces]
    cases h : s.isDead <;> simp [live, h, ih]

/-- Live statements are all live. -/
theorem live_take (stmts : List Stmt) (n : Nat) :
    live ((live stmts).take n) = (live stmts).take n := by
  rw [live, List.filter_eq_self]
  intro s hs
  exact (List.mem_filter.1 (List.mem_of_mem_take hs)).2

/-- Imports print something. -/
theorem importsPieces_not_empty (sep : Separator) (p : Printer) {imports : List ImportDecl}
    (h : imports ≠ []) : (p.run (importsPieces sep imports)).isEmpty = false := by
  rw [importsPieces, ← List.dropLast_concat_getLast h, List.flatMap_append, Printer.run_append,
    List.flatMap_singleton]
  exact Layout.run_line_not_empty _ _

/-- The parts that a program is written in: the imports, if there are any, and each live
statement. -/
def Program.parts (sep : Separator) (program : Program) : List (List Piece) :=
  (if program.imports = [] then [] else [importsPieces sep program.imports]) ++
    stmtParts sep false ((live program.body).map (·.pieces sep))

/-- The number of writes that the imports take. -/
def Program.importWrites (program : Program) : Nat :=
  if program.imports = [] then 0 else 1

namespace Program

variable (sep : Separator) (program : Program)

/-- A program is written in one part for the imports, if there are any, and one for each live
statement. -/
theorem parts_length :
    (program.parts sep).length = program.importWrites + (live program.body).length := by
  rw [parts, importWrites]
  split <;> simp [Nat.add_comm]

/-- The parts make up the program. -/
theorem flatten_parts : (program.parts sep).flatten = program.pieces sep := by
  rw [parts, pieces, stmtsPieces, livePieces_eq, List.map_map, List.flatten_append,
    flatten_stmtParts]
  split
  · rename_i h
    rw [h]
    rfl
  · rw [List.flatten_singleton]
    rfl

/-- The first parts of a program are the parts of a program with fewer statements. -/
theorem parts_take (k : Nat) :
    (program.parts sep).take (program.importWrites + k) =
      Program.parts sep { program with body := (live program.body).take k } := by
  rw [parts, parts, live_take, importWrites, List.map_take, ← Layout.stmtParts_take]
  split <;> simp [Nat.add_comm]

end Program

section
variable {σ : Type} {writer : Writer σ} (hok : ∀ text s, (writer.write text s).1 = .ok ())

include hok in
/-- Statements are written one by one. -/
theorem emitStmts_delivers (sep : Separator) (follows : Bool) (stmts : List (List Piece))
    (p : Printer) (hp : p.clear = p) (s : σ) :
    (emitStmts writer sep follows stmts p s).1 = .ok () ∧
      (emitStmts writer sep follows stmts p s).2.2 =
        (p.spans (stmtParts sep follows stmts)).foldl (Span.deliver writer) s := by
  induction stmts generalizing follows p s with
  | nil => exact ⟨rfl, rfl⟩
  | cons stmt stmts ih =>
    have hline : (p.run (stmtLine sep follows stmt)).isEmpty = false :=
      Layout.run_line_not_empty _ _
    rw [emitStmts, emitPieces, Printer.flush_delivers hok hline]
    obtain ⟨hres, hstate⟩ := ih true (p.run (stmtLine sep follows stmt)).clear rfl
      (Span.deliver writer s (p.run (stmtLine sep follows stmt)).span)
    refine ⟨hres, hstate.trans ?_⟩
    rw [stmtParts, Printer.spans, List.foldl_cons, hp, Printer.spans_clear]

include hok in
/-- A program is written part by part. -/
theorem Program.emit_delivers_parts (program : Program) (options : PrintOptions) (s : σ) :
    (program.emit writer options s).1 = .ok () ∧
      (program.emit writer options s).2.2 =
        ((Printer.start options).spans (program.parts options.separator)).foldl
          (Span.deliver writer) s := by
  let p := (Printer.start options).run (importsPieces options.separator program.imports)
  have hstmts := emitStmts_delivers hok options.separator false
    ((live program.body).map (·.pieces options.separator))
  have hlive : (livePieces options.separator program.body).map (·.2) =
      (live program.body).map (·.pieces options.separator) := by
    rw [livePieces_eq, List.map_map]
    rfl
  rw [emit, emitPieces, parts, hlive]
  by_cases himports : program.imports = []
  · -- There is nothing to write before the statements.
    rw [himports]
    exact hstmts (.start options) rfl s
  · obtain ⟨hres, hstate⟩ := hstmts p.clear rfl (p.span.deliver writer s)
    rw [Printer.flush_delivers hok (importsPieces_not_empty _ _ himports), if_neg himports]
    refine ⟨hres, hstate.trans ?_⟩
    rw [List.singleton_append, Printer.spans, List.foldl_cons, Printer.spans_clear]
    rfl

/-- A writer whose writes succeed is given what the program prints in memory, with one write for the
imports, if there are any, and one for each live statement. What it was given after the imports and
`k` statements is what a program of just these prints, so no write ends inside of one. -/
theorem Program.emit_delivers (program : Program) (options : PrintOptions) {σ : Type}
    (writer : Writer σ) (hok : ∀ text s, (writer.write text s).1 = .ok ()) (s : σ) :
    ∃ spans : List Span,
      (program.emit writer options s).1 = .ok () ∧
      (program.emit writer options s).2.2 = spans.foldl (Span.deliver writer) s ∧
      Span.join spans = program.print options ∧
      spans.length = (if program.imports = [] then 0 else 1) + (live program.body).length ∧
      ∀ k, Span.join (spans.take ((if program.imports = [] then 0 else 1) + k)) =
        Program.print { program with body := (live program.body).take k } options := by
  obtain ⟨hres, hstate⟩ := emit_delivers_parts hok program options s
  refine ⟨_, hres, hstate, ?_, ?_, fun k => ?_⟩
  · rw [Printer.join_spans, flatten_parts]
    rfl
  · rw [Printer.spans_length, parts_length]
    rfl
  · have htake := parts_take options.separator program k
    rw [importWrites] at htake
    rw [Printer.spans_take, htake, Printer.join_spans, flatten_parts]
    rfl

/-- A program with an import, a statement that is dead and one that is not. -/
def greeting : Program where
  imports := [⟨"./greet.js", some "greet", none, []⟩]
  body := [⟨none, .expr ⟨none, .ident "greet"⟩⟩,
    ⟨none, .expr ⟨none, .call ⟨none, .ident "greet"⟩ []⟩⟩]

/-- Two parts are collected in memory for it. -/
theorem greeting_delivers :
    (∀ text s, (Collected.writer.write text s).1 = .ok ()) ∧
      ∃ spans : List Span,
        (greeting.emit Collected.writer .default .empty).1 = .ok () ∧
        (greeting.emit Collected.writer .default .empty).2.2 =
          spans.foldl (Span.deliver Collected.writer) .empty ∧
        Span.join spans = greeting.print .default ∧
        spans.length = 2 := by
  have hok : ∀ text s, (Collected.writer.write text s).1 = .ok () := fun _ _ => rfl
  obtain ⟨spans, hres, hstate, hjoin, hlength, -⟩ :=
    Program.emit_delivers greeting .default Collected.writer hok .empty
  exact ⟨hok, spans, hres, hstate, hjoin, hlength⟩

end

end JavaScript

end TypedLowering
