import TypedLowering.Printing.Code
import TypedLowering.Printing.Printer
import TypedLowering.SourceMap.Render

/-!
# Writing printed code

A printer is flushed to a writer: the text first, and once that is written the mappings. When the
text cannot be written, the printer keeps everything, and the output so far is not complete.
-/

namespace TypedLowering

/-- Output that could not be written, with the reason that the sink gave. -/
structure EmitError where
  reason : String
  deriving DecidableEq, Repr, Inhabited

/-- The wording of a failure to write. -/
def EmitError.message (e : EmitError) : String :=
  "failed to write output: " ++ e.reason

/-- A sink for text and mappings, with the state `σ`. -/
structure Writer (σ : Type) where
  write : String → σ → Except EmitError Unit × σ
  addMapping : Mapping → σ → σ

/-- Writes the text and hands over the mappings, unless there are none of either. -/
def Printer.flush {σ : Type} (writer : Writer σ) (p : Printer) (s : σ) :
    Except EmitError Unit × Printer × σ :=
  if p.isEmpty then (.ok (), p, s)
  else
    match writer.write p.out s with
    | (.error e, s) => (.error e, p, s)
    | (.ok (), s) => (.ok (), p.clear, p.mappings.foldl (fun s m => writer.addMapping m s) s)

/-- Text and mappings that are kept in memory. -/
structure Collected where
  text : String
  mappings : List Mapping
  /-- How many times something was written. -/
  writes : Nat
  deriving Inhabited

namespace Collected

/-- Nothing was written yet. -/
def empty : Collected := ⟨"", [], 0⟩

/-- The writer that keeps everything in memory. -/
def writer : Writer Collected where
  write text s := (.ok (), { s with text := s.text ++ text, writes := s.writes + 1 })
  addMapping m s := { s with mappings := s.mappings ++ [m] }

/-- The source map of the collected text. -/
def sourceMap (c : Collected) (source : String) : SourceMap := ⟨source, c.mappings⟩

end Collected

/-- A sink for bytes with the state `σ`. What it cannot do it explains. -/
structure ByteSink (σ : Type) where
  /-- Takes all of the bytes; on failure it may have taken some. -/
  writeAll : ByteArray → σ → Except String Unit × σ
  flush : σ → Except String Unit × σ

/-- A sink for bytes together with the source map of what went through. -/
structure Through (σ : Type) where
  sink : σ
  map : SourceMap

/-- The writer that passes the text on to a sink, as UTF-8, and flushes the sink each time. -/
def Through.writer {σ : Type} (sink : ByteSink σ) : Writer (Through σ) where
  write text s :=
    match sink.writeAll text.toUTF8 s.sink with
    | (.error reason, inner) => (.error ⟨reason⟩, { s with sink := inner })
    | (.ok (), inner) =>
      match sink.flush inner with
      | (.error reason, inner) => (.error ⟨reason⟩, { s with sink := inner })
      | (.ok (), inner) => (.ok (), { s with sink := inner })
  addMapping m s := { s with map := { s.map with mappings := s.map.mappings ++ [m] } }

end TypedLowering

/-!
## Printing programs

A program is printed into memory, or through a writer that is flushed after the imports and after
each statement at top level.
-/

namespace TypedLowering.JavaScript

namespace Expr

/-- The text of an expression. -/
def print (e : Expr) (options : PrintOptions) : String :=
  ((Printer.start options).run (e.pieces options.separator)).out

end Expr

/-- The text of a list of statements. -/
def printStmts (stmts : List Stmt) (options : PrintOptions) : String :=
  ((Printer.start options).run (stmtsPieces options.separator stmts)).out

namespace Program

/-- The printer after a whole program. -/
def printed (program : Program) (options : PrintOptions) : Printer :=
  (Printer.start options).run (program.pieces options.separator)

/-- The text of a program and its mappings. -/
def print (program : Program) (options : PrintOptions) : String × List Mapping :=
  let p := program.printed options
  (p.out, p.mappings)

end Program

section
variable {σ : Type} (writer : Writer σ)

/-- Prints the pieces and flushes. -/
def emitPieces (pieces : List Piece) (p : Printer) (s : σ) : Except EmitError Unit × Printer × σ :=
  (p.run pieces).flush writer s

/-- Prints statements that are given by their pieces, and flushes after each. The first one
`follows` another. A failure ends the output. -/
def emitStmts (sep : Separator) : Bool → List (List Piece) → Printer → σ →
    Except EmitError Unit × Printer × σ
  | _, [], p, s => (.ok (), p, s)
  | follows, stmt :: stmts, p, s =>
    match emitPieces writer (Layout.stmtLine sep follows stmt) p s with
    | (.ok (), p, s) => emitStmts sep true stmts p s
    | failed => failed

/-- Prints a program through a writer. -/
def Program.emit (program : Program) (options : PrintOptions) (s : σ) :
    Except EmitError Unit × Printer × σ :=
  let sep := options.separator
  match emitPieces writer (importsPieces sep program.imports) (.start options) s with
  | (.ok (), p, s) => emitStmts writer sep false ((livePieces sep program.body).map (·.2)) p s
  | failed => failed

end

end TypedLowering.JavaScript
