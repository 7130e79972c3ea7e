import TypedLowering.Printing.Mapping

/-!
# The printer

Code is printed as a sequence of pieces: text, marks for the source map, and changes of the
indentation. The printer runs through them, and keeps its position in step with the text, also when
the text is taken away from it. Where only line ends keep statements apart, a semicolon may be put
in front of a statement after it was printed; what follows on its line moves. -/

namespace TypedLowering

open Ir (Location Position)

/-- How the statements of a list are kept apart. -/
inductive Separator where
  /-- Simple statements end with a semicolon. -/
  | semicolons
  /-- A line end is enough. A statement that would go on with the line before it gets a semicolon
  in front. -/
  | newlines
  deriving DecidableEq, Repr, Inhabited

/-- The options of printing. -/
structure PrintOptions where
  /-- One level of indentation. -/
  indent : String
  separator : Separator
  deriving DecidableEq, Repr, Inhabited

/-- Two spaces for each level, and semicolons. -/
def PrintOptions.default : PrintOptions := ⟨"  ", .semicolons⟩

/-- A step of printing. -/
inductive Piece where
  | text (text : String)
  /-- Maps the position here back to the start of a location. -/
  | mark (loc : Location)
  | indent
  | dedent
  /-- The indentation of a line. -/
  | margin
  /-- A statement that only a line end keeps apart from the statement before it. -/
  | guarded (stmt : List Piece)
  deriving Repr, Inhabited

/-- Whether a statement that starts with `c` would go on with the statement of the line before it,
if that has no semicolon. -/
def continuesLine (c : Char) : Bool :=
  c == '(' || c == '[' || c == '+' || c == '-' || c == '/' || c == '\x60'

/-- The position after text of that width was put in before it, on the line `line`. -/
def Ir.Position.shift (p : Position) (line width : Nat) : Position :=
  if p.line = line then { p with column := (p.column + width) % wordSize } else p

/-- The state of printing: what was printed, where the next character goes, and what was recorded
for the source map. -/
structure Printer where
  options : PrintOptions
  /-- What was printed since the last time the text was taken away. -/
  out : String
  position : Position
  depth : Nat
  /-- The mappings of `out`, in the order in which they were recorded. -/
  mappings : List Mapping
  deriving Inhabited

/-- A place in the text of a printer, where more text may be put in as long as the text is not taken
away. -/
structure Place where
  /-- The length of the text before it. -/
  offset : Nat
  line : Nat
  /-- The number of mappings before it. -/
  recorded : Nat

namespace Printer

/-- The printer before its first piece. -/
def start (options : PrintOptions) : Printer :=
  { options, out := "", position := .start, depth := 0, mappings := [] }

/-- Nothing was printed or recorded since the text was last taken away. -/
def isEmpty (p : Printer) : Bool :=
  p.out.isEmpty && p.mappings.isEmpty

/-- Print a text and move on past it. -/
def print (p : Printer) (text : String) : Printer :=
  { p with out := p.out ++ text, position := p.position.after text.toList }

/-- Maps the current position back to the start of `loc`. -/
def map (p : Printer) (loc : Location) : Printer :=
  { p with mappings := p.mappings ++ [⟨p.position, loc.start, loc.identifier⟩] }

/-- One level in. -/
def indent (p : Printer) : Printer := { p with depth := p.depth + 1 }

/-- One level out, at most to the margin. -/
def dedent (p : Printer) : Printer := { p with depth := p.depth - 1 }

/-- The indentation of a line at the current depth. -/
def marginText (p : Printer) : String :=
  String.join (List.replicate p.depth p.options.indent)

/-- Print the margin of the current level. -/
def printMargin (p : Printer) : Printer := p.print p.marginText

/-- Takes the text and the mappings away and keeps the position. -/
def clear (p : Printer) : Printer := { p with out := "", mappings := [] }

/-- The place where the printer is. -/
def place (p : Printer) : Place := ⟨p.out.toList.length, p.position.line, p.mappings.length⟩

/-- What was printed since the place was passed. -/
def since (p : Printer) (place : Place) : List Char := p.out.toList.drop place.offset

/-- Puts text without a line end in at the place. What was printed and mapped after it on the same
line moves. -/
def insertAt (p : Printer) (place : Place) (text : String) : Printer :=
  let width := Text.width16 text.toList
  let moved := (p.mappings.drop place.recorded).map fun m =>
    { m with generated := m.generated.shift place.line width }
  { p with
    out := String.ofList (p.out.toList.take place.offset ++ text.toList ++ p.since place)
    position := p.position.shift place.line width
    mappings := p.mappings.take place.recorded ++ moved }

mutual

/-- Print one piece. -/
def put (p : Printer) : Piece → Printer
  | .text text => p.print text
  | .mark loc => p.map loc
  | .indent => p.indent
  | .dedent => p.dedent
  | .margin => p.printMargin
  | .guarded stmt =>
    let printed := p.run stmt
    if (printed.since p.place).head?.any continuesLine then printed.insertAt p.place ";"
    else printed

/-- Prints the pieces one after the other. -/
def run (p : Printer) : List Piece → Printer
  | [] => p
  | x :: xs => (p.put x).run xs

end

/-- No pieces leave the printer as it is. -/
@[simp] theorem run_nil (p : Printer) : p.run [] = p := rfl

/-- Pieces are put one after the other. -/
@[simp] theorem run_cons (p : Printer) (x : Piece) (xs : List Piece) :
    p.run (x :: xs) = (p.put x).run xs := rfl

/-- A sequence may be printed in two parts. -/
theorem run_append (p : Printer) (xs ys : List Piece) : p.run (xs ++ ys) = (p.run xs).run ys := by
  induction xs generalizing p with
  | nil => rfl
  | cons x xs ih => rw [List.cons_append, run_cons, run_cons, ih]

end Printer

end TypedLowering
