import TypedLowering.Printing.Printer
import TypedLowering.Text.CharacterClass

/-!
# Putting pieces together

The layouts that printed code is made of: tokens, wrapped operands, lists with commas, lines,
blocks, and the lines of foreign code. -/

namespace TypedLowering

open Ir (Location)

namespace Layout

/-- A mark, if there is a location. -/
def mark : Option Location → List Piece
  | some loc => [.mark loc]
  | none => []

/-- A text whose first character is mapped back to the location. -/
def token (text : String) (loc : Option Location) : List Piece :=
  mark loc ++ [.text text]

/-- The pieces in parentheses, if they are needed. -/
def wrap (isWrapped : Bool) (pieces : List Piece) : List Piece :=
  if isWrapped then .text "(" :: pieces ++ [.text ")"] else pieces

/-- The items of a list with commas between them. -/
def commas : List (List Piece) → List Piece
  | [] => []
  | [item] => item
  | item :: items => item ++ .text ", " :: commas items

/-- A line of its own. -/
def line (pieces : List Piece) : List Piece :=
  .margin :: pieces ++ [.text "\n"]

/-- Lines between braces, indented. -/
def braces (lines : List Piece) : List Piece :=
  .text "\x7b" :: .text "\n" :: .indent :: lines ++ [.dedent, .margin, .text "\x7d"]

/-- The semicolon at the end of a simple statement. -/
def terminator : Separator → List Piece
  | .semicolons => [.text ";"]
  | .newlines => []

/-- A statement on a line of its own. If it `follows` another one, it may need a semicolon in
front. -/
def stmtLine (sep : Separator) (follows : Bool) (stmt : List Piece) : List Piece :=
  line (if follows && sep == .newlines then [.guarded stmt] else stmt)

/-- Statements, each on a line of its own, of which the first one `follows` another. -/
def stmtLines (sep : Separator) : Bool → List (List Piece) → List Piece
  | _, [] => []
  | follows, stmt :: stmts => stmtLine sep follows stmt ++ stmtLines sep true stmts

/-- The lines of a text. -/
def splitLines : List Char → List (List Char)
  | [] => [[]]
  | c :: cs =>
    if c = '\n' then [] :: splitLines cs
    else
      match splitLines cs with
      | [] => [[c]]
      | l :: ls => (c :: l) :: ls

/-- The lines of foreign code after the first one. They lose their own indentation and take that of
the place; the last one goes on with what follows, also when it is empty. -/
def foreignLines : List (List Char) → List Piece
  | [] => []
  | [last] => [.text "\n", .margin, .text (Text.trimStart (String.ofList last))]
  | l :: ls =>
    let text := Text.trimStart (Text.trimEnd (String.ofList l))
    .text "\n" :: (if text.isEmpty then [] else [.margin, .text text]) ++ foreignLines ls

/-- The text of foreign code. Blanks at the ends of lines are left out. -/
def foreign (text : String) : List Piece :=
  match splitLines text.toList with
  | [] => []
  | [only] => [.text (String.ofList only)]
  | first :: rest => .text (Text.trimEnd (String.ofList first)) :: foreignLines rest

end Layout

end TypedLowering
