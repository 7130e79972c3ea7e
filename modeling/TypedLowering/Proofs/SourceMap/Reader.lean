import TypedLowering.SourceMap.Render
import TypedLowering.Text.Json

/-!
# Reading source maps

The rules of version 3. Semicolons separate the lines of the generated file and commas the segments
of a line. A segment is a row of quantities: the generated column, relative to the segment before it
on the line, and then the source, its line, its column and possibly a name, each relative to the
segment before it in the whole file. A segment that is only a column has no place in a source.
-/

namespace TypedLowering.SourceMap

open Ir (Position)
open Text (Json)

/-! ## Quantities -/

/-- The value of a digit of base 64. -/
def digitValue? (c : Char) : Option Nat := alphabet.idxOf? c

/-- The numbers that digits spell, least digit first. After a digit from 32 on comes another one of
the same number. -/
def numbers : List Nat → Option (List Nat)
  | [] => some []
  | d :: ds =>
    if d < 32 then (numbers ds).map (d :: ·)
    else
      match numbers ds with
      | some (n :: ns) => some ((d - 32 + 32 * n) :: ns)
      | _ => none

/-- The integer whose sign is the lowest bit. -/
def unzigzag (n : Nat) : Int :=
  if n % 2 = 0 then (n / 2 : Nat) else -(n / 2 : Nat)

/-- The quantities of a segment. -/
def quantities (segment : List Char) : Option (List Int) := do
  let digits ← segment.mapM digitValue?
  return (← numbers digits).map unzigzag

/-! ## Segments and lines -/

/-- What the next segment is relative to. -/
structure Reached where
  column : Int
  source : Int
  sourceLine : Int
  sourceColumn : Int
  name : Int

/-- Where the first segment of a map counts from. -/
def Reached.start : Reached := ⟨0, 0, 0, 0, 0⟩

/-- A mapping with the source that it belongs to. -/
abbrev Sourced := String × Mapping

section
variable (sources names : List String)

/-- The name that a further quantity of a segment gives. -/
def readName (r : Reached) : List Int → Option (Option String × Reached)
  | [] => some (none, r)
  | [name] => do
    let r := { r with name := r.name + name }
    return (some (← names[← r.name.toNat?]?), r)
  | _ => none

/-- The mapping of a segment on a line. -/
def readSegment (line : Nat) (r : Reached) : List Int → Option (Option Sourced × Reached)
  | [column] => some (none, { r with column := r.column + column })
  | column :: source :: sourceLine :: sourceColumn :: rest => do
    let (name, r) ← readName names
      ⟨r.column + column, r.source + source, r.sourceLine + sourceLine,
        r.sourceColumn + sourceColumn, r.name⟩ rest
    let file ← sources[← r.source.toNat?]?
    let generated : Position := ⟨line, ← r.column.toNat?⟩
    let place : Position := ⟨(← r.sourceLine.toNat?) + 1, ← r.sourceColumn.toNat?⟩
    return (some (file, ⟨generated, place, name⟩), r)
  | _ => none

/-- The segments of a line in order, each relative to what the one before reached. -/
def readSegments (line : Nat) : Reached → List (List Char) → Option (List Sourced × Reached)
  | r, [] => some ([], r)
  | r, s :: ss => do
    let (first, r) ← readSegment sources names line r (← quantities s)
    let (rest, r) ← readSegments line r ss
    return (first.toList ++ rest, r)

/-- The segments of a line. An empty line has none. -/
def segmentTexts (line : List Char) : List (List Char) :=
  if line.isEmpty then [] else line.splitOn ','

/-- The mappings of lines, of which the first one has that number. -/
def readLines : Nat → Reached → List (List Char) → Option (List Sourced)
  | _, _, [] => some []
  | line, r, l :: ls => do
    let (first, r) ← readSegments sources names line { r with column := 0 } (segmentTexts l)
    let rest ← readLines (line + 1) r ls
    return first ++ rest

/-- The mappings of the field `mappings`. -/
def readMappings (text : String) : Option (List Sourced) :=
  readLines sources names 1 .start (text.toList.splitOn ';')

end

/-! ## The whole map -/

/-- What a source map says. -/
structure Contents where
  file : String
  sources : List String
  names : List String
  mappings : List Sourced

/-- The value of a field. -/
def field? (fields : List (Option String × Json)) (key : String) : Option Json :=
  (fields.find? (·.1 == some key)).map (·.2)

/-- The string that a value is. -/
def stringOf? : Json → Option String
  | .string text => text
  | _ => none

/-- The strings of a list. -/
def stringsOf? : Json → Option (List String)
  | .array items => items.mapM stringOf?
  | _ => none

/-- Reads a source map. -/
def read (text : String) : Option Contents := do
  let .object fields ← Json.parse text | none
  let file ← stringOf? (← field? fields "file")
  let sources ← stringsOf? (← field? fields "sources")
  let names ← stringsOf? (← field? fields "names")
  let mappings ← readMappings sources names (← stringOf? (← field? fields "mappings"))
  return ⟨file, sources, names, mappings⟩

end TypedLowering.SourceMap
