import TypedLowering.Printing.Mapping
import TypedLowering.Text.Json

/-!
# Source maps

The mappings of one generated file as a source map of version 3: sorted by generated position, a
line for each generated line, a segment for each mapping. All fields of a segment but the generated
column are relative to the segment before it in the whole file. -/

/-!
## Variable-length quantities

An integer is written in base 32, least digit first, with its sign as the lowest bit. A digit that
is followed by another has 32 added, and each digit stands for one character of the base 64
alphabet. -/

namespace TypedLowering.SourceMap

/-- The digits of base 64. -/
def alphabet : List Char :=
  "ABCDEFGHIJKLMNOPQRSTUVWXYZabcdefghijklmnopqrstuvwxyz0123456789+/".toList

/-- The character of a digit below 64. -/
def digitChar (d : Nat) : Char := alphabet.getD d 'A'

/-- The digits of `n`, with the continuation bit on all but the last. -/
def vlqDigits (n : Nat) : List Nat :=
  if n < 32 then [n] else (n % 32 + 32) :: vlqDigits (n / 32)
termination_by n
decreasing_by omega

/-- The integer with its sign as the lowest bit. -/
def zigzag (v : Int) : Nat :=
  2 * v.natAbs + if v < 0 then 1 else 0

/-- The text of an integer. -/
def encodeVlq (v : Int) : String :=
  String.ofList ((vlqDigits (zigzag v)).map digitChar)

end TypedLowering.SourceMap

namespace TypedLowering

open Ir (Position)

/-- The mappings of a generated file against a single source. -/
structure SourceMap where
  source : String
  mappings : List Mapping
  deriving Inhabited

namespace SourceMap

/-- What the fields of the next segment are relative to. -/
structure Cursor where
  /-- The generated column, which starts anew on each line. -/
  column : Nat
  /-- The line of the source, counted from zero. -/
  sourceLine : Nat
  sourceColumn : Nat
  /-- The number of the name. -/
  name : Nat
  deriving Inhabited

/-- Where the first segment of a map counts from. -/
def Cursor.start : Cursor := ⟨0, 0, 0, 0⟩

/-- The mappings by their generated positions; mappings of one position stay in order. -/
def sorted (mappings : List Mapping) : List Mapping :=
  mappings.mergeSort fun a b => a.generated.le b.generated

/-- The names of the mappings, each once, in the order of first use. -/
def nameTable (mappings : List Mapping) : List String :=
  mappings.foldl (fun names m =>
    match m.name with
    | some name => if name ∈ names then names else names ++ [name]
    | none => names) []

/-- The difference of two fields. -/
def delta (new old : Nat) : String := encodeVlq ((new : Int) - (old : Int))

/-- The segment of a mapping, and where the next one continues. The second field is the number of
the only source. -/
def segment (names : List String) (c : Cursor) (m : Mapping) : String × Cursor :=
  let line := m.source.line - 1
  let fields := delta m.generated.column c.column ++ delta 0 0 ++ delta line c.sourceLine ++
    delta m.source.column c.sourceColumn
  let next := { c with
    column := m.generated.column, sourceLine := line, sourceColumn := m.source.column }
  match m.name with
  | none => (fields, next)
  | some name =>
    let id := names.idxOf name
    (fields ++ delta id c.name, { next with name := id })

/-- The segments of the mappings of one line. -/
def segments (names : List String) : Cursor → List Mapping → List String × Cursor
  | c, [] => ([], c)
  | c, m :: ms =>
    let (text, c) := segment names c m
    let (texts, c) := segments names c ms
    (text :: texts, c)

/-- The lines from the mappings of each line, after `count` lines. Lines without a mapping are
empty. -/
def lines (names : List String) : Nat → Cursor → List (List Mapping) → List String
  | _, _, [] => []
  | count, c, group :: groups =>
    let line := (group.head?.map (·.generated.line)).getD 0
    let blank := line - 1 - count
    let (texts, c) := segments names { c with column := 0 } group
    List.replicate blank "" ++
      ",".intercalate texts :: lines names (count + blank + 1) c groups

/-- The field `mappings` for sorted mappings. -/
def mappingsText (names : List String) (mappings : List Mapping) : String :=
  ";".intercalate (lines names 0 .start
    (mappings.splitBy fun a b => a.generated.line == b.generated.line))

/-- The map of the generated file `file` as JSON. -/
def json (map : SourceMap) (file : String) : String :=
  let mappings := sorted map.mappings
  let names := nameTable mappings
  "\x7b\"version\":3,\"file\":" ++ Text.jsonString file ++
    ",\"sources\":[" ++ Text.jsonString map.source ++
    "],\"names\":[" ++ ",".intercalate (names.map Text.jsonString) ++
    "],\"mappings\":" ++ Text.jsonString (mappingsText names mappings) ++ "\x7d"

end SourceMap

end TypedLowering
