import TypedLowering.Ir.Location

/-!
# Positions in generated code

Generated positions count like source positions: lines from one, columns from zero, in UTF-16 units.
They are counted in words of 32 bits, which start again at zero when they overflow. A mapping takes
a generated position back to the place of the source that it came from.
-/

/-!
## UTF-16 units

Columns of generated code count UTF-16 units: a character outside the basic plane takes two.
-/

namespace TypedLowering.Text

/-- The number of UTF-16 units that encode `c`. -/
def units16 (c : Char) : Nat :=
  if c.toNat < 0x10000 then 1 else 2

/-- The number of UTF-16 units that encode `cs`. -/
def width16 : List Char → Nat
  | [] => 0
  | c :: cs => units16 c + width16 cs

/-- No text has no width. -/
@[simp] theorem width16_nil : width16 [] = 0 := rfl

/-- The width of a text is that of its first character and of the rest. -/
@[simp] theorem width16_cons (c : Char) (cs : List Char) :
    width16 (c :: cs) = units16 c + width16 cs := rfl

/-- The width of a text is the sum of the widths of its parts. -/
@[simp] theorem width16_append (cs ds : List Char) :
    width16 (cs ++ ds) = width16 cs + width16 ds := by
  induction cs with
  | nil => simp
  | cons c cs ih => simp [ih, Nat.add_assoc]

end TypedLowering.Text

namespace TypedLowering

open Ir (Position)

namespace Ir.Position

/-- The number of values of the words in which lines and columns are counted. -/
def wordSize : Nat := 4294967296

/-- The start of a file. -/
def start : Position := ⟨1, 0⟩

/-- The position after one more character. -/
def next (p : Position) (c : Char) : Position :=
  if c = '\n' then ⟨(p.line + 1) % wordSize, 0⟩
  else ⟨p.line, (p.column + Text.units16 c) % wordSize⟩

/-- The position after more characters. -/
def after (p : Position) (cs : List Char) : Position :=
  cs.foldl next p

/-- No text leaves the position as it is. -/
@[simp] theorem after_nil (p : Position) : p.after [] = p := rfl

/-- The characters of a text are counted one by one. -/
@[simp] theorem after_cons (p : Position) (c : Char) (cs : List Char) :
    p.after (c :: cs) = (p.next c).after cs := rfl

/-- A text may be counted in two parts. -/
theorem after_append (p : Position) (cs ds : List Char) :
    p.after (cs ++ ds) = (p.after cs).after ds := by
  simp [after]

end Ir.Position

/-- A generated position with the place of the source that it came from. -/
structure Mapping where
  generated : Position
  source : Position
  /-- The name that the source has there. -/
  name : Option String
  deriving DecidableEq, Repr, Inhabited

end TypedLowering
