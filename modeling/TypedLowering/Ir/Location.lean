/-!
# Source locations

Positions count lines from one and columns from zero. A node that a pass made up has no location.
-/

namespace TypedLowering.Ir

/-- A point in a source file. -/
structure Position where
  line : Nat
  column : Nat
  deriving DecidableEq, Repr, Inhabited

namespace Position

/-- Whether `p` stands before `q` or at the same place. -/
def le (p q : Position) : Bool :=
  p.line < q.line || (p.line == q.line && p.column ≤ q.column)

/-- The earlier of two positions. -/
def earlier (p q : Position) : Position := if p.le q then p else q

/-- The later of two positions. -/
def later (p q : Position) : Position := if p.le q then q else p

end Position

/-- A stretch of a source file; the location of an identifier also carries its name. -/
structure Location where
  start : Position
  stop : Position
  identifier : Option String
  deriving DecidableEq, Repr, Inhabited

namespace Location

/-- The smallest location that covers both. -/
def union (a b : Location) : Location :=
  ⟨a.start.earlier b.start, a.stop.later b.stop, none⟩

/-- The form in which messages show a location. -/
def text (l : Location) : String :=
  s!"({l.start.line},{l.start.column}--{l.stop.line},{l.stop.column})"

/-- The union of two optional locations: the one that is there if the other is not. -/
def union? : Option Location → Option Location → Option Location
  | some a, some b => some (a.union b)
  | some a, none => some a
  | none, b => b

end Location

end TypedLowering.Ir
