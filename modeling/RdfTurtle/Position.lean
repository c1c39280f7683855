import RdfTurtle.CodePoint

/-! # Positions in a text

Lines and columns count from 1, in 32 bits: a counter that is full goes on at 0. A carriage return,
a line feed, and a carriage return with the line feed after it each end one line.

* **`Position`** — a line and a column.
* **`Locator`** — the position of the next code point, and whether the last one was a carriage
  return, whose line feed is still to come.
* **`Locator.pass`** — the locator after one more code point. -/

namespace RdfTurtle

/-- A line and a column, both counted from 1. -/
@[ext] structure Position where
  line : UInt32
  column : UInt32
  deriving DecidableEq, Repr, Inhabited

namespace Position

/-- Where a text begins. -/
def start : Position := ⟨1, 1⟩

/-- The spelling `line:column`. -/
def render (p : Position) : String := s!"{p.line}:{p.column}"

/-- The position one column to the right. -/
def nextColumn (p : Position) : Position := ⟨p.line, p.column + 1⟩

/-- The first position of the next line. -/
def nextLine (p : Position) : Position := ⟨p.line + 1, 1⟩

end Position

/-- Tracks the position of the next code point. -/
@[ext] structure Locator where
  position : Position
  afterReturn : Bool
  deriving DecidableEq, Repr, Inhabited

namespace Locator

/-- The locator before the first code point. -/
def start : Locator := ⟨.start, false⟩

/-- The locator after `c`. A line feed that directly follows a carriage return ends no line of its
own. -/
def pass (l : Locator) (c : CodePoint) : Locator :=
  if c = '\r' then ⟨l.position.nextLine, true⟩
  else if c = '\n' then
    if l.afterReturn then ⟨l.position, false⟩ else ⟨l.position.nextLine, false⟩
  else ⟨l.position.nextColumn, false⟩

/-- A carriage return ends a line. -/
theorem pass_return (l : Locator) : l.pass '\r' = ⟨l.position.nextLine, true⟩ := by
  simp [pass]

/-- The line feed of a carriage return moves nothing. -/
theorem pass_return_lineFeed (l : Locator) :
    (l.pass '\r').pass '\n' = ⟨l.position.nextLine, false⟩ := by
  simp [pass]

/-- A code point that ends no line takes one column. -/
theorem pass_of_ne {l : Locator} {c : CodePoint} (hr : c ≠ '\r') (hn : c ≠ '\n') :
    l.pass c = ⟨l.position.nextColumn, false⟩ := by
  simp [pass, hr, hn]

end Locator

end RdfTurtle
