import RdfTurtle.Text

/-! # Options of a scanner

* **`Strictness`** — whether a check is made.
* **`Options`** — the size of the byte buffer, the checks on UTF-8 and on IRI references, and the
  form of accumulated text; the defaults check nothing and accumulate UTF-16 units. -/

namespace RdfTurtle

/-- Whether a check is made (`strict`) or left out (`permissive`). -/
inductive Strictness where
  | permissive
  | strict
  deriving DecidableEq, Repr, Inhabited

/-- The room for bytes that a scanner has by default. -/
def defaultBufferSize : Nat := 8192

/-- How a scanner reads: `utf8` decides whether ill-formed UTF-8 is refused, `iri` whether forbidden
characters between angle brackets are. -/
structure Options where
  bufferSize : Nat := defaultBufferSize
  utf8 : Strictness := .permissive
  iri : Strictness := .permissive
  encoding : TextEncoding := .utf16
  deriving DecidableEq, Repr, Inhabited

namespace Options

/-- The room for bytes in use: a buffer without room counts as one with room for a byte. -/
def capacity (o : Options) : Nat := max 1 o.bufferSize

/-- There is always room for a byte. -/
theorem capacity_pos (o : Options) : 0 < o.capacity := Nat.le_max_left 1 o.bufferSize

end Options

end RdfTurtle
