import RdfTurtle.Position

/-! # Lexical errors

* **`LexFault`** — what is wrong with the input.
* **`LexError`** — a fault and where it is.
* **`LexError.message`** — its text. -/

namespace RdfTurtle

/-- What is wrong with the input. -/
inductive LexFault where
  /-- No token of the expected kind goes on with this code point. -/
  | unexpectedCharacter (c : CodePoint)
  /-- The input ends inside a token or inside a group of bytes. -/
  | prematureEnd
  /-- The bytes are not well-formed UTF-8. -/
  | invalidUtf8
  /-- The source failed. -/
  | source (text : String)
  deriving DecidableEq, Repr, Inhabited

/-- The text of a fault. -/
def LexFault.message : LexFault → String
  | .unexpectedCharacter c => s!"unexpected character {c.unicodeName}"
  | .prematureEnd => "unexpected end of stream"
  | .invalidUtf8 => "invalid UTF-8 sequence"
  | .source text => s!"byte source error: {text}"

/-- A fault and where it is. -/
structure LexError where
  fault : LexFault
  position : Position
  deriving DecidableEq, Repr, Inhabited

/-- The text of the fault, then its position. -/
def LexError.message (e : LexError) : String :=
  s!"{e.fault.message} at {e.position.render}"

end RdfTurtle
