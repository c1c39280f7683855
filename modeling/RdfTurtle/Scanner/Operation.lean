import RdfTurtle.Scanner.Recognize

/-! # Operations of a scanner

What a caller may do with a scanner, in any order, and what the caller sees of it. An operation that
fails leaves a scanner with which the caller can go on.

* **`Scanner.Operation`** — the operations, and **`Scanner.Operation.perform`** what they do.
* **`Scanner.observe`** — what is seen of a sequence of operations. -/

namespace RdfTurtle.Scanner

/-- What a caller may do. -/
inductive Operation where
  | recognize (r : Recognizer)
  | advance
  | accumulate
  | clear
  deriving DecidableEq, Repr

/-- Performs an operation; recognizing a token gives a lexeme. -/
def Operation.perform : Operation → EStateM LexError Scanner (Option Lexeme)
  | .recognize r => do return some (← Scanner.recognize r)
  | .advance => do
    Scanner.advance
    return none
  | .accumulate => do
    Scanner.accumulate
    return none
  | .clear => do
    modify Scanner.clear
    return none

/-- What a caller sees of an operation: its outcome, and the lookahead and the text after it. -/
structure Observation where
  outcome : Except LexError (Option Lexeme)
  current : Lookahead
  text : Text
  deriving Repr

/-- What a caller sees of operations that are performed one after the other, also after errors. -/
def observe (s : Scanner) : List Operation → List Observation
  | [] => []
  | operation :: operations =>
    match operation.perform s with
    | .ok lexeme? s' => ⟨.ok lexeme?, s'.current, s'.text⟩ :: observe s' operations
    | .error e s' => ⟨.error e, s'.current, s'.text⟩ :: observe s' operations

end RdfTurtle.Scanner
