import RdfTurtle.LexError
import RdfTurtle.Token.Production

/-! # Errors of a document

* **`DocumentError`** — why a statement has no triples.
* **`DocumentError.position`** — where the token or code point at fault is.
* **`DocumentError.message`** — the text of an error.
* **`DocumentError.recoverable`** — whether the next statement can be looked for; after a failure of
  the source there is none. -/

namespace RdfTurtle

/-- Why a statement has no triples. -/
inductive DocumentError where
  /-- The input is no sequence of tokens. -/
  | lex (error : LexError)
  /-- A prefixed name uses a namespace that is not declared. -/
  | unknownPrefix (name : String) (position : Position)
  /-- An IRI is none, or cannot be resolved, for the given reason. -/
  | invalidIri (iri reason : String) (position : Position)
  /-- An escape names no character. -/
  | invalidEscape (position : Position)
  /-- A token of this kind may not stand here. -/
  | unexpectedToken (production : Production) (position : Position)
  deriving DecidableEq, Repr, Inhabited

namespace DocumentError

/-- Where the token or code point at fault is. -/
def position : DocumentError → Position
  | .lex error => error.position
  | .unknownPrefix _ position
  | .invalidIri _ _ position
  | .invalidEscape position
  | .unexpectedToken _ position => position

/-- The text of an error. -/
def message : DocumentError → String
  | .lex error => error.message
  | .unknownPrefix name position => "unknown prefix \x60" ++ name ++ "\x60 at " ++ position.render
  | .invalidIri iri reason position =>
    "invalid IRI \x60" ++ iri ++ "\x60 at " ++ position.render ++ ": " ++ reason
  | .invalidEscape position => "invalid escape sequence at " ++ position.render
  | .unexpectedToken production position =>
    "unexpected " ++ production.name ++ " at " ++ position.render

/-- Whether the next statement can be looked for. -/
def recoverable : DocumentError → Bool
  | .lex ⟨.source _, _⟩ => false
  | _ => true

end DocumentError

end RdfTurtle
