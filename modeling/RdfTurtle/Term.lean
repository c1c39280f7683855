/-! # RDF terms and triples

* **`Term`** — an IRI, a blank node or a literal; **`Triple`** — three terms.
* **`Vocabulary`** — the IRIs that the syntax abbreviates.
* **`Triple.render`** — a triple as a line of N-Triples, without the line break. -/

namespace RdfTurtle

namespace Vocabulary

/-- The datatype of numbers without a point and without an exponent. -/
def xsdInteger : String := "http://www.w3.org/2001/XMLSchema#integer"

/-- The datatype of numbers with a point. -/
def xsdDecimal : String := "http://www.w3.org/2001/XMLSchema#decimal"

/-- The datatype of numbers with an exponent. -/
def xsdDouble : String := "http://www.w3.org/2001/XMLSchema#double"

/-- The datatype of the words `true` and `false`. -/
def xsdBoolean : String := "http://www.w3.org/2001/XMLSchema#boolean"

/-- The predicate that the word `a` stands for. -/
def rdfType : String := "http://www.w3.org/1999/02/22-rdf-syntax-ns#type"

end Vocabulary

/-- A literal: its lexical form, and a datatype or a language if it has one. -/
structure Literal where
  lexical : String
  datatype? : Option String
  language? : Option String
  deriving DecidableEq, Repr, Inhabited

/-- A subject, predicate or object. A blank node is given by its label. -/
inductive Term where
  | iri (text : String)
  | blank (label : String)
  | literal (l : Literal)
  deriving DecidableEq, Repr, Inhabited

/-- A statement of a document. -/
structure Triple where
  subject : Term
  predicate : Term
  object : Term
  deriving DecidableEq, Repr, Inhabited

namespace Literal

/-- A literal without datatype and language. -/
def plain (lexical : String) : Literal := ⟨lexical, none, none⟩

/-- A literal with a datatype. -/
def typed (lexical datatype : String) : Literal := ⟨lexical, some datatype, none⟩

/-- How a character is written between double quotes. -/
def quoteChar (x : Char) : List Char :=
  if x = '"' then ['\\', '"']
  else if x = '\\' then ['\\', '\\']
  else if x = '\n' then ['\\', 'n']
  else if x = '\r' then ['\\', 'r']
  else [x]

/-- The lexical form between double quotes. -/
def quote (lexical : String) : String :=
  "\"" ++ String.ofList (lexical.toList.flatMap quoteChar) ++ "\""

example : quote "a\"\\\t\n" = "\"a\\\"\\\\\t\\n\"" := by decide +kernel

/-- What is written after the quotes; a language takes precedence over a datatype. -/
def suffix (l : Literal) : String :=
  match l.language?, l.datatype? with
  | some language, _ => "@" ++ language
  | none, some datatype => "^^<" ++ datatype ++ ">"
  | none, none => ""

/-- The literal in N-Triples. -/
def render (l : Literal) : String := quote l.lexical ++ l.suffix

end Literal

/-- The term in N-Triples. -/
def Term.render : Term → String
  | .iri text => "<" ++ text ++ ">"
  | .blank label => "_:" ++ label
  | .literal l => l.render

/-- The triple in N-Triples, without the line break. -/
def Triple.render (t : Triple) : String :=
  t.subject.render ++ " " ++ t.predicate.render ++ " " ++ t.object.render ++ " ."

end RdfTurtle
