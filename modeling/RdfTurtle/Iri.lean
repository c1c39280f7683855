/-! # IRIs

A parser keeps an absolute IRI as its text. Which texts are absolute IRIs, and what a reference
stands for against one, it leaves to a library.

* **`Iri`** — an absolute IRI.
* **`IriLibrary`** — the operations of the library. Whatever is said of a parser is said of it with
  any library; the programs run with the one of `RdfTurtle.Iri.Standard`. -/

namespace RdfTurtle

/-- An absolute IRI, by its text. -/
@[ext] structure Iri where
  text : String
  deriving DecidableEq, Repr, Inhabited

/-- The operations on IRIs that a parser calls. Those that fail say why. -/
class IriLibrary where
  /-- The absolute IRI that a text is. -/
  parse (text : List Char) : Except String Iri
  /-- The absolute IRI that a reference stands for against a base. -/
  resolve (base : Iri) (reference : List Char) : Except String Iri

end RdfTurtle
