import RdfTurtle.Iri
import RdfTurtle.Iri.Resolve

/-! # The IRIs of the standard

The library that the programs run with: absolute IRIs are those of the generic syntax, and
references are resolved by it. It is an instance only where this namespace is open. -/

namespace RdfTurtle.Iri.Standard

/-- The absolute IRI that a text is, if its parts can be read. -/
def parse (text : List Char) : Except String Iri :=
  match Parts.parse text with
  | .ok _ => .ok ⟨String.ofList text⟩
  | .error e => .error e.message

/-- The absolute IRI that a reference stands for, found from the parts of the base. -/
def resolve (base : Iri) (reference : List Char) : Except String Iri :=
  match (Parts.parse base.text.toList).bind (·.resolve reference) with
  | .ok parts => .ok ⟨parts.render⟩
  | .error e => .error e.message

scoped instance : IriLibrary := ⟨parse, resolve⟩

end RdfTurtle.Iri.Standard
