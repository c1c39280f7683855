import RdfTurtle.Iri
import RdfTurtle.PrefixMap
import RdfTurtle.Proofs.Syntax.Tokens
import RdfTurtle.Term

/-! # Documents as they are written

A document is a tree of tokens with the blanks between them. The tree says how the document is
written, and what it stands for in a context: a base, which references are resolved against, and the
namespaces declared so far. It stands for nothing if a namespace is not declared or a reference
cannot be resolved.

* **`Context`** — a base and namespaces, and **`Ref.iri?`** the IRI that a name stands for.
* **`Object`**, **`Group`**, **`Statement`**, **`Document`** — the trees, each with its text.
* **`Statement.meaning?`**, **`Document.meaning?`** — the triples of a tree and the context after
  it. -/

namespace RdfTurtle.Syntax

/-- What a document has declared: a base, if there is one, and namespaces. -/
structure Context where
  base? : Option Iri
  prefixes : PrefixMap
  deriving DecidableEq

variable {iri : Strictness} [IriLibrary]

/-! ## Terms -/

/-- An IRI, by a reference or by a prefixed name. -/
inductive Ref (iri : Strictness) where
  | reference (r : IriRef iri)
  | name (namespaceName : Namespace) (localName : LocalName)

/-- The IRI that a reference stands for. Without a base it stands for itself. -/
def resolve? (c : Context) (reference : List Char) : Option String :=
  match c.base? with
  | none => some (String.ofList reference)
  | some base => (IriLibrary.resolve base reference).toOption.map Iri.text

namespace Ref

/-- The name as it is written. -/
def text : Ref iri → List Char
  | .reference r => r.text
  | .name n l => n.text ++ l.text

/-- The IRI that the name stands for. -/
def iri? (c : Context) : Ref iri → Option String
  | .reference r => resolve? c r.reference
  | .name n l => (c.prefixes.find? n.name).map (· ++ String.ofList l.value)

end Ref

/-- The subject of a statement. -/
inductive Subject (iri : Strictness) where
  | ref (r : Ref iri)
  | blank (l : Label)

namespace Subject

/-- The subject as it is written. -/
def text : Subject iri → List Char
  | .ref r => r.text
  | .blank l => l.text

/-- The term that the subject stands for. -/
def term? (c : Context) : Subject iri → Option Term
  | .ref r => (r.iri? c).map Term.iri
  | .blank l => some (.blank (String.ofList l.chars))

end Subject

/-- The predicate of a group; the word `a` is one. -/
inductive Verb (iri : Strictness) where
  | ref (r : Ref iri)
  | typeWord

namespace Verb

/-- The predicate as it is written. -/
def text : Verb iri → List Char
  | .ref r => r.text
  | .typeWord => ['a']

/-- The term that the predicate stands for. -/
def term? (c : Context) : Verb iri → Option Term
  | .ref r => (r.iri? c).map Term.iri
  | .typeWord => some (.iri "http://www.w3.org/1999/02/22-rdf-syntax-ns#type")

end Verb

/-- What follows a string. Blanks may stand before and in it. -/
inductive Suffix (iri : Strictness) where
  | none
  | language (before : Blanks) (l : Language)
  | datatype (before : Blanks) (after : Blanks) (r : Ref iri)

namespace Suffix

/-- The suffix as it is written, with the blanks before it. -/
def text : Suffix iri → List Char
  | .none => []
  | .language before l => before.text ++ l.text
  | .datatype before after r => before.text ++ '^' :: '^' :: (after.text ++ r.text)

/-- The literal of a string with the suffix. -/
def literal? (c : Context) (lexical : String) : Suffix iri → Option Literal
  | .none => some (.plain lexical)
  | .language _ l => some ⟨lexical, Option.none, some (String.ofList l.chars)⟩
  | .datatype _ _ r => (r.iri? c).map (Literal.typed lexical)

end Suffix

/-- An object. -/
inductive Object (iri : Strictness) where
  | ref (r : Ref iri)
  | blank (l : Label)
  | quoted (s : StringToken) (suffix : Suffix iri)
  | number (n : Number)
  | boolean (b : Bool)

namespace Object

/-- The object as it is written. -/
def text : Object iri → List Char
  | .ref r => r.text
  | .blank l => l.text
  | .quoted s suffix => s.text ++ suffix.text
  | .number n => n.text
  | .boolean b => booleanText b

/-- The term that the object stands for. -/
def term? (c : Context) : Object iri → Option Term
  | .ref r => (r.iri? c).map Term.iri
  | .blank l => some (.blank (String.ofList l.chars))
  | .quoted s suffix => (suffix.literal? c (String.ofList s.value)).map Term.literal
  | .number n => some (.literal (.typed (String.ofList n.text) n.datatype))
  | .boolean b => some (.literal (.typed (String.ofList (booleanText b))
    "http://www.w3.org/2001/XMLSchema#boolean"))

end Object

/-! ## Groups -/

/-- A comma with the gaps around it, and the object behind it. -/
structure NextObject (iri : Strictness) where
  before : Gap
  after : Gap
  object : Object iri

/-- The comma and the object as they are written. -/
def NextObject.text (o : NextObject iri) : List Char :=
  o.before.text ++ ',' :: (o.after.text ++ o.object.text)

/-- A predicate with its objects, at least one. -/
structure Group (iri : Strictness) where
  verb : Verb iri
  gap : Gap
  first : Object iri
  more : List (NextObject iri)

namespace Group

/-- The group as it is written. -/
def text (g : Group iri) : List Char :=
  g.verb.text ++ (g.gap.text ++ (g.first.text ++ g.more.flatMap NextObject.text))

/-- The objects of the group. -/
def objects (g : Group iri) : List (Object iri) := g.first :: g.more.map NextObject.object

/-- The triples of the group with a subject. -/
def triples? (c : Context) (subject : Term) (g : Group iri) : Option (List Triple) := do
  let predicate ← g.verb.term? c
  g.objects.mapM fun o => (o.term? c).map (⟨subject, predicate, ·⟩)

end Group

/-- A semicolon after a gap. -/
def semicolonText (g : Gap) : List Char := g.text ++ [';']

/-- Semicolons, at least one, and the group behind them. -/
structure NextGroup (iri : Strictness) where
  first : Gap
  more : List Gap
  gap : Gap
  group : Group iri

/-- The semicolons and the group as they are written. -/
def NextGroup.text (g : NextGroup iri) : List Char :=
  semicolonText g.first ++ (g.more.flatMap semicolonText ++ (g.gap.text ++ g.group.text))

/-! ## Statements and documents -/

/-- The form of a directive with a word: the word in lower case after an `@`, where a gap and a dot
end the directive, or the word by itself in any case. -/
inductive Form (word : List Char) where
  | dotted (gap : Gap)
  | bare (spelling : Spelling word)

namespace Form

variable {word : List Char}

/-- How a directive of the form begins. -/
def opening : Form word → List Char
  | .dotted _ => '@' :: word
  | .bare spelling => spelling.chars

/-- How a directive of the form ends. -/
def closing : Form word → List Char
  | .dotted gap => gap.text ++ ['.']
  | .bare _ => []

end Form

/-- A statement: a directive, or a subject with its groups, at least one. -/
inductive Statement (iri : Strictness) where
  | base (form : Form ['b', 'a', 's', 'e']) (gap : Gap) (r : IriRef iri)
  | namespaceName (form : Form ['p', 'r', 'e', 'f', 'i', 'x']) (before : Gap) (n : Namespace)
    (gap : Gap) (r : IriRef iri)
  | triples (subject : Subject iri) (gap : Gap) (first : Group iri) (more : List (NextGroup iri))
    (semicolons : List Gap) (last : Gap)

namespace Statement

/-- The statement as it is written. -/
def text : Statement iri → List Char
  | .base form gap r => form.opening ++ (gap.text ++ (r.text ++ form.closing))
  | .namespaceName form before n gap r =>
    form.opening ++ (before.text ++ (n.text ++ (gap.text ++ (r.text ++ form.closing))))
  | .triples subject gap first more semicolons last =>
    subject.text ++ (gap.text ++ (first.text ++ (more.flatMap NextGroup.text ++
      (semicolons.flatMap semicolonText ++ (last.text ++ ['.'])))))

/-- The triples of a statement and the context after it. A base must be an absolute IRI. -/
def meaning? (c : Context) : Statement iri → Option (List Triple × Context)
  | .base _ _ r => do
    let resolved ← resolve? c r.reference
    let base ← (IriLibrary.parse resolved.toList).toOption
    return ([], { c with base? := some base })
  | .namespaceName _ _ n _ r => do
    let resolved ← resolve? c r.reference
    return ([], { c with prefixes := c.prefixes.insert n.name resolved })
  | .triples subject _ first more _ _ => do
    let term ← subject.term? c
    let triples ← (first :: more.map NextGroup.group).mapM (Group.triples? c term)
    return (triples.flatten, c)

end Statement

/-- A document: statements, each with the blanks before it, and the blanks at the end. A statement
ends with a token that nothing can lengthen, so that none need stand behind it. -/
structure Document (iri : Strictness) where
  statements : List (Blanks × Statement iri)
  trailing : Blanks

/-- The text of statements with the blanks before them. -/
def statementsText (statements : List (Blanks × Statement iri)) : List Char :=
  statements.flatMap fun s => s.1.text ++ s.2.text

/-- The triples of statements and the context after them. -/
def meaningOf? : Context → List (Blanks × Statement iri) → Option (List Triple × Context)
  | c, [] => some ([], c)
  | c, s :: statements => do
    let (triples, c) ← s.2.meaning? c
    let (more, c) ← meaningOf? c statements
    return (triples ++ more, c)

namespace Document

/-- The document as it is written. -/
def text (d : Document iri) : List Char := statementsText d.statements ++ d.trailing.text

/-- The triples of a document and the context after it, when it begins in the context `c`. -/
def meaning? (c : Context) (d : Document iri) : Option (List Triple × Context) :=
  meaningOf? c d.statements

/-- The document with a statement before it. -/
def prepend (b : Blanks) (s : Statement iri) (d : Document iri) : Document iri :=
  { d with statements := (b, s) :: d.statements }

omit [IriLibrary] in
/-- A statement is written before the document behind it. -/
theorem text_prepend (b : Blanks) (s : Statement iri) (d : Document iri) :
    (d.prepend b s).text = b.text ++ (s.text ++ d.text) := by
  rw [text, prepend, statementsText, List.flatMap_cons, List.append_assoc, List.append_assoc]
  rfl

/-- The triples of a statement come before those of the document behind it. -/
theorem meaning?_prepend {b : Blanks} {s : Statement iri} {d : Document iri} {c c' c'' : Context}
    {ts us : List Triple} (hs : s.meaning? c = some (ts, c'))
    (hd : d.meaning? c' = some (us, c'')) :
    (d.prepend b s).meaning? c = some (ts ++ us, c'') := by
  rw [meaning?] at hd
  simp [meaning?, prepend, meaningOf?, hs, hd]

end Document

end RdfTurtle.Syntax
