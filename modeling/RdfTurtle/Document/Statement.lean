import RdfTurtle.Document.Parser

/-! # Statements

A statement is a directive or a subject with predicates and objects. Directives act on the parser:
they declare a base or a namespace, once the whole directive has been read. Each object makes a
triple, and the token after it says what comes next.

* **`Parser.readStatement`** — the first token of a statement: a directive, read to its end by
  **`Parser.readBase`** or **`Parser.readPrefix`**, or a subject.
* **`Parser.readPredicate`** — a predicate, or the end of the list.
* **`Parser.readObject`** — an object with the token after it, and **`Parser.readTriple`** the
  triple it makes. -/

namespace RdfTurtle.Parser

variable [IriLibrary]

/-- Reads the `.` that ends a directive. -/
def readDot : Action Unit := do
  let token ← lexAfterBlank .terminator
  unless token.production = .dot do throw token.unexpected

/-- Reads an IRI reference that a directive declares, and the `.` after it if the directive has
one. -/
def readDeclared (dotted : Bool) : Action (Token × String) := do
  let token ← lexAfterBlank .iriRef
  let iri ← resource token
  if dotted then readDot
  return (token, iri)

/-- Declares a base, which must be an absolute IRI. -/
def readBase (dotted : Bool) : Action Unit := do
  let (token, iri) ← readDeclared dotted
  match IriLibrary.parse iri.toList with
  | .ok base => modify fun p => { p with base? := some base }
  | .error reason => throw (.invalidIri iri reason token.position)

/-- Declares a namespace. -/
def readPrefix (dotted : Bool) : Action Unit := do
  let name ← lexAfterBlank .namespaceName
  let (_, iri) ← readDeclared dotted
  modify fun p => { p with prefixes := p.prefixes.insert (namespaceName name) iri }

/-- The label of a blank node: its token without `_:`. -/
def label (token : Token) : String := String.ofList (token.chars.drop 2)

/-- Goes on after the first token of a statement: through the directive it begins, or to the
predicates of the subject it is. -/
def readStatement (token : Token) : Action Unit :=
  match token.production with
  | .atBase => readBase true
  | .sparqlBase => readBase false
  | .atPrefix => readPrefix true
  | .sparqlPrefix => readPrefix false
  | .iriRef | .namespaceName => do
    let iri ← resource token
    expect (.predicate (.iri iri) false)
  | .blankNodeLabel => expect (.predicate (.blank (label token)) false)
  | _ => throw token.unexpected

/-- Goes on after a token in the place of a predicate. The list may end only after a predicate. -/
def readPredicate (subject : Term) (continued : Bool) (token : Token) : Action Unit :=
  match token.production with
  | .semicolon =>
    if continued then expect (.predicate subject true) else throw token.unexpected
  | .dot => if continued then expect .statement else throw token.unexpected
  | .typeWord => expect (.object subject (.iri Vocabulary.rdfType))
  | _ => do
    let iri ← resource token
    expect (.object subject (.iri iri))

/-- Reads the token that ends an object. -/
def readTerminator : Action Token := lexAfterBlank .terminator

/-- Reads what follows a string without escapes, and then the token that ends the object. -/
def readSuffix (lexical : String) : Action (Term × Token) := do
  let suffix ← lexAfterBlank .literalSuffix
  match suffix.production with
  | .languageTag =>
    let language := String.ofList (suffix.chars.drop 1)
    return (.literal ⟨lexical, none, some language⟩, ← readTerminator)
  | .datatypeMark =>
    let datatype ← resource (← lexAfterBlank .datatype)
    return (.literal ⟨lexical, some datatype, none⟩, ← readTerminator)
  | _ => return (.literal (.plain lexical), suffix)

/-- Goes on after the token of a string between marks of `n` characters. -/
def readString (n : Nat) (token : Token) : Action (Term × Token) :=
  match Escape.string? (token.inner n) with
  | some lexical => readSuffix (String.ofList lexical)
  | none => throw (.invalidEscape token.position)

/-- Goes on after the token of an unquoted literal. -/
def readTyped (datatype : String) (token : Token) : Action (Term × Token) := do
  return (.literal (.typed (String.ofList token.chars) datatype), ← readTerminator)

/-- Goes on after a token in the place of an object, up to the token that ends the object. -/
def readObject (token : Token) : Action (Term × Token) :=
  match token.production with
  | .iriRef | .namespaceName => do
    let iri ← resource token
    return (.iri iri, ← readTerminator)
  | .blankNodeLabel => do
    return (.blank (label token), ← readTerminator)
  | .integer => readTyped Vocabulary.xsdInteger token
  | .decimal => readTyped Vocabulary.xsdDecimal token
  | .double => readTyped Vocabulary.xsdDouble token
  | .boolean => readTyped Vocabulary.xsdBoolean token
  | .shortString _ => readString 1 token
  | .longString _ => readString 3 token
  | _ => throw token.unexpected

/-- What may come after an object that ends with a token of kind `p`. -/
def expectedAfter (subject predicate : Term) : Production → Expected
  | .comma => .object subject predicate
  | .semicolon => .predicate subject true
  | _ => .statement

/-- Goes on after a token in the place of an object, to the triple that it completes. -/
def readTriple (subject predicate : Term) (token : Token) : Action Triple := do
  let (object, terminator) ← readObject token
  expect (expectedAfter subject predicate terminator.production)
  return ⟨subject, predicate, object⟩

/-! ## Statements use up input -/

omit [IriLibrary] in
/-- The token that ends an object is not empty. -/
theorem spends_readTerminator : Spends size readTerminator := spends_lexAfterBlank rfl

omit [IriLibrary] in
/-- Reading the dot of a directive gives nothing back. -/
theorem keeps_readDot : Keeps size readDot := by
  refine (spends_lexAfterBlank rfl).1.bind fun token => ?_
  split
  · exact .pure _
  · exact .throw _

/-- Nor does reading what a directive declares. -/
theorem keeps_readDeclared (dotted : Bool) : Keeps size (readDeclared dotted) := by
  refine (spends_lexAfterBlank rfl).1.bind fun token => (keeps_resource token).bind fun iri => ?_
  split
  · exact keeps_readDot.bind fun _ => .pure _
  · exact .pure _

/-- Declaring a base adds nothing to the input. -/
theorem keeps_readBase (dotted : Bool) : Keeps size (readBase dotted) := by
  refine (keeps_readDeclared dotted).bind fun declared => ?_
  dsimp only
  split
  · exact .of_modify fun _ => Nat.le_refl _
  · exact .throw _

/-- Nor does declaring a namespace. -/
theorem keeps_readPrefix (dotted : Bool) : Keeps size (readPrefix dotted) :=
  (spends_lexAfterBlank rfl).1.bind fun _ => (keeps_readDeclared dotted).bind fun _ =>
    .of_modify fun _ => Nat.le_refl _

/-- Nothing is given back behind the first token of a statement. -/
theorem keeps_readStatement (token : Token) : Keeps size (readStatement token) := by
  unfold readStatement
  split
  · exact keeps_readBase true
  · exact keeps_readBase false
  · exact keeps_readPrefix true
  · exact keeps_readPrefix false
  · exact (keeps_resource token).bind fun _ => keeps_expect _
  · exact (keeps_resource token).bind fun _ => keeps_expect _
  · exact keeps_expect _
  · exact .throw _

/-- Nor behind a token in the place of a predicate. -/
theorem keeps_readPredicate (subject : Term) (continued : Bool) (token : Token) :
    Keeps size (readPredicate subject continued token) := by
  unfold readPredicate
  split
  · split
    · exact keeps_expect _
    · exact .throw _
  · split
    · exact keeps_expect _
    · exact .throw _
  · exact keeps_expect _
  · exact (keeps_resource token).bind fun _ => keeps_expect _

/-- Nor behind a string. -/
theorem keeps_readSuffix (lexical : String) : Keeps size (readSuffix lexical) := by
  refine (spends_lexAfterBlank rfl).1.bind fun suffix => ?_
  split
  · exact spends_readTerminator.1.bind fun _ => .pure _
  · exact (spends_lexAfterBlank rfl).1.bind fun token => (keeps_resource token).bind fun _ =>
      spends_readTerminator.1.bind fun _ => .pure _
  · exact .pure _

/-- A string that cannot be decoded is not given back either. -/
theorem keeps_readString (n : Nat) (token : Token) : Keeps size (readString n token) := by
  unfold readString
  split
  · exact keeps_readSuffix _
  · exact .throw _

omit [IriLibrary] in
/-- Reading what ends an unquoted literal gives nothing back. -/
theorem keeps_readTyped (datatype : String) (token : Token) :
    Keeps size (readTyped datatype token) :=
  spends_readTerminator.1.bind fun _ => .pure _

/-- Nothing is given back behind a token in the place of an object. -/
theorem keeps_readObject (token : Token) : Keeps size (readObject token) := by
  unfold readObject
  split
  · exact (keeps_resource token).bind fun _ => spends_readTerminator.1.bind fun _ => .pure _
  · exact (keeps_resource token).bind fun _ => spends_readTerminator.1.bind fun _ => .pure _
  · exact spends_readTerminator.1.bind fun _ => .pure _
  · exact keeps_readTyped _ token
  · exact keeps_readTyped _ token
  · exact keeps_readTyped _ token
  · exact keeps_readTyped _ token
  · exact keeps_readString 1 token
  · exact keeps_readString 3 token
  · exact .throw _

/-- Completing a triple adds nothing to the input. -/
theorem keeps_readTriple (subject predicate : Term) (token : Token) :
    Keeps size (readTriple subject predicate token) :=
  (keeps_readObject token).bind fun _ => (keeps_expect _).bind fun _ => .pure _

end RdfTurtle.Parser
