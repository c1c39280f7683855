/-! # Tokens of Turtle

* **`Production`** — the kinds of token, named after the grammar.
* **`Production.name`** — the name of a kind in messages.
* **`Recognizer`** — the places of the grammar at which a token is asked for. Some take one kind
  only, others choose among the kinds that may stand at the place. -/

namespace RdfTurtle

/-- The two characters that quote a string. -/
inductive Quote where
  | double
  | single
  deriving DecidableEq, Repr, Inhabited

/-- The character of a quote. -/
def Quote.char : Quote → Char
  | .double => '"'
  | .single => '\''

/-- The kinds of token. -/
inductive Production where
  /-- `@base` -/
  | atBase
  /-- `@prefix` -/
  | atPrefix
  /-- `BASE`, in any case -/
  | sparqlBase
  /-- `PREFIX`, in any case -/
  | sparqlPrefix
  /-- An IRI between angle brackets -/
  | iriRef
  /-- The namespace of a prefixed name, its colon included -/
  | namespaceName
  /-- The local part of a prefixed name, possibly empty -/
  | localName
  /-- `_:` and a label -/
  | blankNodeLabel
  /-- A string between single marks -/
  | shortString (quote : Quote)
  /-- A string between triple marks -/
  | longString (quote : Quote)
  /-- Digits, perhaps signed -/
  | integer
  /-- A number with a decimal point -/
  | decimal
  /-- A number with an exponent -/
  | double
  /-- `true` or `false` -/
  | boolean
  /-- A language tag, its `@` included -/
  | languageTag
  /-- `^^` -/
  | datatypeMark
  /-- The word `a` in the place of a predicate -/
  | typeWord
  /-- `;` -/
  | semicolon
  /-- `,` -/
  | comma
  /-- `.` -/
  | dot
  /-- Blanks and comments -/
  | blank
  deriving DecidableEq, Repr, Inhabited

/-- The name of a kind of token in messages. -/
def Production.name : Production → String
  | .atBase => "Base"
  | .atPrefix => "Prefix"
  | .sparqlBase => "SparqlBase"
  | .sparqlPrefix => "SparqlPrefix"
  | .iriRef => "IriRef"
  | .namespaceName => "PnameNs"
  | .localName => "PnLocal"
  | .blankNodeLabel => "BlankNodeLabel"
  | .shortString .double => "StringLiteralQuote"
  | .shortString .single => "StringLiteralSingleQuote"
  | .longString .double => "StringLiteralLongQuote"
  | .longString .single => "StringLiteralLongSingleQuote"
  | .integer => "Integer"
  | .decimal => "Decimal"
  | .double => "Double"
  | .boolean => "Boolean"
  | .languageTag => "LangTag"
  | .datatypeMark => "Datatype"
  | .typeWord => "A"
  | .semicolon => "PredicateList"
  | .comma => "ObjectList"
  | .dot => "Dot"
  | .blank => "Whitespace"

/-- Different kinds have different names. -/
theorem Production.name_inj {p q : Production} : p.name = q.name ↔ p = q := by
  refine ⟨fun h => ?_, congrArg name⟩
  rcases p with _ | _ | _ | _ | _ | _ | _ | _ | ⟨_ | _⟩ | ⟨_ | _⟩ | _ | _ | _ | _ | _ | _ | _ | _ |
    _ | _ | _ <;>
  rcases q with _ | _ | _ | _ | _ | _ | _ | _ | ⟨_ | _⟩ | ⟨_ | _⟩ | _ | _ | _ | _ | _ | _ | _ | _ |
    _ | _ | _ <;>
  first
    | rfl
    | exact absurd h (by decide)

/-- The places of the grammar at which a token is asked for. -/
inductive Recognizer where
  /-- The first token of a statement: a directive word or a subject -/
  | statement
  /-- A predicate, or what ends a predicate list -/
  | predicate
  /-- An object -/
  | object
  /-- An IRI between angle brackets -/
  | iriRef
  /-- The namespace of a prefixed name -/
  | namespaceName
  /-- The local part of a prefixed name -/
  | localName
  /-- A blank node label -/
  | blankNodeLabel
  /-- A string, quoted in any of the four ways -/
  | string
  /-- A number of any of the three kinds -/
  | number
  /-- `true` or `false` -/
  | boolean
  /-- A language tag -/
  | languageTag
  /-- `;`, `,` or `.` -/
  | terminator
  /-- What follows a string: a language tag, `^^` or a terminator -/
  | literalSuffix
  /-- The IRI or namespace after `^^` -/
  | datatype
  /-- Blanks and comments -/
  | blank
  deriving DecidableEq, Repr, Inhabited

namespace Recognizer

/-- Every place, in the order of the declaration. -/
def all : List Recognizer :=
  [.statement, .predicate, .object, .iriRef, .namespaceName, .localName, .blankNodeLabel, .string,
    .number, .boolean, .languageTag, .terminator, .literalSuffix, .datatype, .blank]

/-- The list leaves no place out. -/
theorem mem_all (r : Recognizer) : r ∈ all := by cases r <;> decide

/-- Whether the token may be empty, as a local name and a run of blanks may. -/
def nullable : Recognizer → Bool
  | .localName | .blank => true
  | _ => false

end Recognizer

end RdfTurtle
