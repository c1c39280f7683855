import RdfTurtle.Document.Items

/-! # Likeness of what is read

Two runs over two inputs are compared by what they read. What counts as alike is a parameter: it
says how positions, texts and decoders are related, and which code points are decoded. Errors and
items that are alike differ at most in their positions.

* **`Likeness`** — the relations.
* **`Likeness.Lookaheads`**, **`Likeness.LexErrors`**, **`Likeness.Lexemes`** — what scanners show.
* **`Likeness.Tokens`**, **`Likeness.DocumentErrors`**, **`Likeness.Items`** — what parsers show. -/

namespace RdfTurtle

/-- How the parts of two scanners are compared. -/
structure Likeness where
  Positions : Position → Position → Prop
  Texts : Text → Text → Prop
  Decoders : Decoder → Decoder → Prop
  /-- The code points that both scanners may decode -/
  Admits : CodePoint → Prop

namespace Likeness

variable {k : Likeness}

/-! ## Scanners -/

/-- Alike lookaheads: the same code point, or the end of both inputs. -/
structure Lookaheads (k : Likeness) (l l' : Lookahead) : Prop where
  codePoint : l.codePoint? = l'.codePoint?
  position : k.Positions l.position l'.position
  admits : ∀ c, l.codePoint? = some c → k.Admits c

/-- Alike errors: the same fault at alike positions. -/
structure LexErrors (k : Likeness) (e e' : LexError) : Prop where
  fault : e.fault = e'.fault
  position : k.Positions e.position e'.position

/-- Alike lexemes: the same kind, alike texts and positions. -/
structure Lexemes (k : Likeness) (l l' : Lexeme) : Prop where
  production : l.production = l'.production
  text : k.Texts l.text l'.text
  position : k.Positions l.position l'.position

/-! ## Parsers -/

/-- Alike tokens: the same kind and characters at alike positions. -/
structure Tokens (k : Likeness) (t t' : Token) : Prop where
  production : t.production = t'.production
  chars : t.chars = t'.chars
  position : k.Positions t.position t'.position

/-- Alike errors of documents: the same error at alike positions. -/
inductive DocumentErrors (k : Likeness) : DocumentError → DocumentError → Prop
  | lex {e e' : LexError} (error : k.LexErrors e e') : DocumentErrors k (.lex e) (.lex e')
  | unknownPrefix (name : String) {p p' : Position} (position : k.Positions p p') :
    DocumentErrors k (.unknownPrefix name p) (.unknownPrefix name p')
  | invalidIri (iri reason : String) {p p' : Position} (position : k.Positions p p') :
    DocumentErrors k (.invalidIri iri reason p) (.invalidIri iri reason p')
  | invalidEscape {p p' : Position} (position : k.Positions p p') :
    DocumentErrors k (.invalidEscape p) (.invalidEscape p')
  | unexpectedToken (production : Production) {p p' : Position} (position : k.Positions p p') :
    DocumentErrors k (.unexpectedToken production p) (.unexpectedToken production p')

/-- Alike items: the same triple, or alike errors. -/
inductive Items (k : Likeness) : Item → Item → Prop
  | triple (t : Triple) : Items k (.triple t) (.triple t)
  | error {e e' : DocumentError} (error : k.DocumentErrors e e') : Items k (.error e) (.error e')

section Mono

variable {k' : Likeness} (hpositions : ∀ ⦃p p'⦄, k.Positions p p' → k'.Positions p p')

include hpositions

/-- Errors that are alike are alike when positions are compared more loosely. -/
theorem LexErrors.mono {e e' : LexError} (h : k.LexErrors e e') : k'.LexErrors e e' :=
  ⟨h.fault, hpositions h.position⟩

/-- So are errors of documents. -/
theorem DocumentErrors.mono {e e' : DocumentError} (h : k.DocumentErrors e e') :
    k'.DocumentErrors e e' := by
  cases h with
  | lex error => exact .lex (error.mono hpositions)
  | unknownPrefix name position => exact .unknownPrefix name (hpositions position)
  | invalidIri iri reason position => exact .invalidIri iri reason (hpositions position)
  | invalidEscape position => exact .invalidEscape (hpositions position)
  | unexpectedToken production position => exact .unexpectedToken production (hpositions position)

/-- So are items. -/
theorem Items.mono {i i' : Item} (h : k.Items i i') : k'.Items i i' := by
  cases h with
  | triple t => exact .triple t
  | error error => exact .error (error.mono hpositions)

end Mono

/-- Alike tokens hold the same between their delimiters. -/
theorem inner_eq {t t' : Token} (h : k.Tokens t t') (n : Nat) : t.inner n = t'.inner n := by
  unfold Token.inner
  rw [h.chars]

/-- Alike tokens have the same label. -/
theorem label_eq {t t' : Token} (h : k.Tokens t t') : Parser.label t = Parser.label t' := by
  unfold Parser.label
  rw [h.chars]

/-- Alike tokens are unexpected alike. -/
theorem errors_unexpected {t t' : Token} (h : k.Tokens t t') :
    k.DocumentErrors t.unexpected t'.unexpected := by
  unfold Token.unexpected
  rw [h.production]
  exact .unexpectedToken _ h.position

/-- Parsing goes on after both of two alike errors, or after neither. -/
theorem recoverable_eq {e e' : DocumentError} (h : k.DocumentErrors e e') :
    e.recoverable = e'.recoverable := by
  cases h with
  | @lex e e' error =>
    obtain ⟨fault, position⟩ := e
    obtain ⟨fault', position'⟩ := e'
    obtain rfl : fault = fault' := error.fault
    cases fault <;> rfl
  | unknownPrefix | invalidIri | invalidEscape | unexpectedToken => rfl

end Likeness

end RdfTurtle
