import RdfTurtle.Document.Error
import RdfTurtle.Escape
import RdfTurtle.Iri
import RdfTurtle.PrefixMap
import RdfTurtle.Scanner.Recognize
import RdfTurtle.Term

/-! # The state of a parser and its tokens

A **parser** reads a document token by token. Between two tokens it knows the base, the declared
namespaces, and what may come next.

* **`Parser`**, **`Expected`** — the state.
* **`Parser.create`** — a parser at the start of a document, after its byte order mark.
* **`Parser.lex`**, **`Parser.skipBlank`** — reading a token, and passing over blanks.
* **`Parser.resource`** — the IRI that an IRI reference or a prefixed name stands for. -/

namespace RdfTurtle

/-- How a document is parsed: the base until it declares its own, whether parsing goes on after an
error, and how its text is read. -/
structure ParserOptions where
  base? : Option String := none
  recover : Bool := false
  scanner : Options := {}
  deriving DecidableEq, Repr, Inhabited

/-- What may come next. -/
inductive Expected where
  /-- A statement or the end -/
  | statement
  /-- A predicate of `subject`; `continued` if there was one before, so that the list may end -/
  | predicate (subject : Term) (continued : Bool)
  /-- An object -/
  | object (subject predicate : Term)
  /-- Nothing -/
  | nothing
  deriving DecidableEq, Repr, Inhabited

/-- The state of a parser. `afterDot` says that the last token was a `.`, so that the parser stands
between two statements whatever was expected. -/
structure Parser where
  scanner : Scanner
  base? : Option Iri
  prefixes : PrefixMap
  expected : Expected
  recover : Bool
  afterDot : Bool

/-- A token: a lexeme's kind, characters and position. -/
structure Token where
  production : Production
  chars : List Char
  position : Position
  deriving DecidableEq, Repr, Inhabited

namespace Token

/-- The token of a lexeme. -/
def ofLexeme (l : Lexeme) : Token := ⟨l.production, l.text.chars, l.position⟩

/-- The error for a token that may not stand here. -/
def unexpected (t : Token) : DocumentError := .unexpectedToken t.production t.position

/-- The characters between delimiters of `n` characters on each side. -/
def inner (t : Token) (n : Nat) : List Char := (t.chars.drop n).take (t.chars.length - 2 * n)

end Token

namespace Parser

/-- The byte order mark, which may come first. -/
def byteOrderMark : CodePoint := ⟨0xFEFF⟩

/-- Passes over a byte order mark. -/
def skipMark (s : Scanner) : Except LexError Scanner :=
  if s.current.codePoint? = some byteOrderMark then
    match s.advance with
    | .ok () s => .ok s
    | .error e _ => .error e
  else .ok s

/-- A byte order mark is passed over in one step, and nothing else is. -/
theorem of_skipMark_ok {s t : Scanner} (h : skipMark s = .ok t) :
    s.current.codePoint? ≠ some byteOrderMark ∧ t = s ∨
      s.current.codePoint? = some byteOrderMark ∧ ¬ s.atEnd ∧ s.step = .ok () t := by
  unfold skipMark at h
  split at h
  · next hmark =>
    have hend : ¬ s.atEnd := by
      rw [Scanner.atEnd, hmark]
      exact Bool.false_ne_true
    rw [Scanner.advance, if_neg hend] at h
    split at h
    · next hstep =>
      injection h with h
      exact Or.inr ⟨hmark, hend, h ▸ hstep⟩
    · cases h
  · next hmark =>
    injection h with h
    exact Or.inl ⟨hmark, h.symm⟩

/-- The scanner with which parsing begins has passed over the mark since it was created. -/
theorem of_begin_ok {source : Source} {options : Options} {t : Scanner}
    (h : (Scanner.ofSource source options >>= skipMark) = .ok t) :
    ∃ s, Scanner.ofSource source options = .ok s ∧ skipMark s = .ok t := by
  cases hs : Scanner.ofSource source options with
  | error e =>
    rw [hs] at h
    cases h
  | ok s =>
    rw [hs] at h
    exact ⟨s, rfl, h⟩

/-- The base that a document starts with, which must be an absolute IRI if one is given. -/
def initialBase? [IriLibrary] : Option String → Except DocumentError (Option Iri)
  | none => .ok none
  | some base =>
    match IriLibrary.parse base.toList with
    | .ok iri => .ok (some iri)
    | .error reason => .error (.invalidIri base reason .start)

/-- A parser at the start of a document. Its first code point must be decodable. -/
def create [IriLibrary] (source : Source) (options : ParserOptions) :
    Except DocumentError Parser := do
  let base? ← initialBase? options.base?
  match Scanner.ofSource source options.scanner >>= skipMark with
  | .ok scanner => .ok ⟨scanner, base?, .empty, .statement, options.recover, false⟩
  | .error e => .error (.lex e)

/-- The input that is still to be read. -/
def size (p : Parser) : Nat := p.scanner.size

/-- Actions of a parser, which keep the state when they fail. -/
abbrev Action (α : Type) := EStateM DocumentError Parser α

/-- Reads a token. -/
def lex (r : Recognizer) : Action Token := fun p =>
  match p.scanner.recognize r with
  | .ok l scanner =>
    .ok (.ofLexeme l) { p with scanner, afterDot := l.production = .dot }
  | .error e scanner => .error (.lex e) { p with scanner, afterDot := false }

/-- Passes over blanks and comments. -/
def skipBlank : Action Unit := fun p =>
  match p.scanner.recognize .blank with
  | .ok _ scanner => .ok () { p with scanner }
  | .error e scanner => .error (.lex e) { p with scanner }

/-- Passes over blanks and comments and reads a token. -/
def lexAfterBlank (r : Recognizer) : Action Token := do
  skipBlank
  lex r

/-- Sets what may come next. -/
def expect (expected : Expected) : Action Unit := modify fun p => { p with expected }

/-- Resolves a reference against the base. Without a base it stands for itself. -/
def resolve [IriLibrary] (reference : List Char) (position : Position) : Action String := do
  match (← get).base? with
  | none => return String.ofList reference
  | some base =>
    match IriLibrary.resolve base reference with
    | .ok iri => return iri.text
    | .error reason => throw (.invalidIri (String.ofList reference) reason position)

/-- The name of a namespace: its token without the colon. -/
def namespaceName (token : Token) : String := String.ofList token.chars.dropLast

/-- The IRI that a prefixed name stands for, reading its local part, which follows at once. -/
def expand (token : Token) : Action String := do
  match (← get).prefixes.find? (namespaceName token) with
  | none => throw (.unknownPrefix (namespaceName token) token.position)
  | some iri =>
    let rest ← lex .localName
    return iri ++ String.ofList (Escape.localName rest.chars)

/-- The IRI that a token stands for: an IRI reference, or a namespace with the local name after
it. -/
def resource [IriLibrary] (token : Token) : Action String :=
  match token.production with
  | .iriRef =>
    match Escape.iri? (token.inner 1) with
    | some reference => resolve reference token.position
    | none => throw (.invalidEscape token.position)
  | .namespaceName => expand token
  | _ => throw token.unexpected

/-! ## What reading comes to -/

section Outcomes

variable {p q : Parser} {r : Recognizer} {e : DocumentError}

/-- A token is what the scanner has recognized. -/
theorem of_lex_ok {token : Token} (h : p.lex r = .ok token q) :
    ∃ l scanner, p.scanner.recognize r = .ok l scanner ∧ token = .ofLexeme l ∧
      q = { p with scanner, afterDot := l.production = .dot } := by
  unfold lex at h
  split at h
  · next hr =>
    cases h
    exact ⟨_, _, hr, rfl, rfl⟩
  · cases h

/-- A token that cannot be read is rejected by the scanner. -/
theorem of_lex_error (h : p.lex r = .error e q) :
    ∃ fault scanner, p.scanner.recognize r = .error fault scanner ∧ e = .lex fault ∧
      q = { p with scanner, afterDot := false } := by
  unfold lex at h
  split at h
  · cases h
  · next hr =>
    cases h
    exact ⟨_, _, hr, rfl, rfl⟩

/-- Blanks are what the scanner has recognized. -/
theorem of_skipBlank_ok (h : p.skipBlank = .ok () q) :
    ∃ l scanner, p.scanner.recognize .blank = .ok l scanner ∧ q = { p with scanner } := by
  unfold skipBlank at h
  split at h
  · next hr =>
    cases h
    exact ⟨_, _, hr, rfl⟩
  · cases h

/-- Blanks that cannot be passed over are rejected by the scanner. -/
theorem of_skipBlank_error (h : p.skipBlank = .error e q) :
    ∃ fault scanner, p.scanner.recognize .blank = .error fault scanner ∧ e = .lex fault ∧
      q = { p with scanner } := by
  unfold skipBlank at h
  split at h
  · cases h
  · next hr =>
    cases h
    exact ⟨_, _, hr, rfl, rfl⟩

end Outcomes

/-! ## Tokens use up input -/

/-- Reading a token adds nothing to the input. -/
theorem keeps_lex (r : Recognizer) : Keeps size (lex r) := by
  intro p
  have h := Scanner.keeps_recognize r p.scanner
  unfold lex
  split <;> next hr => rw [hr] at h; exact h

/-- A token that may not be empty uses input up. -/
theorem spends_lex {r : Recognizer} (hr : r.nullable = false) : Spends size (lex r) := by
  refine ⟨keeps_lex r, fun p token p' h => ?_⟩
  obtain ⟨l, scanner, hl, rfl, rfl⟩ := of_lex_ok h
  exact (Scanner.spends_recognize hr).2 hl

/-- Nor does passing over blanks. -/
theorem keeps_skipBlank : Keeps size skipBlank := by
  intro p
  have h := Scanner.keeps_recognize .blank p.scanner
  unfold skipBlank
  split <;> next hr => rw [hr] at h; exact h

/-- A token that may not be empty uses up input, behind whatever blanks. -/
theorem spends_lexAfterBlank {r : Recognizer} (hr : r.nullable = false) :
    Spends size (lexAfterBlank r) :=
  keeps_skipBlank.bind_spends fun _ => spends_lex hr

/-- Nothing is read in order to expect something. -/
theorem keeps_expect (expected : Expected) : Keeps size (expect expected) :=
  .of_modify fun _ => Nat.le_refl _

/-- Nor in order to resolve a reference. -/
theorem keeps_resolve [IriLibrary] (reference : List Char) (position : Position) :
    Keeps size (resolve reference position) := by
  refine Keeps.of_get.bind fun p => ?_
  split
  · exact .pure _
  · split
    · exact .pure _
    · exact .throw _

/-- Expanding a prefixed name adds nothing to the input. -/
theorem keeps_expand (token : Token) : Keeps size (expand token) := by
  refine Keeps.of_get.bind fun p => ?_
  split
  · exact .throw _
  · exact (keeps_lex _).bind fun _ => .pure _

/-- Nor does naming an IRI. -/
theorem keeps_resource [IriLibrary] (token : Token) : Keeps size (resource token) := by
  unfold resource
  split
  · split
    · exact keeps_resolve _ _
    · exact .throw _
  · exact keeps_expand token
  · exact .throw _

end Parser

end RdfTurtle
