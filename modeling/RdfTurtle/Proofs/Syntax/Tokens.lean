import Mathlib.Data.List.Forall2
import Mathlib.Data.String.Basic
import RdfTurtle.Options
import RdfTurtle.Proofs.Syntax.Escapes
import RdfTurtle.Token.State

/-! # The spellings of tokens

Each token of the grammar as a tree that says how it is written and what it stands for. The trees
carry the conditions of the grammar, so that every tree is a token and every token has a tree.

* **`Piece`** — a character of a body as it is, or an escape of one.
* **`IriRef`**, **`StringToken`** — bodies between delimiters.
* **`Namespace`**, **`LocalName`**, **`Label`** — names.
* **`Number`**, **`Language`**, **`Spelling`** — numbers, language tags and keywords.
* **`Blanks`**, **`Gap`** — what stands between tokens. -/

namespace RdfTurtle

/-- The code points are the letters of the word, each in lower or upper case. -/
def InAnyCase (word : List Char) (text : List CodePoint) : Prop :=
  List.Forall₂ (fun x c => c = CodePoint.ofChar x ∨ c = CodePoint.ofChar x.toUpper) word text

instance (word : List Char) (text : List CodePoint) : Decidable (InAnyCase word text) :=
  inferInstanceAs (Decidable (List.Forall₂ _ word text))

namespace Syntax

/-! ## Escapes and bodies -/

/-- A numeric escape: `u` and four hexadecimal digits, or `U` and eight, that spell the number of a
character. -/
structure NumericEscape where
  long : Bool
  digits : List Char
  length : digits.length = if long then 8 else 4
  hex : ∀ x ∈ digits, x ∈ Escape.hexDigits
  names : (Escape.number digits).isValidChar

/-- The character that the escape names. -/
def NumericEscape.named (e : NumericEscape) : Char := Char.ofNat (Escape.number e.digits)

/-- The escape as it is written, with its backslash. -/
def NumericEscape.text (e : NumericEscape) : List Char :=
  '\\' :: (if e.long then 'U' else 'u') :: e.digits

/-- A piece of a body: a character that may stand there as it is, a backslash and a letter that
together stand for a character, or a numeric escape. -/
inductive Piece (Raw : Char → Prop) (letters : Char → Option Char) where
  | raw (x : Char) (h : Raw x)
  | letter (x y : Char) (h : letters x = some y)
  | numeric (e : NumericEscape)

namespace Piece

variable {Raw : Char → Prop} {letters : Char → Option Char}

/-- The piece as it is written. -/
def text : Piece Raw letters → List Char
  | .raw x _ => [x]
  | .letter x _ _ => ['\\', x]
  | .numeric e => e.text

/-- The character that the piece stands for. -/
def value : Piece Raw letters → Char
  | .raw x _ => x
  | .letter _ y _ => y
  | .numeric e => e.named

end Piece

/-! ## IRI references -/

/-- The characters that may stand as they are between angle brackets. Strict checking forbids some
of them. -/
def IriRaw (iri : Strictness) (x : Char) : Prop :=
  x ≠ '>' ∧ x ≠ '\\' ∧ (iri = .strict → (x : CodePoint) ∉ CharClass.iriForbidden)

/-- An IRI reference between angle brackets. -/
structure IriRef (iri : Strictness) where
  pieces : List (Piece (IriRaw iri) fun _ => none)

namespace IriRef

variable {iri : Strictness}

/-- The reference as it is written, with its brackets. -/
def text (r : IriRef iri) : List Char := '<' :: (r.pieces.flatMap Piece.text ++ ['>'])

/-- The reference that the token stands for. -/
def reference (r : IriRef iri) : List Char := r.pieces.map Piece.value

end IriRef

/-! ## Strings -/

/-- The characters that may stand as they are between single marks. -/
def ShortRaw (q : Quote) (x : Char) : Prop :=
  x ≠ q.char ∧ x ≠ '\\' ∧ (x : CodePoint) ∉ CharClass.lineEnd

/-- The characters that may stand as they are between triple marks, the mark apart. -/
def LongRaw (q : Quote) (x : Char) : Prop := x ≠ q.char ∧ x ≠ '\\'

/-- At most two marks and a piece that is none, as in a string between triple marks. -/
structure LongUnit (q : Quote) where
  marks : Nat
  marks_le : marks ≤ 2
  piece : Piece (LongRaw q) Escape.letterOf

namespace LongUnit

variable {q : Quote}

/-- The unit as it is written. -/
def text (u : LongUnit q) : List Char := List.replicate u.marks q.char ++ u.piece.text

/-- The characters that the unit stands for. -/
def value (u : LongUnit q) : List Char := List.replicate u.marks q.char ++ [u.piece.value]

end LongUnit

/-- A string between single or triple marks of either kind. -/
inductive StringToken where
  | short (q : Quote) (pieces : List (Piece (ShortRaw q) Escape.letterOf))
  | long (q : Quote) (units : List (LongUnit q))

namespace StringToken

/-- The mark of the string. -/
def quote : StringToken → Quote
  | .short q _ | .long q _ => q

/-- How many marks stand on each side. -/
def marks : StringToken → Nat
  | .short .. => 1
  | .long .. => 3

/-- What stands between the marks. -/
def body : StringToken → List Char
  | .short _ pieces => pieces.flatMap Piece.text
  | .long _ units => units.flatMap LongUnit.text

/-- The string as it is written, with its marks. -/
def text (s : StringToken) : List Char :=
  List.replicate s.marks s.quote.char ++ s.body ++ List.replicate s.marks s.quote.char

/-- The characters that the string stands for. -/
def value : StringToken → List Char
  | .short _ pieces => pieces.map Piece.value
  | .long _ units => units.flatMap LongUnit.value

/-- The kind of token that the string is. -/
def production : StringToken → Production
  | .short q _ => .shortString q
  | .long q _ => .longString q

end StringToken

/-! ## Names -/

/-- A character of `first`, then characters of `more` and dots, the last of which is no dot. -/
def IsName (first more : CharClass) : List Char → Prop
  | [] => False
  | x :: rest =>
    (x : CodePoint) ∈ first ∧ (∀ y ∈ rest, (y : CodePoint) ∈ more ∨ y = '.') ∧
      rest.getLast? ≠ some '.'

instance (first more : CharClass) : (chars : List Char) → Decidable (IsName first more chars)
  | [] => .isFalse id
  | x :: rest =>
    letI : Decidable (∀ y ∈ rest, (y : CodePoint) ∈ more ∨ y = '.') := List.decidableBAll _ rest
    inferInstanceAs (Decidable ((x : CodePoint) ∈ first ∧
      (∀ y ∈ rest, (y : CodePoint) ∈ more ∨ y = '.') ∧ rest.getLast? ≠ some '.'))

/-- The labels of blank nodes (`BLANK_NODE_LABEL` after its `_:`). -/
def IsLabel (chars : List Char) : Prop := IsName CharClass.labelStart CharClass.nameChar chars

instance (chars : List Char) : Decidable (IsLabel chars) := by
  unfold IsLabel
  infer_instance

/-- A blank node label. -/
structure Label where
  chars : List Char
  isLabel : IsLabel chars

/-- The label as it is written, with its `_:`. -/
def Label.text (l : Label) : List Char := '_' :: ':' :: l.chars

/-- The namespace of a prefixed name, possibly without characters (`PNAME_NS`). -/
structure Namespace where
  chars : List Char
  isName : chars ≠ [] → IsName CharClass.nameStart CharClass.nameChar chars

namespace Namespace

/-- The namespace with its colon. -/
def text (n : Namespace) : List Char := n.chars ++ [':']

/-- The name that the namespace is declared by. -/
def name (n : Namespace) : String := String.ofList n.chars

end Namespace

/-- A piece of a local name: a character, a dot, a percent sign with two hexadecimal digits, or a
backslash with a character that it may escape. -/
inductive LocalPiece where
  | plain (x : Char) (h : (x : CodePoint) ∈ CharClass.localChar)
  | dot
  | percent (x y : Char) (hx : (x : CodePoint) ∈ CharClass.hexDigit)
    (hy : (y : CodePoint) ∈ CharClass.hexDigit)
  | escape (x : Char) (h : (x : CodePoint) ∈ CharClass.localEscape)

namespace LocalPiece

/-- The piece as it is written. -/
def text : LocalPiece → List Char
  | .plain x _ => [x]
  | .dot => ['.']
  | .percent x y _ _ => ['%', x, y]
  | .escape x _ => ['\\', x]

/-- The characters that the piece stands for. -/
def value : LocalPiece → List Char
  | .plain x _ => [x]
  | .dot => ['.']
  | .percent x y _ _ => ['%', x, y]
  | .escape x _ => [x]

/-- Whether the piece may begin a name. -/
def Begins : LocalPiece → Prop
  | .plain x _ => (x : CodePoint) ∈ CharClass.localStart
  | .dot => False
  | .percent .. | .escape .. => True

end LocalPiece

/-- The local part of a prefixed name, possibly empty (`PN_LOCAL?`). -/
structure LocalName where
  pieces : List LocalPiece
  begins : ∀ p ∈ pieces.head?, p.Begins
  ends : pieces.getLast? ≠ some .dot

namespace LocalName

/-- The local name as it is written. -/
def text (n : LocalName) : List Char := n.pieces.flatMap LocalPiece.text

/-- The characters that the local name stands for. -/
def value (n : LocalName) : List Char := n.pieces.flatMap LocalPiece.value

end LocalName

/-! ## Numbers, language tags and keywords -/

/-- Characters of a class. -/
structure Run (k : CharClass) where
  chars : List Char
  all : ∀ x ∈ chars, (x : CodePoint) ∈ k

/-- Characters of a class, at least one. -/
structure Word (k : CharClass) extends Run k where
  nonempty : chars ≠ []

/-- A sign, or none. -/
inductive Sign where
  | plus
  | minus
  | none

/-- The sign as it is written. -/
def Sign.text : Sign → List Char
  | .plus => ['+']
  | .minus => ['-']
  | .none => []

/-- The digits of a number before its exponent: without a point, with one behind digits, or with one
in front of them. -/
inductive Mantissa where
  | bare (digits : Word CharClass.digit)
  | pointed (before : Word CharClass.digit) (after : Run CharClass.digit)
  | leading (after : Word CharClass.digit)

/-- The digits as they are written. -/
def Mantissa.text : Mantissa → List Char
  | .bare digits => digits.chars
  | .pointed before after => before.chars ++ '.' :: after.chars
  | .leading after => '.' :: after.chars

/-- A number of any of the three kinds. -/
inductive Number where
  | integer (sign : Sign) (digits : Word CharClass.digit)
  | decimal (sign : Sign) (before : Run CharClass.digit) (after : Word CharClass.digit)
  | double (sign : Sign) (mantissa : Mantissa) (mark : Char)
    (h : (mark : CodePoint) ∈ CharClass.exponentMark) (exponentSign : Sign)
    (exponent : Word CharClass.digit)

namespace Number

/-- The number as it is written. -/
def text : Number → List Char
  | .integer sign digits => sign.text ++ digits.chars
  | .decimal sign before after => sign.text ++ (before.chars ++ '.' :: after.chars)
  | .double sign mantissa mark _ exponentSign exponent =>
    sign.text ++ (mantissa.text ++ mark :: (exponentSign.text ++ exponent.chars))

/-- The kind of token that the number is. -/
def production : Number → Production
  | .integer .. => .integer
  | .decimal .. => .decimal
  | .double .. => .double

/-- The datatype of the literal that the number stands for. -/
def datatype : Number → String
  | .integer .. => "http://www.w3.org/2001/XMLSchema#integer"
  | .decimal .. => "http://www.w3.org/2001/XMLSchema#decimal"
  | .double .. => "http://www.w3.org/2001/XMLSchema#double"

end Number

/-- The word of a boolean. -/
def booleanText : Bool → List Char
  | true => ['t', 'r', 'u', 'e']
  | false => ['f', 'a', 'l', 's', 'e']

/-- A language: letters, then letters and digits behind hyphens. -/
structure Language where
  main : Word CharClass.letter
  subtags : List (Word CharClass.letterOrDigit)

namespace Language

/-- The language without its `@`. -/
def chars (l : Language) : List Char := l.main.chars ++ l.subtags.flatMap fun t => '-' :: t.chars

/-- The language as it is written, with its `@`. -/
def text (l : Language) : List Char := '@' :: l.chars

end Language

/-- A word in lower-case letters, spelled in any case. -/
structure Spelling (word : List Char) where
  chars : List Char
  anyCase : InAnyCase word (chars.map CodePoint.ofChar)

/-! ## What stands between tokens -/

/-- A blank, or a comment up to and including the end of its line. -/
inductive BlankPiece where
  | blank (x : Char) (h : (x : CodePoint) ∈ CharClass.blank)
  | comment (chars : List Char) (h : ∀ x ∈ chars, (x : CodePoint) ∉ CharClass.lineEnd)
    (ending : Char) (hending : (ending : CodePoint) ∈ CharClass.lineEnd)

/-- The blank or the comment as it is written. -/
def BlankPiece.text : BlankPiece → List Char
  | .blank x _ => [x]
  | .comment chars _ ending _ => '#' :: (chars ++ [ending])

/-- Blanks and comments, perhaps none. -/
structure Blanks where
  pieces : List BlankPiece

/-- The blanks as they are written. -/
def Blanks.text (b : Blanks) : List Char := b.pieces.flatMap BlankPiece.text

/-- Blanks and comments, at least one. -/
structure Gap where
  first : BlankPiece
  more : Blanks

/-- The gap as it is written. -/
def Gap.text (g : Gap) : List Char := g.first.text ++ g.more.text

/-- A gap where there may be none. -/
def Gap.blanks (g : Gap) : Blanks := ⟨g.first :: g.more.pieces⟩

/-- A gap is written in the same way where there may be none. -/
@[simp] theorem Gap.text_blanks (g : Gap) : g.blanks.text = g.text := rfl

/-- A single space. -/
def Gap.space : Gap := ⟨.blank ' ' (by simp [CharClass.blank, CharClass.mem_iff]), ⟨[]⟩⟩

/-- A single space is written as one. -/
@[simp] theorem Gap.text_space : Gap.space.text = [' '] := rfl

end Syntax

end RdfTurtle
