import RdfTurtle.CharClass

/-! # The character classes of the Turtle grammar

One table for each class that the terminals of the grammar use, unions spelled out so that each
test is one search. The name classes grow into one another: **`nameStart`** (`PN_CHARS_BASE`),
**`labelStart`** (that, `_` or a digit), **`localStart`** (that or a colon), and **`nameChar`**
(`PN_CHARS`), **`localChar`** (that or a colon). -/

namespace RdfTurtle.CharClass

/-- The range that holds one character. -/
abbrev one (x : Char) : Range := ⟨x.toNat, x.toNat, Nat.le_refl _⟩

/-- The range from `first` to `last`. -/
abbrev span (first last : Nat) (h : first ≤ last := by decide) : Range := ⟨first, last, h⟩

/-! ## Digits, letters and marks -/

/-- The decimal digits. -/
def digit : CharClass where
  ranges := #[span 0x30 0x39]

/-- The hexadecimal digits, in either case. -/
def hexDigit : CharClass where
  ranges := #[span 0x30 0x39, span 0x41 0x46, span 0x61 0x66]

/-- The ASCII letters. -/
def letter : CharClass where
  ranges := #[span 0x41 0x5A, span 0x61 0x7A]

/-- The ASCII letters and the decimal digits. -/
def letterOrDigit : CharClass where
  ranges := #[span 0x30 0x39, span 0x41 0x5A, span 0x61 0x7A]

/-- The signs of a number. -/
def sign : CharClass where
  ranges := #[one '+', one '-']

/-- The letter before an exponent, in either case. -/
def exponentMark : CharClass where
  ranges := #[one 'E', one 'e']

/-! ## Blanks and escapes -/

/-- Space, tab, carriage return and line feed. -/
def blank : CharClass where
  ranges := #[span 0x9 0xA, one '\r', one ' ']

/-- Line feed and carriage return. -/
def lineEnd : CharClass where
  ranges := #[one '\n', one '\r']

/-- The characters that follow a backslash in a string, `u` and `U` apart. -/
def stringEscape : CharClass where
  ranges := #[one '"', one '\'', one '\\', one 'b', one 'f', one 'n', one 'r', one 't']

/-- The characters that follow a backslash in a local name. -/
def localEscape : CharClass where
  ranges := #[one '!', span 0x23 0x2F, one ';', one '=', span 0x3F 0x40, one '_', one '~']

/-- The characters that strict checking forbids between angle brackets. -/
def iriForbidden : CharClass where
  ranges := #[span 0x0 0x20, one '"', one '<', one '^', one '\x60', span 0x7B 0x7D]

/-! ## Names -/

/-- First characters of a namespace name (`PN_CHARS_BASE`). -/
def nameStart : CharClass where
  ranges :=
    #[span 0x41 0x5A, span 0x61 0x7A, span 0xC0 0xD6, span 0xD8 0xF6, span 0xF8 0x2FF,
      span 0x370 0x37D, span 0x37F 0x1FFF, span 0x200C 0x200D, span 0x2070 0x218F,
      span 0x2C00 0x2FEF, span 0x3001 0xD7FF, span 0xF900 0xFDCF, span 0xFDF0 0xFFFD,
      span 0x10000 0xEFFFF]

/-- First characters of a blank node label (`PN_CHARS_U` or a digit). -/
def labelStart : CharClass where
  ranges :=
    #[span 0x30 0x39, span 0x41 0x5A, span 0x5F 0x5F, span 0x61 0x7A, span 0xC0 0xD6,
      span 0xD8 0xF6, span 0xF8 0x2FF, span 0x370 0x37D, span 0x37F 0x1FFF, span 0x200C 0x200D,
      span 0x2070 0x218F, span 0x2C00 0x2FEF, span 0x3001 0xD7FF, span 0xF900 0xFDCF,
      span 0xFDF0 0xFFFD, span 0x10000 0xEFFFF]

/-- First characters of a local name (`PN_CHARS_U`, a digit or a colon). -/
def localStart : CharClass where
  ranges :=
    #[span 0x30 0x3A, span 0x41 0x5A, span 0x5F 0x5F, span 0x61 0x7A, span 0xC0 0xD6,
      span 0xD8 0xF6, span 0xF8 0x2FF, span 0x370 0x37D, span 0x37F 0x1FFF, span 0x200C 0x200D,
      span 0x2070 0x218F, span 0x2C00 0x2FEF, span 0x3001 0xD7FF, span 0xF900 0xFDCF,
      span 0xFDF0 0xFFFD, span 0x10000 0xEFFFF]

/-- Further characters of a name (`PN_CHARS`). -/
def nameChar : CharClass where
  ranges :=
    #[span 0x2D 0x2D, span 0x30 0x39, span 0x41 0x5A, span 0x5F 0x5F, span 0x61 0x7A,
      span 0xB7 0xB7, span 0xC0 0xD6, span 0xD8 0xF6, span 0xF8 0x37D, span 0x37F 0x1FFF,
      span 0x200C 0x200D, span 0x203F 0x2040, span 0x2070 0x218F, span 0x2C00 0x2FEF,
      span 0x3001 0xD7FF, span 0xF900 0xFDCF, span 0xFDF0 0xFFFD, span 0x10000 0xEFFFF]

/-- Further characters of a local name (`PN_CHARS` or a colon). -/
def localChar : CharClass where
  ranges :=
    #[span 0x2D 0x2D, span 0x30 0x3A, span 0x41 0x5A, span 0x5F 0x5F, span 0x61 0x7A,
      span 0xB7 0xB7, span 0xC0 0xD6, span 0xD8 0xF6, span 0xF8 0x37D, span 0x37F 0x1FFF,
      span 0x200C 0x200D, span 0x203F 0x2040, span 0x2070 0x218F, span 0x2C00 0x2FEF,
      span 0x3001 0xD7FF, span 0xF900 0xFDCF, span 0xFDF0 0xFFFD, span 0x10000 0xEFFFF]

/-! ## The parts of an IRI -/

/-- Characters that may stand in every part but the scheme and the number behind a host. -/
def iriPlain : CharClass where
  ranges :=
    #[one '!', one '$', span 0x26 0x2E, span 0x30 0x39, one ';', one '=', span 0x41 0x5A, one '_',
      span 0x61 0x7A, one '~', span 0xA0 0xD7FF, span 0xF900 0xFDCF, span 0xFDF0 0xFFEF,
      span 0x10000 0x1FFFD, span 0x20000 0x2FFFD, span 0x30000 0x3FFFD, span 0x40000 0x4FFFD,
      span 0x50000 0x5FFFD, span 0x60000 0x6FFFD, span 0x70000 0x7FFFD, span 0x80000 0x8FFFD,
      span 0x90000 0x9FFFD, span 0xA0000 0xAFFFD, span 0xB0000 0xBFFFD, span 0xC0000 0xCFFFD,
      span 0xD0000 0xDFFFD, span 0xE1000 0xEFFFD]

/-- Private characters, which may stand in a query. -/
def iriPrivate : CharClass where
  ranges := #[span 0xE000 0xF8FF, span 0xF0000 0xFFFFD, span 0x100000 0x10FFFD]

/-! ## Membership in some of the classes, read off the tables -/

/-- A digit is a code point from `0` to `9`. -/
theorem mem_digit {c : CodePoint} : c ∈ digit ↔ 0x30 ≤ c.value ∧ c.value ≤ 0x39 := by
  simp [digit, mem_iff]

/-- A blank is a space, a tab, a carriage return or a line feed. -/
theorem mem_blank {c : CodePoint} :
    c ∈ blank ↔ c = ' ' ∨ c = '\t' ∨ c = '\r' ∨ c = '\n' := by
  simp [blank, mem_iff, CodePoint.ext_iff]
  omega

/-- A line end is a line feed or a carriage return. -/
theorem mem_lineEnd {c : CodePoint} : c ∈ lineEnd ↔ c = '\n' ∨ c = '\r' := by
  simp [lineEnd, mem_iff, CodePoint.ext_iff]
  omega

end RdfTurtle.CharClass
