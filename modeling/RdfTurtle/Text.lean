import RdfTurtle.Encoding.Utf16

/-! # Accumulated text

A scanner accumulates the code points of a token either as UTF-16 units, which keep surrogates
apart from characters, or as a string, in which what is no character becomes U+FFFD at once.

* **`Text`** — the text in either form.
* **`Text.push`** — appends a code point.
* **`Text.render`** — the text as a string, unpaired surrogates replaced.
* **`Text.writeTo`** — the text written behind a string, character by character.
* **`Text.Spells`** — being exactly a given string; an unpaired surrogate spells none. -/

namespace RdfTurtle

/-- The form in which text is accumulated. -/
inductive TextEncoding where
  | utf16
  | utf8
  deriving DecidableEq, Repr, Inhabited

/-- Text accumulated from code points. -/
inductive Text where
  | utf16 (units : Array UInt16)
  | utf8 (content : String)
  deriving DecidableEq, Repr, Inhabited

namespace Text

/-- The text without code points. -/
def empty : TextEncoding → Text
  | .utf16 => .utf16 #[]
  | .utf8 => .utf8 ""

/-- Appends a code point. -/
def push : Text → CodePoint → Text
  | .utf16 units, c => .utf16 (units ++ Utf16.unitsOf c)
  | .utf8 content, c => .utf8 (content.push c.toCharLossy)

/-- Appends code points in order. -/
def append (t : Text) (cs : List CodePoint) : Text := cs.foldl push t

/-- The form of the text. -/
def encoding : Text → TextEncoding
  | .utf16 _ => .utf16
  | .utf8 _ => .utf8

/-- Appending keeps the form. -/
@[simp] theorem encoding_push (t : Text) (c : CodePoint) : (t.push c).encoding = t.encoding := by
  cases t <;> rfl

/-- The number of units, or of bytes of the string. -/
def length : Text → Nat
  | .utf16 units => units.size
  | .utf8 content => content.utf8ByteSize

/-- The UTF-16 units, of a text in that form. -/
def units? : Text → Option (Array UInt16)
  | .utf16 units => some units
  | .utf8 _ => none

/-- The string, of a text in that form. -/
def string? : Text → Option String
  | .utf16 _ => none
  | .utf8 content => some content

/-- The characters of the text, with U+FFFD for each unpaired surrogate. -/
def chars : Text → List Char
  | .utf16 units => Utf16.decodeLossy units.toList
  | .utf8 content => content.toList

/-- The text as a string, with U+FFFD for each unpaired surrogate. -/
def render (t : Text) : String := String.ofList t.chars

/-- Nothing is written for the text without code points. -/
@[simp] theorem render_empty (e : TextEncoding) : (empty e).render = "" := by
  cases e <;> simp [empty, render, chars]

/-- Writes the text behind `out`: a string at once, units character by character with U+FFFD for
each unpaired surrogate. -/
def writeTo (out : String) : Text → String
  | .utf16 units => (Utf16.decodeLossy units.toList).foldl String.push out
  | .utf8 content => out ++ content

/-- The text is exactly the string `s`, compared unit by unit. -/
def Spells : Text → String → Prop
  | .utf16 units, s => units.toList = Utf16.encode s
  | .utf8 content, s => content = s

instance (t : Text) (s : String) : Decidable (t.Spells s) := by
  cases t <;> simp only [Spells] <;> infer_instance

end Text

end RdfTurtle
