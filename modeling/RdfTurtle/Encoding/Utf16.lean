import RdfTurtle.CodePoint

/-! # UTF-16

* **`Utf16.unitsOf`** — the one or two units of a code point. Of a code point beyond `U+10FFFF`,
  which lenient decoding can spell, the low twenty bits of the offset are kept, so that every unit
  fits sixteen bits.
* **`Utf16.encode`** — the units of a text.
* **`Utf16.decodeLossy`** — the text of units, U+FFFD for each unpaired surrogate. -/

namespace RdfTurtle.Utf16

/-- The units of a code point: itself below `U+10000`, otherwise two surrogates. -/
def unitsOf (c : CodePoint) : List UInt16 :=
  if c.value < 0x10000 then [c.value.toUInt16]
  else
    let offset := c.value - 0x10000
    [(0xD800 + offset / 0x400 % 0x400).toUInt16, (0xDC00 + offset % 0x400).toUInt16]

/-- The units of a text. -/
def encode (s : String) : List UInt16 := s.toList.flatMap fun (x : Char) => unitsOf x

/-- Whether a unit is the first of a pair. -/
def isHigh (unit : UInt16) : Bool := 0xD800 ≤ unit && unit < 0xDC00

/-- Whether a unit is the second of a pair. -/
def isLow (unit : UInt16) : Bool := 0xDC00 ≤ unit && unit < 0xE000

/-- The code point of a pair of surrogates. -/
def pairValue (high low : UInt16) : CodePoint :=
  ⟨0x10000 + (high.toNat - 0xD800) * 0x400 + (low.toNat - 0xDC00)⟩

/-- The characters of a sequence of units. A surrogate without its partner becomes U+FFFD. -/
def decodeLossy : List UInt16 → List Char
  | [] => []
  | [unit] => [CodePoint.toCharLossy ⟨unit.toNat⟩]
  | first :: second :: rest =>
    if isHigh first && isLow second then (pairValue first second).toCharLossy :: decodeLossy rest
    else CodePoint.toCharLossy ⟨first.toNat⟩ :: decodeLossy (second :: rest)

example : unitsOf '😀' = [0xD83D, 0xDE00] := by decide +kernel
example : decodeLossy [0xD83D, 0xD83D, 0xDE00, 0xDE00] = ['\uFFFD', '😀', '\uFFFD'] := by
  decide +kernel

/-- No units spell no text. -/
@[simp] theorem decodeLossy_nil : decodeLossy [] = [] := rfl

/-- A pair of surrogates spells one character, whatever follows. -/
theorem decodeLossy_pair {high low : UInt16} (h : isHigh high) (l : isLow low)
    (rest : List UInt16) :
    decodeLossy (high :: low :: rest) = (pairValue high low).toCharLossy :: decodeLossy rest := by
  simp [decodeLossy, h, l]

/-- A unit that begins no pair spells one character, whatever follows. -/
theorem decodeLossy_single {unit : UInt16} (h : isHigh unit = false) (rest : List UInt16) :
    decodeLossy (unit :: rest) = CodePoint.toCharLossy ⟨unit.toNat⟩ :: decodeLossy rest := by
  cases rest <;> simp [decodeLossy, h]

end RdfTurtle.Utf16
