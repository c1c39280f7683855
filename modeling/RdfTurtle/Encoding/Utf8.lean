import RdfTurtle.CodePoint

/-! # UTF-8

A group of bytes spells one code point: a lead byte, then as many further bytes as the lead
announces. The **length** depends on the lead alone. The **spelled value** puts the payload bits of
the lead before the low six bits of each further byte and checks nothing; a **scalar** is the value
of a group that is well-formed UTF-8.

* **`Utf8.furtherBytes`** — how many bytes follow a lead.
* **`Utf8.spell`** — the value a group spells, whatever its bytes are.
* **`Utf8.scalar?`** — the character of a well-formed group. -/

namespace RdfTurtle.Utf8

/-- The number of bytes that follow a lead byte; a byte that announces nothing stands alone. -/
def furtherBytes (lead : UInt8) : Nat :=
  if lead < 0xC0 then 0 else if lead < 0xE0 then 1 else if lead < 0xF0 then 2 else 3

/-- No lead announces more than three bytes. -/
theorem furtherBytes_le (lead : UInt8) : furtherBytes lead ≤ 3 := by
  unfold furtherBytes
  split
  · omega
  · split
    · omega
    · split <;> omega

/-- The payload bits of a lead byte. A byte that stands alone is its own payload. -/
def payload (lead : UInt8) : Nat :=
  if lead < 0xC0 then lead.toNat
  else if lead < 0xE0 then lead.toNat % 32
  else if lead < 0xF0 then lead.toNat % 16
  else lead.toNat % 8

/-- The value that a lead byte and the bytes after it spell, six bits for each further byte. -/
def spell (lead : UInt8) (further : List UInt8) : CodePoint :=
  ⟨further.foldl (fun value byte => value * 64 + byte.toNat % 64) (payload lead)⟩

/-- A byte that stands alone spells its own value. -/
theorem spell_nil (lead : UInt8) : spell lead [] = ⟨payload lead⟩ := rfl

/-- Whether a byte begins a group of well-formed UTF-8, going by its bit pattern: it is ASCII or
announces further bytes, at most three. -/
def isLead (byte : UInt8) : Bool := byte < 0x80 || (0xC0 ≤ byte && byte < 0xF8)

/-- Whether a byte has the form of a further byte, `10xxxxxx`. -/
def isContinuation (byte : UInt8) : Bool := 0x80 ≤ byte && byte < 0xC0

/-- The least value that needs `further` further bytes. -/
def leastValue : Nat → Nat
  | 0 => 0
  | 1 => 0x80
  | 2 => 0x800
  | _ => 0x10000

/-- The character that a group spells, if the group is well-formed: every further byte has the form
of one, their number is the least that the value needs, and the value is a Unicode scalar. -/
def scalar? (lead : UInt8) (further : List UInt8) : Option Char :=
  let value := (spell lead further).value
  if isLead lead ∧ further.all isContinuation ∧ leastValue further.length ≤ value ∧
      value.isValidChar then
    some (Char.ofNat value)
  else none

example : spell 0xC1 [0x81] = 'A' := by decide +kernel
example : scalar? 0xC1 [0x81] = none := by decide +kernel
example : scalar? 0xED [0xA0, 0x80] = none := by decide +kernel
example : scalar? 0xF0 [0x9F, 0x98, 0x80] = some '😀' := by decide +kernel

/-- ASCII bytes are characters by themselves. -/
theorem scalar?_ascii {lead : UInt8} (h : lead < 0x80) :
    scalar? lead [] = some (Char.ofNat lead.toNat) := by
  have hlt : lead.toNat < 128 := h
  have hC0 : lead < 0xC0 := UInt8.lt_iff_toNat_lt.2 (by simp; omega)
  have hvalid : lead.toNat.isValidChar := Or.inl (by omega)
  simp [scalar?, isLead, h, spell, payload, hC0, leastValue, hvalid]

end RdfTurtle.Utf8
