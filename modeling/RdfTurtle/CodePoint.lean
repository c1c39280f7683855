/-! # Code points

A **code point** is a number read from the input. Strict decoding yields Unicode scalar values only;
lenient decoding does not check what it spells, so a code point may be a surrogate or lie beyond
`U+10FFFF`.

* **`CodePoint.ofChar`** — the code point of a character, used as a coercion: `c = '@'`.
* **`CodePoint.toCharLossy`** — the character of a code point, U+FFFD where there is none.
* **`CodePoint.unicodeName`** — the `U+0041` spelling that messages use. -/

namespace RdfTurtle

/-- A number read from the input, not necessarily one that Unicode assigns. -/
@[ext] structure CodePoint where
  value : Nat
  deriving DecidableEq, Repr, Inhabited

namespace CodePoint

/-- The code point of a character. -/
@[coe] def ofChar (x : Char) : CodePoint := ⟨x.toNat⟩

instance : Coe Char CodePoint := ⟨ofChar⟩

/-- The code point of a character is its number. -/
@[simp] theorem value_ofChar (x : Char) : (ofChar x).value = x.toNat := rfl

/-- Different characters have different code points. -/
@[simp] theorem ofChar_inj {x y : Char} : ofChar x = ofChar y ↔ x = y := by
  simp [CodePoint.ext_iff, Char.toNat_inj]

/-- The character of a number that has one. -/
theorem toNat_charOfNat {n : Nat} (h : n.isValidChar) : (Char.ofNat n).toNat = n := by
  rw [Char.ofNat, dif_pos h]
  rfl

/-- The character that stands for what is no character: U+FFFD. -/
def replacement : Char := '\uFFFD'

/-- The character of a code point, or U+FFFD for a surrogate or a number beyond `U+10FFFF`. -/
def toCharLossy (c : CodePoint) : Char :=
  if c.value.isValidChar then Char.ofNat c.value else replacement

/-- Reading the code point of a character back gives the character. -/
@[simp] theorem toCharLossy_ofChar (x : Char) : (ofChar x).toCharLossy = x := by
  have h : x.toNat.isValidChar := x.valid
  simp [toCharLossy, h]

/-- `U+` and the number in upper-case hexadecimal, with at least four digits. -/
def unicodeName (c : CodePoint) : String :=
  let digits := (Nat.toDigits 16 c.value).map Char.toUpper
  "U+" ++ String.ofList (List.replicate (4 - digits.length) '0' ++ digits)

example : unicodeName 'A' = "U+0041" := by decide +kernel
example : unicodeName ⟨0x1FFFFF⟩ = "U+1FFFFF" := by decide +kernel

end CodePoint

end RdfTurtle
