/-! # What escapes denote

The letters behind a backslash and the characters that they denote, and the numbers that hexadecimal
digits spell, as the grammar has them. Nothing here knows how a parser decodes an escape.

* **`Escape.letterTable`**, **`Escape.letterOf`** — what a letter behind a backslash denotes.
* **`Escape.hexDigits`**, **`Escape.number`** — the digits and the number that they spell. -/

namespace RdfTurtle.Escape

/-- The letters behind a backslash, and the characters that they denote (`ECHAR`). -/
def letterTable : List (Char × Char) :=
  [('t', '\t'), ('b', '\x08'), ('n', '\n'), ('r', '\r'), ('f', '\x0C'), ('"', '"'), ('\'', '\''),
    ('\\', '\\')]

/-- What a letter behind a backslash denotes. -/
def letterOf (x : Char) : Option Char := letterTable.lookup x

/-- The hexadecimal digits. -/
def hexDigits : List Char := "0123456789abcdefABCDEF".toList

/-- The value of a hexadecimal digit, in either case. -/
def digitValue (x : Char) : Nat := "0123456789abcdef".toList.idxOf x.toLower

/-- The number that hexadecimal digits spell. -/
def number (digits : List Char) : Nat := digits.foldl (fun n x => 16 * n + digitValue x) 0

/-- A letter that denotes a character is one of the table. -/
theorem mem_letterTable {x y : Char} (h : letterOf x = some y) : (x, y) ∈ letterTable := by
  obtain ⟨before, behind, heq, -⟩ := List.lookup_eq_some_iff.1 h
  rw [heq]
  exact List.mem_append_right before List.mem_cons_self

/-- Digits that are written out are looked up one by one. -/
theorem hex_of_all {digits : List Char} (h : digits.all (hexDigits.contains ·) = true) :
    ∀ x ∈ digits, x ∈ hexDigits :=
  fun x hx => List.contains_iff_mem.1 (List.all_eq_true.1 h x hx)

end RdfTurtle.Escape
