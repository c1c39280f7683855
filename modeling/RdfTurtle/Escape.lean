/-! # Escapes

A backslash begins an escape: of a character by a letter (`\n`), of a character by its number with
four or eight hexadecimal digits (`\u0041`, `\U0001F600`), or, in local names, of the character that
follows. Escapes of the last kind and percent signs are decoded by dropping the backslash and by
doing nothing.

* **`Escape.string?`** — the characters of the body of a string.
* **`Escape.iri?`** — the characters of an IRI reference, where only numeric escapes are known.
* **`Escape.localName`** — the characters of a local name. -/

namespace RdfTurtle.Escape

/-- The value of a hexadecimal digit, in either case. -/
def hexDigit? (x : Char) : Option Nat :=
  if '0' ≤ x ∧ x ≤ '9' then some (x.toNat - '0'.toNat)
  else if 'a' ≤ x ∧ x ≤ 'f' then some (x.toNat - 'a'.toNat + 10)
  else if 'A' ≤ x ∧ x ≤ 'F' then some (x.toNat - 'A'.toNat + 10)
  else none

/-- The number that hexadecimal digits spell, the highest digit first. -/
def hexNumber? (digits : List Char) : Option Nat :=
  digits.foldlM (fun value x => (hexDigit? x).map (16 * value + ·)) 0

/-- Reads `n` hexadecimal digits that spell the number of a character. -/
def scalar? (n : Nat) (text : List Char) : Option (Char × List Char) :=
  if n ≤ text.length then
    match hexNumber? (text.take n) with
    | some value => if value.isValidChar then some (Char.ofNat value, text.drop n) else none
    | none => none
  else none

/-- Reads a numeric escape after its backslash. -/
def numeric? : List Char → Option (Char × List Char)
  | 'u' :: rest => scalar? 4 rest
  | 'U' :: rest => scalar? 8 rest
  | _ => none

/-- The character that a letter after a backslash stands for in a string. -/
def letter? (x : Char) : Option Char :=
  if x = 'b' then some '\x08'
  else if x = 'f' then some '\x0C'
  else if x = 'n' then some '\n'
  else if x = 'r' then some '\r'
  else if x = 't' then some '\t'
  else if x = '"' ∨ x = '\'' ∨ x = '\\' then some x
  else none

/-- Reads an escape after its backslash, when `letters` says which letters stand for characters. -/
def escape? (letters : Char → Option Char) : List Char → Option (Char × List Char)
  | [] => none
  | x :: rest =>
    match letters x with
    | some y => some (y, rest)
    | none => numeric? (x :: rest)

/-- Behind the digits of a number no more is left than there was. -/
theorem length_of_scalar {n : Nat} {text rest : List Char} {x : Char}
    (h : scalar? n text = some (x, rest)) : rest.length ≤ text.length := by
  unfold scalar? at h
  split at h
  · split at h
    · split at h
      · injection h with h
        injection h with _ h
        simp [← h]
      · cases h
    · cases h
  · cases h

/-- A numeric escape has at least a letter. -/
theorem length_of_numeric {text rest : List Char} {x : Char}
    (h : numeric? text = some (x, rest)) : rest.length < text.length := by
  unfold numeric? at h
  split at h
  · exact Nat.lt_succ_of_le (length_of_scalar h)
  · exact Nat.lt_succ_of_le (length_of_scalar h)
  · cases h

/-- Behind its backslash an escape has at least a letter. -/
theorem length_of_escape {letters : Char → Option Char} {text rest : List Char} {x : Char}
    (h : escape? letters text = some (x, rest)) : rest.length < text.length := by
  unfold escape? at h
  split at h
  · cases h
  · split at h
    · injection h with h
      injection h with _ h
      simp [← h]
    · exact length_of_numeric h

/-- The characters that a text with escapes stands for, or `none` if an escape stands for none. -/
def decode? (letters : Char → Option Char) : List Char → Option (List Char)
  | [] => some []
  | x :: rest =>
    if x = '\\' then
      match _h : escape? letters rest with
      | some (y, rest') => (decode? letters rest').map (y :: ·)
      | none => none
    else (decode? letters rest).map (x :: ·)
termination_by text => text.length
decreasing_by
  · have := length_of_escape ‹_›
    simp only [List.length_cons]
    omega
  · simp

/-- The characters of the body of a string. -/
def string? (body : List Char) : Option (List Char) := decode? letter? body

/-- The characters of an IRI reference. -/
def iri? (body : List Char) : Option (List Char) := decode? (fun _ => none) body

example : string? "\\u0041\\t\\U0001F600".toList = some ['A', '\t', '😀'] := by decide +kernel
example : string? "\\uD83D\\uDE00".toList = none := by decide +kernel
example : iri? "\\n".toList = none := by decide +kernel

/-- A text without backslashes stands for itself. -/
theorem decode?_of_not_mem {letters : Char → Option Char} {text : List Char}
    (h : '\\' ∉ text) : decode? letters text = some text := by
  induction text with
  | nil => rw [decode?]
  | cons x rest ih =>
    simp only [List.mem_cons, not_or] at h
    rw [decode?, if_neg (Ne.symm h.1), ih h.2]
    rfl

/-- The characters of a local name: each backslash is dropped, and what follows it stays. -/
def localName : List Char → List Char
  | [] => []
  | '\\' :: x :: rest => x :: localName rest
  | ['\\'] => []
  | x :: rest => x :: localName rest

example : localName "a\\-%41".toList = "a-%41".toList := by decide +kernel

end RdfTurtle.Escape
