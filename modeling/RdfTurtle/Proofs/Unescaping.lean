import Mathlib.Tactic.SplitIfs
import RdfTurtle.Escape
import RdfTurtle.Proofs.Syntax.Tokens

/-! # Decoding escapes

Decoding takes the body of a token piece by piece, as the grammar does: a character stands for
itself, an escape for the character that it names.

* **`Escape.letter?_eq`**, **`Escape.hexNumber?_eq_number`** — letters and digits denote what the
  grammar says.
* **`Escape.decode?_pieces`** — the pieces of a body are decoded to their characters.
* **`Syntax.StringToken.decode_body`**, **`Syntax.IriRef.decode_pieces`**,
  **`Syntax.LocalName.decode_text`** — what the tokens with escapes stand for.
* **`Escape.length_decode`** — decoding never lengthens a text, and shortens one with a
  backslash. -/

namespace RdfTurtle

namespace Escape

/-! ## The letters and the digits -/

/-- The letters are decoded as the grammar's table has them. -/
theorem letter?_eq : letter? = letterOf := by
  funext x
  unfold letter? letterOf
  split_ifs with hb hf hn hr ht hself
  · rw [hb]
    rfl
  · rw [hf]
    rfl
  · rw [hn]
    rfl
  · rw [hr]
    rfl
  · rw [ht]
    rfl
  · rcases hself with rfl | rfl | rfl <;> rfl
  · simp only [not_or] at hself
    refine (List.lookup_eq_none_iff.2 ?_).symm
    simp [letterTable, hb, hf, hn, hr, ht, hself]

/-- The body of a string is decoded with the letters of the table. -/
theorem string?_eq (body : List Char) : string? body = decode? letterOf body := by
  rw [string?, letter?_eq]

/-- Hexadecimal digits are read as the number that they spell. -/
theorem hexNumber?_eq_number {digits : List Char} (h : ∀ x ∈ digits, x ∈ hexDigits) :
    hexNumber? digits = some (number digits) := by
  have hall : hexDigits.all (fun x => hexDigit? x = some (digitValue x)) = true := by
    decide
  have hdigit (x : Char) (hx : x ∈ hexDigits) : hexDigit? x = some (digitValue x) :=
    of_decide_eq_true (List.all_eq_true.1 hall x hx)
  have hfold (n : Nat) : digits.foldlM (fun value x => (hexDigit? x).map (16 * value + ·)) n =
      some (digits.foldl (fun n x => 16 * n + digitValue x) n) := by
    induction digits generalizing n with
    | nil => rfl
    | cons x digits ih =>
      obtain ⟨hx, hmore⟩ := List.forall_mem_cons.1 h
      rw [List.foldlM_cons, hdigit x (h x List.mem_cons_self), List.foldl_cons]
      exact ih hmore _
  exact hfold 0

/-! ## Bodies -/

variable {letters : Char → Option Char}

/-- A character other than a backslash stands for itself. -/
theorem decode?_of_ne {x : Char} (h : x ≠ '\\') (rest : List Char) :
    decode? letters (x :: rest) = (decode? letters rest).map (x :: ·) := by
  rw [decode?, if_neg h]

/-- An escape stands for a character. -/
theorem decode?_of_escape {y : Char} {rest more : List Char}
    (h : escape? letters rest = some (y, more)) :
    decode? letters ('\\' :: rest) = (decode? letters more).map (y :: ·) := by
  rw [decode?, if_pos rfl]
  split
  · next h' =>
    rw [h] at h'
    injection h' with h'
    injection h' with hy hmore
    rw [hy, hmore]
  · next h' =>
    rw [h] at h'
    cases h'

/-- A number is read with nothing behind it, and read only if it names a character. -/
theorem scalar?_digits {n : Nat} {digits : List Char} (length : digits.length = n)
    (hex : ∀ x ∈ digits, x ∈ hexDigits) (more : List Char) :
    scalar? n (digits ++ more) =
      if (number digits).isValidChar then some (Char.ofNat (number digits), more) else none := by
  have hle : n ≤ (digits ++ more).length := by
    rw [List.length_append]
    omega
  have htake : (digits ++ more).take n = digits := by rw [← length, List.take_left]
  have hdrop : (digits ++ more).drop n = more := by rw [← length, List.drop_left]
  simp only [scalar?, if_pos hle, htake, hexNumber?_eq_number hex, hdrop]

section

-- Numbers are announced by letters that denote no character themselves.
variable (hu : letters 'u' = none) (hU : letters 'U' = none)

include hu hU

/-- A numeric escape is read with nothing behind it, and read only if it names a character. -/
theorem escape?_digits {long : Bool} {digits : List Char}
    (length : digits.length = if long then 8 else 4)
    (hex : ∀ x ∈ digits, x ∈ hexDigits) (more : List Char) :
    escape? letters ((if long then 'U' else 'u') :: (digits ++ more)) =
      if (number digits).isValidChar then some (Char.ofNat (number digits), more) else none := by
  cases long with
  | true =>
    simp only [if_true, escape?, hU, numeric?]
    exact scalar?_digits length hex more
  | false =>
    simp only [Bool.false_eq_true, if_false, escape?, hu, numeric?]
    exact scalar?_digits length hex more

/-- A numeric escape stands for the character that it names. -/
theorem escape?_numeric (e : Syntax.NumericEscape) (more : List Char) :
    escape? letters (e.text.tail ++ more) = some (e.named, more) :=
  (escape?_digits hu hU e.length e.hex more).trans (if_pos e.names)

end

section Pieces

variable {Raw : Char → Prop}

/-- A piece is decoded to its character. -/
theorem decode?_piece (piece : Syntax.Piece Raw letters) (hraw : ∀ x, Raw x → x ≠ '\\')
    (hu : letters 'u' = none) (hU : letters 'U' = none) (more : List Char) :
    decode? letters (piece.text ++ more) = (decode? letters more).map (piece.value :: ·) := by
  cases piece with
  | raw x h => exact decode?_of_ne (hraw x h) more
  | letter x y h =>
    have hescape : escape? letters (x :: more) = some (y, more) := by simp only [escape?, h]
    exact decode?_of_escape hescape
  | numeric e => exact decode?_of_escape (escape?_numeric hu hU e more)

/-- The pieces of a body are decoded to their characters. -/
theorem decode?_pieces (pieces : List (Syntax.Piece Raw letters))
    (hraw : ∀ x, Raw x → x ≠ '\\') (hu : letters 'u' = none) (hU : letters 'U' = none) :
    decode? letters (pieces.flatMap Syntax.Piece.text) =
      some (pieces.map Syntax.Piece.value) := by
  induction pieces with
  | nil => rw [List.flatMap_nil, decode?, List.map_nil]
  | cons piece pieces ih =>
    rw [List.flatMap_cons, decode?_piece piece hraw hu hU, ih]
    rfl

end Pieces

/-! ## Lengths -/

/-- Decoding never lengthens a text, and shortens one with a backslash. -/
theorem length_decode {text decoded : List Char} (h : decode? letters text = some decoded) :
    decoded.length ≤ text.length ∧ ('\\' ∈ text → decoded.length < text.length) := by
  fun_induction decode? letters text generalizing decoded with
  | case1 =>
    injection h with h
    rw [← h]
    exact ⟨Nat.le_refl _, fun hmem => by cases hmem⟩
  | case2 rest y rest' hescape ih =>
    obtain ⟨decoded', hdecoded, rfl⟩ := Option.map_eq_some_iff.1 h
    -- The escape is at least two characters long and stands for one.
    have hlt := length_of_escape hescape
    have hle := (ih hdecoded).1
    simp only [List.length_cons]
    omega
  | case3 => cases h
  | case4 x rest hx ih =>
    obtain ⟨decoded', hdecoded, rfl⟩ := Option.map_eq_some_iff.1 h
    obtain ⟨hle, hlt⟩ := ih hdecoded
    refine ⟨Nat.succ_le_succ hle, fun hmem => Nat.succ_lt_succ (hlt ?_)⟩
    rcases List.mem_cons.1 hmem with hmem | hmem
    · exact absurd hmem.symm hx
    · exact hmem

end Escape

/-! ## Tokens with escapes -/

namespace Syntax

/-- What stands between the brackets is decoded to the reference. -/
theorem IriRef.decode_pieces {iri : Strictness} (r : IriRef iri) :
    Escape.iri? (r.pieces.flatMap Piece.text) = some r.reference :=
  Escape.decode?_pieces r.pieces (fun _ h => h.2.1) rfl rfl

/-- Marks stand for themselves. -/
theorem decode?_marks {letters : Char → Option Char} {q : Quote} (n : Nat) (more : List Char) :
    Escape.decode? letters (List.replicate n q.char ++ more) =
      (Escape.decode? letters more).map (List.replicate n q.char ++ ·) := by
  have hq : q.char ≠ '\\' := by cases q <;> decide
  induction n with
  | zero => simp
  | succ n ih =>
    rw [List.replicate_succ, List.cons_append, Escape.decode?_of_ne hq, ih, Option.map_map]
    rfl

/-- What stands between the marks is decoded to the characters of the string. -/
theorem StringToken.decode_body (s : StringToken) : Escape.string? s.body = some s.value := by
  rw [Escape.string?_eq]
  cases s with
  | short q pieces => exact Escape.decode?_pieces pieces (fun _ h => h.2.1) rfl rfl
  | long q units =>
    rw [body, value]
    induction units with
    | nil => rw [List.flatMap_nil, Escape.decode?, List.flatMap_nil]
    | cons u units ih =>
      have hpiece := Escape.decode?_piece u.piece (fun _ h => h.2) rfl rfl
        (units.flatMap LongUnit.text)
      rw [List.flatMap_cons, List.flatMap_cons, LongUnit.text, List.append_assoc, decode?_marks,
        hpiece, ih]
      simp [LongUnit.value]

/-- A backslash alone is dropped from a local name. -/
theorem LocalPiece.decode_text (piece : LocalPiece) (more : List Char) :
    Escape.localName (piece.text ++ more) = piece.value ++ Escape.localName more := by
  have hne (x : Char) (hx : x ≠ '\\') (more : List Char) :
      Escape.localName (x :: more) = x :: Escape.localName more := by
    rw [Escape.localName]
    · exact fun _ _ h _ => hx h
    · exact fun h _ => hx h
  cases piece with
  | plain x h =>
    have hx : x ≠ '\\' := by
      intro hx
      rw [hx] at h
      simp [CharClass.localChar, CharClass.mem_iff] at h
    exact hne x hx more
  | dot => exact hne '.' (by decide) more
  | percent x y hx hy =>
    have hdigit (z : Char) (hz : (z : CodePoint) ∈ CharClass.hexDigit) : z ≠ '\\' := by
      intro h
      rw [h] at hz
      simp [CharClass.hexDigit, CharClass.mem_iff] at hz
    rw [text, List.cons_append, List.cons_append, List.cons_append, hne '%' (by decide),
      hne x (hdigit x hx), hne y (hdigit y hy)]
    rfl
  | escape x h =>
    rw [text, List.cons_append, List.cons_append, Escape.localName]
    rfl

/-- The pieces of a local name are decoded one by one. -/
theorem LocalPiece.decode_pieces (pieces : List LocalPiece) :
    Escape.localName (pieces.flatMap text) = pieces.flatMap value := by
  induction pieces with
  | nil => rfl
  | cons piece pieces ih => rw [List.flatMap_cons, piece.decode_text, ih, List.flatMap_cons]

/-- A local name is decoded to its characters. -/
theorem LocalName.decode_text (n : LocalName) : Escape.localName n.text = n.value :=
  LocalPiece.decode_pieces n.pieces

end Syntax

end RdfTurtle
