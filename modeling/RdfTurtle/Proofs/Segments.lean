import RdfTurtle.Proofs.Unescaping

/-! # Bodies as the grammar segments them

Whether or not its escapes name characters, a body is read from the left as characters that stand
for themselves, letters behind a backslash, and numbers behind one. It can be read so in one way
only, and decoding follows it.

* **`eq_of_flatMap_eq`** — a text that tells its parts.
* **`Escape.Segment`** — a part of a body, what it denotes, and whether it names a character.
* **`Escape.Segment.flatMap_text_inj`** — a body has one segmentation at most.
* **`Escape.decode?_of_named`**, **`Escape.decode?_of_unnamed`** — decoding a segmented body.
* **`Syntax.LocalPiece.flatMap_text_inj`** — the same of local names. -/

namespace RdfTurtle

/-- Where what comes first in a text tells the first part, the text tells all of its parts. -/
theorem eq_of_flatMap_eq {α : Type} {text : α → List Char} (hne : ∀ g, text g ≠ [])
    (hfirst : ∀ g g' more more', text g ++ more = text g' ++ more' → g = g' ∧ more = more')
    {parts parts' : List α} (h : parts.flatMap text = parts'.flatMap text) : parts = parts' := by
  have happend (g : α) (more : List Char) : text g ++ more ≠ [] :=
    fun h => hne g (List.append_eq_nil_iff.1 h).1
  induction parts generalizing parts' with
  | nil =>
    cases parts' with
    | nil => rfl
    | cons g' parts' => exact absurd h.symm (happend g' _)
  | cons g parts ih =>
    cases parts' with
    | nil => exact absurd h (happend g _)
    | cons g' parts' =>
      obtain ⟨rfl, hmore⟩ := hfirst _ _ _ _ h
      rw [ih hmore]

namespace Escape

/-! ## Segments -/

variable {letters : Char → Option Char}

/-- A part of a body: a character other than a backslash, a backslash and a letter that denotes a
character, or a backslash and the digits of a number, whether or not it is that of a character. -/
inductive Segment (letters : Char → Option Char) where
  | plain (x : Char) (h : x ≠ '\\')
  | letter (x y : Char) (h : letters x = some y)
  | numeric (long : Bool) (digits : List Char) (length : digits.length = if long then 8 else 4)
    (hex : ∀ x ∈ digits, x ∈ hexDigits)

namespace Segment

/-- The part as it is written. -/
def text : Segment letters → List Char
  | .plain x _ => [x]
  | .letter x _ _ => ['\\', x]
  | .numeric long digits _ _ => '\\' :: (if long then 'U' else 'u') :: digits

/-- What the part denotes, if it names a character. -/
def value : Segment letters → Char
  | .plain x _ => x
  | .letter _ y _ => y
  | .numeric _ digits _ _ => Char.ofNat (number digits)

/-- A number names a character if it is that of a Unicode scalar value; the other parts always
denote one. -/
def Named : Segment letters → Prop
  | .numeric _ digits _ _ => (number digits).isValidChar
  | _ => True

instance : (g : Segment letters) → Decidable g.Named
  | .numeric _ digits _ _ => inferInstanceAs (Decidable (number digits).isValidChar)
  | .plain .. => .isTrue trivial
  | .letter .. => .isTrue trivial

section

-- Numbers are announced by letters that denote no character themselves.
variable (hu : letters 'u' = none) (hU : letters 'U' = none)

include hu hU

/-- What comes first in a body tells its first part. -/
theorem text_append_inj {g g' : Segment letters} {more more' : List Char}
    (h : g.text ++ more = g'.text ++ more') : g = g' ∧ more = more' := by
  have hmark (long : Bool) : letters (if long then 'U' else 'u') = none := by
    cases long
    · exact hu
    · exact hU
  -- A backslash tells escapes from plain characters, the letter behind it one escape from
  -- another, and the digits that are announced are of a fixed number.
  cases g with
  | plain x hx =>
    cases g' with
    | plain x' hx' =>
      obtain ⟨rfl, rfl⟩ := List.cons_eq_cons.1 h
      exact ⟨rfl, rfl⟩
    | letter | numeric => exact absurd (List.cons_eq_cons.1 h).1 hx
  | letter x y hx =>
    cases g' with
    | plain x' hx' => exact absurd (List.cons_eq_cons.1 h).1.symm hx'
    | letter x' y' hx' =>
      obtain ⟨rfl, rfl⟩ := List.cons_eq_cons.1 (List.cons_eq_cons.1 h).2
      obtain rfl : y = y' := Option.some.inj (hx.symm.trans hx')
      exact ⟨rfl, rfl⟩
    | numeric long digits =>
      rw [(List.cons_eq_cons.1 (List.cons_eq_cons.1 h).2).1, hmark long] at hx
      cases hx
  | numeric long digits length hex =>
    cases g' with
    | plain x' hx' => exact absurd (List.cons_eq_cons.1 h).1.symm hx'
    | letter x' y' hx' =>
      rw [← (List.cons_eq_cons.1 (List.cons_eq_cons.1 h).2).1, hmark long] at hx'
      cases hx'
    | numeric long' digits' length' hex' =>
      obtain ⟨hlong, hdigits⟩ := List.cons_eq_cons.1 (List.cons_eq_cons.1 h).2
      obtain rfl : long = long' := by
        revert hlong
        cases long <;> cases long' <;> decide
      obtain ⟨rfl, rfl⟩ := List.append_inj hdigits (length.trans length'.symm)
      exact ⟨rfl, rfl⟩

/-- **A body is segmented in one way only.** -/
theorem flatMap_text_inj {segments segments' : List (Segment letters)}
    (h : segments.flatMap text = segments'.flatMap text) : segments = segments' :=
  eq_of_flatMap_eq (fun g => by cases g <;> exact List.cons_ne_nil _ _)
    (fun _ _ _ _ heq => text_append_inj hu hU heq) h

end

end Segment

/-! ## Decoding -/

/-- A body is not decoded where an escape is not. -/
theorem decode?_of_escape_none {rest : List Char} (h : escape? letters rest = none) :
    decode? letters ('\\' :: rest) = none := by
  rw [decode?, if_pos rfl]
  split
  · next h' =>
    rw [h] at h'
    cases h'
  · rfl

section

variable (hu : letters 'u' = none) (hU : letters 'U' = none)

include hu hU

/-- A part that names a character is decoded to it. -/
theorem decode?_segment {g : Segment letters} (h : g.Named) (more : List Char) :
    decode? letters (g.text ++ more) = (decode? letters more).map (g.value :: ·) := by
  cases g with
  | plain x hx => exact decode?_of_ne hx more
  | letter x y hx =>
    have hescape : escape? letters (x :: more) = some (y, more) := by simp only [escape?, hx]
    exact decode?_of_escape hescape
  | numeric long digits length hex =>
    exact decode?_of_escape ((escape?_digits hu hU length hex more).trans (if_pos h))

/-- A part that names none cannot be decoded. -/
theorem decode?_segment_none {g : Segment letters} (h : ¬ g.Named) (more : List Char) :
    decode? letters (g.text ++ more) = none := by
  cases g with
  | plain | letter => exact absurd trivial h
  | numeric long digits length hex =>
    exact decode?_of_escape_none ((escape?_digits hu hU length hex more).trans (if_neg h))

/-- **A body of which every part names a character is decoded to the characters.** -/
theorem decode?_of_named {segments : List (Segment letters)} (h : ∀ g ∈ segments, g.Named) :
    decode? letters (segments.flatMap Segment.text) = some (segments.map Segment.value) := by
  induction segments with
  | nil => rw [List.flatMap_nil, decode?, List.map_nil]
  | cons g segments ih =>
    obtain ⟨hg, hmore⟩ := List.forall_mem_cons.1 h
    rw [List.flatMap_cons, decode?_segment hu hU hg, ih hmore]
    rfl

/-- **A body with a part that names none cannot be decoded.** -/
theorem decode?_of_unnamed {segments : List (Segment letters)} (h : ¬ ∀ g ∈ segments, g.Named) :
    decode? letters (segments.flatMap Segment.text) = none := by
  induction segments with
  | nil => exact absurd (List.forall_mem_nil _) h
  | cons g segments ih =>
    rw [List.flatMap_cons]
    by_cases hg : g.Named
    · have hmore : ¬ ∀ g ∈ segments, g.Named := fun hall => h (List.forall_mem_cons.2 ⟨hg, hall⟩)
      rw [decode?_segment hu hU hg, ih hmore]
      rfl
    · exact decode?_segment_none hu hU hg _

end

end Escape

/-! ## Local names -/

namespace Syntax.LocalPiece

/-- A character that stands for itself begins neither a dot nor an escape. -/
theorem ne_of_localChar {x : Char} (hx : (x : CodePoint) ∈ CharClass.localChar) :
    x ≠ '.' ∧ x ≠ '%' ∧ x ≠ '\\' := by
  refine ⟨?_, ?_, ?_⟩ <;> rintro rfl <;> revert hx <;> decide_cbv

/-- What comes first in a local name tells its first piece. -/
theorem text_append_inj {g g' : LocalPiece} {more more' : List Char}
    (h : g.text ++ more = g'.text ++ more') : g = g' ∧ more = more' := by
  cases g with
  | plain x hx =>
    obtain ⟨hdot, hpercent, hescape⟩ := ne_of_localChar hx
    cases g' with
    | plain x' hx' =>
      obtain ⟨rfl, rfl⟩ := List.cons_eq_cons.1 h
      exact ⟨rfl, rfl⟩
    | dot => exact absurd (List.cons_eq_cons.1 h).1 hdot
    | percent => exact absurd (List.cons_eq_cons.1 h).1 hpercent
    | escape => exact absurd (List.cons_eq_cons.1 h).1 hescape
  | dot =>
    cases g' with
    | plain x' hx' => exact absurd (List.cons_eq_cons.1 h).1.symm (ne_of_localChar hx').1
    | dot => exact ⟨rfl, List.tail_eq_of_cons_eq h⟩
    | percent | escape => exact absurd (List.cons_eq_cons.1 h).1 (by decide)
  | percent x y hx hy =>
    cases g' with
    | plain x' hx' => exact absurd (List.cons_eq_cons.1 h).1.symm (ne_of_localChar hx').2.1
    | percent x' y' hx' hy' =>
      obtain ⟨rfl, hmore⟩ := List.cons_eq_cons.1 (List.tail_eq_of_cons_eq h)
      obtain ⟨rfl, rfl⟩ := List.cons_eq_cons.1 hmore
      exact ⟨rfl, rfl⟩
    | dot | escape => exact absurd (List.cons_eq_cons.1 h).1 (by decide)
  | escape x hx =>
    cases g' with
    | plain x' hx' => exact absurd (List.cons_eq_cons.1 h).1.symm (ne_of_localChar hx').2.2
    | escape x' hx' =>
      obtain ⟨rfl, rfl⟩ := List.cons_eq_cons.1 (List.tail_eq_of_cons_eq h)
      exact ⟨rfl, rfl⟩
    | dot | percent => exact absurd (List.cons_eq_cons.1 h).1 (by decide)

/-- A local name is made of its pieces in one way only. -/
theorem flatMap_text_inj {pieces pieces' : List LocalPiece}
    (h : pieces.flatMap text = pieces'.flatMap text) : pieces = pieces' :=
  eq_of_flatMap_eq (fun g => by cases g <;> exact List.cons_ne_nil _ _)
    (fun _ _ _ _ heq => text_append_inj heq) h

end Syntax.LocalPiece

end RdfTurtle
