import RdfTurtle.Proofs.Recognition.Bodies

/-! # Recognizing numbers, keywords, language tags and blanks

* **`Number.accepts`** — a number is read to its end, as the kind that it is.
* **`Spelling.accepts`**, **`accepts_boolean`**, **`accepts_typeWord`** — keywords.
* **`Language.accepts`** — language tags.
* **`Blanks.scan`** — blanks are passed over up to a token. -/

namespace RdfTurtle.Syntax

open State

variable {iri : Strictness} {p : Production} {rest : List CodePoint} {st : State} {text : List Char}

/-! ## Words of a class -/

/-- The characters of a word are taken one after the other, the first one perhaps from another
state. -/
theorem Word.accepts {k : CharClass} {st' : State} {ds : List Char} (w : Word k)
    (hfirst : ∀ x : Char, (x : CodePoint) ∈ k → st.next iri x = some (.take st'))
    (hnext : ∀ x : Char, (x : CodePoint) ∈ k → st'.next iri x = some (.take st'))
    (hmore : Accepts iri p rest st' [] text) : Accepts iri p rest st ds (w.chars ++ text) := by
  obtain ⟨⟨chars, hall⟩, hne⟩ := w
  cases chars with
  | nil => exact absurd rfl hne
  | cons x chars =>
    have hrun := Accepts.run (fun y hy => hnext y (hall y (List.mem_cons_of_mem x hy))) hmore
    exact .take (hfirst x (hall x List.mem_cons_self)) hrun

/-! ## Numbers -/

/-- The states before the first digit of an object that is a number. -/
def NumberStart (st : State) : Prop := st = .start .object ∨ st = .sign

/-- A sign of an object is taken, and there may be none. -/
theorem Sign.accepts (sign : Sign) (h : ∀ st, NumberStart st → Accepts iri p rest st [] text) :
    Accepts iri p rest (.start .object) [] (sign.text ++ text) := by
  have hmore := h .sign (Or.inr rfl)
  cases sign with
  | plus => exact .take (by simp [next, CharClass.sign, CharClass.mem_iff]) hmore
  | minus => exact .take (by simp [next, CharClass.sign, CharClass.mem_iff]) hmore
  | none => exact h _ (Or.inl rfl)

/-- A first digit begins an integer. -/
theorem next_of_digit (hst : NumberStart st ∨ st = .integer) (x : Char)
    (hx : (x : CodePoint) ∈ CharClass.digit) : st.next iri x = some (.take .integer) := by
  have hrange := CharClass.mem_digit.1 hx
  have hne (y : Char) (hy : ¬ (0x30 ≤ y.toNat ∧ y.toNat ≤ 0x39)) : (x : CodePoint) ≠ y := by
    intro h
    rw [h] at hrange
    exact hy hrange
  have hsign : (x : CodePoint) ∉ CharClass.sign := by
    intro h
    simp [CharClass.sign, CharClass.mem_iff] at h
    simp at hrange
    omega
  rcases hst with (rfl | rfl) | rfl
  · simp only [next, if_neg (hne '_' (by decide)), if_neg (hne '.' (by decide)),
      if_neg (hne 't' (by decide)), if_neg (hne 'f' (by decide)), if_neg (hne '"' (by decide)),
      if_neg (hne '\'' (by decide)), if_neg hsign, if_pos hx]
  · simp only [next, if_pos hx]
  · simp only [next, if_pos hx]

/-- The digits of an integer. -/
theorem accepts_integer (digits : Word CharClass.digit) (hst : NumberStart st)
    (hmore : Accepts iri p rest .integer [] text) :
    Accepts iri p rest st [] (digits.chars ++ text) :=
  digits.accepts (next_of_digit (Or.inl hst)) (next_of_digit (Or.inr rfl)) hmore

/-- The digits behind a point, the point being taken or deferred. -/
theorem accepts_fraction {ds : List Char} (digits : Word CharClass.digit)
    (hst : st = .leadingDot ∨ st = .integerDot)
    (hmore : Accepts iri p rest .fraction [] text) :
    Accepts iri p rest st ds (digits.chars ++ text) := by
  refine digits.accepts (fun x hx => ?_) (fun x hx => ?_) hmore
  · rcases hst with rfl | rfl <;> simp only [next, if_pos hx]
  · simp only [next, if_pos hx]

/-- A number that begins with a point. -/
theorem accepts_leading (digits : Word CharClass.digit) (hst : NumberStart st)
    (hmore : Accepts iri p rest .fraction [] text) :
    Accepts iri p rest st [] ('.' :: (digits.chars ++ text)) := by
  rcases hst with rfl | rfl
  · have hnext : (State.start .object).next iri '.' = some (.defer .leadingDot) := by
      simp [next]
    exact .defer hnext (accepts_fraction digits (Or.inl rfl) hmore)
  · have hnext : State.sign.next iri '.' = some (.take .leadingDot) := by
      simp [next, CharClass.digit, CharClass.mem_iff]
    exact .take hnext (accepts_fraction digits (Or.inl rfl) hmore)

/-- A point behind digits is deferred. -/
theorem next_of_point : State.integer.next iri '.' = some (.defer .integerDot) := by
  simp [next, CharClass.digit, CharClass.mem_iff]

/-- The letter of an exponent begins one behind the digits of a number. -/
theorem next_of_exponentMark {x : Char} (hx : (x : CodePoint) ∈ CharClass.exponentMark)
    (hst : st = .integer ∨ st = .integerDot ∨ st = .fraction) :
    st.next iri x = some (.take .exponent) := by
  have hdigit : (x : CodePoint) ∉ CharClass.digit := by
    intro h
    rw [CharClass.mem_digit] at h
    simp [CharClass.exponentMark, CharClass.mem_iff] at hx
    simp at h
    omega
  have hdot : (x : CodePoint) ≠ '.' := by
    intro h
    rw [h] at hx
    simp [CharClass.exponentMark, CharClass.mem_iff] at hx
  rcases hst with rfl | rfl | rfl <;>
    simp only [next, if_neg hdigit, if_neg hdot, if_pos hx]

/-- The exponent of a number, behind its letter. -/
theorem accepts_exponent (sign : Sign) (digits : Word CharClass.digit) (hrest : Separated rest) :
    Accepts iri .double rest .exponent [] (sign.text ++ digits.chars) := by
  have hstop : Accepts iri .double rest .exponentDigits [] [] :=
    .stop_separated rfl (by decide) hrest
  have hdigits (x : Char) (hx : (x : CodePoint) ∈ CharClass.digit) :
      State.exponentDigits.next iri x = some (.take .exponentDigits) := by
    simp only [next, if_pos hx]
  have hsigned : Accepts iri .double rest .exponentSign [] digits.chars := by
    rw [← List.append_nil digits.chars]
    exact digits.accepts (fun x hx => by simp only [next, if_pos hx]) hdigits hstop
  cases sign with
  | plus => exact .take (by simp [next, CharClass.sign, CharClass.mem_iff]) hsigned
  | minus => exact .take (by simp [next, CharClass.sign, CharClass.mem_iff]) hsigned
  | none =>
    have hsign (x : Char) (hx : (x : CodePoint) ∈ CharClass.digit) :
        (x : CodePoint) ∉ CharClass.sign := by
      intro h
      rw [CharClass.mem_digit] at hx
      simp [CharClass.sign, CharClass.mem_iff] at h
      simp at hx
      omega
    rw [Sign.text, List.nil_append, ← List.append_nil digits.chars]
    exact digits.accepts (fun x hx => by simp only [next, if_neg (hsign x hx), if_pos hx]) hdigits
      hstop

/-- The digits before an exponent, and its letter. -/
theorem Mantissa.accepts (m : Mantissa) {mark : Char}
    (hmark : (mark : CodePoint) ∈ CharClass.exponentMark) (hst : NumberStart st)
    (hmore : Accepts iri p rest .exponent [] text) :
    Accepts iri p rest st [] (m.text ++ mark :: text) := by
  cases m with
  | bare digits =>
    exact accepts_integer digits hst (.take (next_of_exponentMark hmark (Or.inl rfl)) hmore)
  | pointed before after =>
    rw [Mantissa.text, List.append_assoc, List.cons_append]
    refine accepts_integer before hst (.defer next_of_point ?_)
    -- Behind the point the letter of the exponent may follow at once.
    obtain ⟨chars, hall⟩ := after
    by_cases hnil : chars = []
    · subst hnil
      exact .take (next_of_exponentMark hmark (Or.inr (Or.inl rfl))) hmore
    · have hmark' : State.fraction.next iri mark = some (.take .exponent) :=
        next_of_exponentMark hmark (Or.inr (Or.inr rfl))
      exact accepts_fraction ⟨⟨chars, hall⟩, hnil⟩ (Or.inr rfl) (.take hmark' hmore)
  | leading after =>
    have hmark' : State.fraction.next iri mark = some (.take .exponent) :=
      next_of_exponentMark hmark (Or.inr (Or.inr rfl))
    exact accepts_leading after hst (.take hmark' hmore)

/-- A number is read to its end. -/
theorem Number.accepts (n : Number) (hrest : Separated rest) :
    Accepts iri n.production rest (.start .object) [] n.text := by
  cases n with
  | integer sign digits =>
    apply sign.accepts
    intro st hst
    rw [← List.append_nil digits.chars]
    exact accepts_integer digits hst (.stop_separated rfl (fun h => by cases h) hrest)
  | decimal sign before after =>
    have hstop : Accepts iri .decimal rest .fraction [] [] :=
      .stop_separated rfl (by decide) hrest
    apply sign.accepts
    intro st hst
    rw [← List.append_nil after.chars]
    -- A point that comes first is deferred from another state than one behind digits.
    obtain ⟨chars, hall⟩ := before
    by_cases hnil : chars = []
    · subst hnil
      exact accepts_leading after hst hstop
    · exact accepts_integer ⟨⟨chars, hall⟩, hnil⟩ hst
        (.defer next_of_point (accepts_fraction after (Or.inr rfl) hstop))
  | double sign mantissa mark hmark exponentSign exponent =>
    apply sign.accepts
    intro st hst
    exact mantissa.accepts hmark hst (accepts_exponent exponentSign exponent hrest)

/-! ## Keywords, language tags and marks -/

/-- The rest of a word without variants is read letter by letter. -/
theorem accepts_spelling (x : Char) (letters : List Char) :
    Accepts iri p rest (.spelling x letters p) [] (x :: letters) := by
  induction letters generalizing x with
  | nil => exact .finish (by simp [next])
  | cons y letters ih => exact .take (by simp [next]) (ih y)

/-- The words of directives behind an `@`. -/
theorem accepts_atBase :
    Accepts iri .atBase rest (.start .statement) [] ['@', 'b', 'a', 's', 'e'] := by
  have hat : (State.start .statement).next iri '@' = some (.take .directive) := by simp [next]
  have hword : State.directive.next iri 'b' = some (.take (.spelling 'a' ['s', 'e'] .atBase)) := by
    simp [next]
  exact .take hat (.take hword (accepts_spelling _ _))

/-- So is the word of a namespace. -/
theorem accepts_atPrefix :
    Accepts iri .atPrefix rest (.start .statement) [] ['@', 'p', 'r', 'e', 'f', 'i', 'x'] := by
  have hat : (State.start .statement).next iri '@' = some (.take .directive) := by simp [next]
  have hword : State.directive.next iri 'p' =
      some (.take (.spelling 'r' ['e', 'f', 'i', 'x'] .atPrefix)) := by
    simp [next]
  exact .take hat (.take hword (accepts_spelling _ _))

/-- The letters of a keyword are read in any case that it admits. -/
theorem accepts_keyword {k : Keyword} {letters chars : List Char}
    (h : List.Forall₂ (fun x y => k.Reads x (y : Char)) letters chars) (hrest : Separated rest) :
    Accepts iri k.production rest (.keyword k letters) [] chars := by
  induction h with
  | nil =>
    have hproduction : k.production ≠ .blank := by cases k <;> decide
    exact .stop_separated rfl hproduction hrest
  | cons hread _ ih => exact .take (by simp only [next, if_pos hread]) ih

/-- A keyword in the place of a statement is read to its end, in any case. -/
theorem Spelling.accepts {k : Keyword} (w : Spelling (k.head :: k.tail)) (hk : k.foldsCase)
    (hrest : Separated rest) : Accepts iri k.production rest (.start .statement) [] w.chars := by
  obtain ⟨chars, hcase⟩ := w
  have hreads : List.Forall₂ (fun x y => k.Reads x (y : Char)) (k.head :: k.tail) chars :=
    List.forall₂_map_right_iff.1 ((k.reads_iff_of_folds hk).2 hcase)
  cases hreads with
  | cons hread hmore =>
    apply Accepts.take ?_ (accepts_keyword hmore hrest)
    -- The first letter in either case tells the two keywords apart.
    cases k with
    | sparqlBase | sparqlPrefix =>
      rcases hread with h | ⟨-, h⟩ <;> rw [h] <;>
        simp [next, Keyword.head, Keyword.Reads, Keyword.foldsCase, Move.ofKeyword]
    | typeWord | trueWord | falseWord => cases hk

/-- The keyword of a base is read in any case. -/
theorem accepts_sparqlBase (w : Spelling ['b', 'a', 's', 'e']) (hrest : Separated rest) :
    Accepts iri .sparqlBase rest (.start .statement) [] w.chars :=
  Spelling.accepts (k := .sparqlBase) w rfl hrest

/-- So is that of a namespace. -/
theorem accepts_sparqlPrefix (w : Spelling ['p', 'r', 'e', 'f', 'i', 'x'])
    (hrest : Separated rest) : Accepts iri .sparqlPrefix rest (.start .statement) [] w.chars :=
  Spelling.accepts (k := .sparqlPrefix) w rfl hrest

/-- The word `a` is a predicate if it ends there. -/
theorem accepts_typeWord (hrest : Separated rest) :
    Accepts iri .typeWord rest (.start .predicate) [] ['a'] := by
  have hnext : (State.start .predicate).next iri 'a' = some (.take (.keyword .typeWord [])) := by
    simp [next, Move.ofKeyword, Keyword.tail]
  exact .take hnext (.stop_separated rfl (by decide) hrest)

/-- A boolean is an object if it ends there. -/
theorem accepts_boolean (b : Bool) (hrest : Separated rest) :
    Accepts iri .boolean rest (.start .object) [] (booleanText b) := by
  have hreads (k : Keyword) : List.Forall₂ (fun x y => k.Reads x (y : Char)) k.tail k.tail :=
    List.forall₂_same.2 fun x _ => Or.inl rfl
  cases b with
  | true =>
    have hnext : (State.start .object).next iri 't' =
        some (.take (.keyword .trueWord ['r', 'u', 'e'])) := by
      simp [next, Move.ofKeyword, Keyword.tail]
    exact .take hnext (accepts_keyword (hreads .trueWord) hrest)
  | false =>
    have hnext : (State.start .object).next iri 'f' =
        some (.take (.keyword .falseWord ['a', 'l', 's', 'e'])) := by
      simp [next, Move.ofKeyword, Keyword.tail]
    exact .take hnext (accepts_keyword (hreads .falseWord) hrest)

/-- The subtags of a language are read one after the other. -/
theorem accepts_subtags (subtags : List (Word CharClass.letterOrDigit))
    (hst : st = .tag ∨ st = .subtag) (hrest : Separated rest) :
    Accepts iri .languageTag rest st [] (subtags.flatMap fun t => '-' :: t.chars) := by
  induction subtags generalizing st with
  | nil =>
    have haccepting : st.accepting = some .languageTag := by rcases hst with rfl | rfl <;> rfl
    exact .stop_separated haccepting (by decide) hrest
  | cons t subtags ih =>
    have hyphen : st.next iri '-' = some (.take .subtagFirst) := by
      rcases hst with rfl | rfl <;>
        simp [next, CharClass.letter, CharClass.letterOrDigit, CharClass.mem_iff]
    have hfirst (x : Char) (hx : (x : CodePoint) ∈ CharClass.letterOrDigit) :
        State.subtagFirst.next iri x = some (.take .subtag) := by simp only [next, if_pos hx]
    have hnext (x : Char) (hx : (x : CodePoint) ∈ CharClass.letterOrDigit) :
        State.subtag.next iri x = some (.take .subtag) := by simp only [next, if_pos hx]
    exact .take hyphen (t.accepts hfirst hnext (ih (Or.inr rfl)))

/-- A language tag is read to its end. -/
theorem Language.accepts (l : Language) (hrest : Separated rest) :
    Accepts iri .languageTag rest (.start .literalSuffix) [] l.text := by
  have hat : (State.start .literalSuffix).next iri '@' = some (.take .tagFirst) := by simp [next]
  have hfirst (x : Char) (hx : (x : CodePoint) ∈ CharClass.letter) :
      State.tagFirst.next iri x = some (.take .tag) := by simp only [next, if_pos hx]
  have hnext (x : Char) (hx : (x : CodePoint) ∈ CharClass.letter) :
      State.tag.next iri x = some (.take .tag) := by simp only [next, if_pos hx]
  exact .take hat (l.main.accepts hfirst hnext (accepts_subtags l.subtags (Or.inl rfl) hrest))

/-- The mark before a datatype. -/
theorem accepts_datatypeMark :
    Accepts iri .datatypeMark rest (.start .literalSuffix) [] ['^', '^'] := by
  have hfirst : (State.start .literalSuffix).next iri '^' = some (.take .caret) := by simp [next]
  exact .take hfirst (.finish (by simp [next]))

/-! ## Blanks -/

/-- A comment is passed over to the end of its line. -/
theorem scan_comment {chars : List Char} {ending : Char} (input : List CodePoint)
    (h : ∀ x ∈ chars, (x : CodePoint) ∉ CharClass.lineEnd)
    (hending : (ending : CodePoint) ∈ CharClass.lineEnd) :
    State.comment.scan iri [] (codes (chars ++ [ending]) ++ input) =
      (State.start .blank).scan iri [] input := by
  induction chars with
  | nil =>
    have hend : State.comment.next iri ending = some (.skip (.start .blank)) := by
      simp only [next, if_pos hending]
    exact scan_of_skip hend
  | cons x chars ih =>
    have hx : State.comment.next iri x = some (.skip .comment) := by
      simp only [next, if_neg (h x List.mem_cons_self)]
    rw [List.cons_append, codes_cons, List.cons_append, scan_of_skip hx]
    exact ih fun y hy => h y (List.mem_cons_of_mem x hy)

/-- Blanks are passed over. -/
theorem BlankPiece.scan (piece : BlankPiece) (input : List CodePoint) :
    (State.start .blank).scan iri [] (codes piece.text ++ input) =
      (State.start .blank).scan iri [] input := by
  cases piece with
  | blank x h =>
    have hnext : (State.start .blank).next iri x = some (.skip (.start .blank)) := by
      simp only [next, if_pos h]
    exact scan_of_skip hnext
  | comment chars h ending hending =>
    have hsharp : (State.start .blank).next iri '#' = some (.skip .comment) := by
      simp [next, CharClass.blank, CharClass.mem_iff]
    rw [BlankPiece.text, codes_cons, List.cons_append, scan_of_skip hsharp]
    exact scan_comment input h hending

/-- A piece of blanks begins with what ends every token. -/
theorem BlankPiece.separated (piece : BlankPiece) : Separated (codes piece.text ++ rest) := by
  intro c hc
  cases piece with
  | blank x h =>
    rw [← Option.some.inj hc]
    exact Or.inl h
  | comment chars h ending hending =>
    rw [← Option.some.inj hc]
    exact Or.inr rfl

/-- A gap ends every token before it. -/
theorem Gap.separated (g : Gap) : Separated (codes g.text ++ rest) := by
  rw [Gap.text, codes_append, List.append_assoc]
  exact g.first.separated

/-- A mark that does not come first does not come first behind blanks either, which begin with
none. -/
theorem Blanks.head_ne (b : Blanks) {x : Char} (hx : x = '"' ∨ 0x23 < x.toNat)
    (hrest : ∀ c ∈ rest.head?, c ≠ x) : ∀ c ∈ (codes b.text ++ rest).head?, c ≠ x := by
  obtain ⟨pieces⟩ := b
  cases pieces with
  | nil => exact hrest
  | cons piece pieces =>
    intro c hc
    rw [Blanks.text, List.flatMap_cons, codes_append, List.append_assoc] at hc
    exact ne_of_separator (piece.separated c hc) x hx

/-- Blanks are passed over up to what is none. -/
theorem Blanks.scan (b : Blanks) (hrest : Solid rest) :
    (State.start .blank).scan iri [] (codes b.text ++ rest) = ⟨some .blank, [], [], rest⟩ := by
  obtain ⟨pieces⟩ := b
  induction pieces with
  | nil =>
    apply scan_of_none
    intro c hc
    obtain ⟨hblank, hsharp⟩ := hrest c hc
    simp only [next, if_neg hblank, if_neg hsharp]
  | cons piece pieces ih =>
    rw [Blanks.text, List.flatMap_cons, codes_append, List.append_assoc, piece.scan]
    exact ih

end RdfTurtle.Syntax
