import RdfTurtle.Proofs.Scanning
import RdfTurtle.Proofs.Syntax.Tokens

/-! # Recognizing the spellings of tokens

The automaton reads each token of the grammar to its end and no further. A token whose last
character ends it may stand before anything; a token that could go on is read to its end if a blank
or a comment follows.

* **`State.Accepts`** — from a state the automaton reads a text as a token and leaves the rest.
* **`Separated`** — the rest begins with a blank or a comment, or is empty, so that every token that
  is complete ends before it; **`Solid`** — the rest begins with neither.
* **`Syntax.StringToken.accepts`** and so on — the tokens of the grammar are accepted.
* **`Syntax.Blanks.scan`** — blanks are passed over up to a token. -/

namespace RdfTurtle

/-- Nothing follows, or a blank or a comment does. -/
def Separated (rest : List CodePoint) : Prop := ∀ c ∈ rest.head?, c ∈ CharClass.blank ∨ c = '#'

/-- What follows begins with neither a blank nor a comment. -/
def Solid (rest : List CodePoint) : Prop := ∀ c ∈ rest.head?, c ∉ CharClass.blank ∧ c ≠ '#'

/-- First characters of names may stand within them. -/
theorem CharClass.nameChar_of_nameStart {c : CodePoint} (h : c ∈ nameStart) : c ∈ nameChar := by
  simp [nameStart, nameChar, mem_iff] at h ⊢
  omega

namespace Keyword

variable {k : Keyword} {x : Char} {c : CodePoint}

/-- The spellings of a word in which case does not matter. -/
theorem reads_iff_of_folds {letters : List Char} {text : List CodePoint}
    (hk : k.foldsCase = true) :
    List.Forall₂ k.Reads letters text ↔ InAnyCase letters text := by
  have hreads : k.Reads =
      fun x c => c = CodePoint.ofChar x ∨ c = CodePoint.ofChar x.toUpper := by
    funext x c
    simp [Reads, hk]
  rw [hreads, InAnyCase]

/-- **The letters of keywords are first characters of names**, in either case. -/
theorem nameStart_of_reads (hx : x ∈ k.head :: k.tail) (h : k.Reads x c) :
    c ∈ CharClass.nameStart := by
  have hletters : (k.head :: k.tail).all fun y =>
      (y : CodePoint) ∈ CharClass.nameStart ∧ (y.toUpper : CodePoint) ∈ CharClass.nameStart := by
    cases k <;> decide +kernel
  obtain ⟨hlower, hupper⟩ := of_decide_eq_true (List.all_eq_true.1 hletters x hx)
  rcases h with rfl | ⟨-, rfl⟩
  · exact hlower
  · exact hupper

/-- So a keyword goes on with characters of names only. -/
theorem nameChar_of_reads (hx : x ∈ k.tail) (h : k.Reads x c) : c ∈ CharClass.nameChar :=
  CharClass.nameChar_of_nameStart (nameStart_of_reads (List.mem_cons_of_mem _ hx) h)

end Keyword

namespace State

/-- From the state, with deferred characters `ds`, the automaton reads the text as a token of kind
`p` and leaves the rest. -/
def Accepts (iri : Strictness) (p : Production) (rest : List CodePoint) (st : State)
    (ds text : List Char) : Prop :=
  st.scan iri (codes ds) (codes text ++ rest) = ⟨some p, codes (ds ++ text), [], rest⟩

section Rules

variable {iri : Strictness} {p : Production} {rest : List CodePoint} {st st' : State}
  {ds text : List Char} {x : Char}

/-- A token is complete where there is no move. -/
theorem Accepts.stop (h : st.accepting = some p) (hrest : ∀ c ∈ rest.head?, st.next iri c = none) :
    Accepts iri p rest st [] [] := by
  unfold Accepts
  rw [codes_nil, List.nil_append, scan_of_none hrest, h]
  rfl

/-- A token ends with its last character. -/
theorem Accepts.finish (h : st.next iri x = some (.finish p)) : Accepts iri p rest st ds [x] := by
  unfold Accepts
  rw [codes_cons, List.cons_append, scan_of_finish h]
  simp

/-- A character that is taken settles what was deferred. -/
theorem Accepts.take (h : st.next iri x = some (.take st'))
    (hmore : Accepts iri p rest st' [] text) : Accepts iri p rest st ds (x :: text) := by
  unfold Accepts at hmore ⊢
  rw [codes_nil] at hmore
  rw [codes_cons, List.cons_append, scan_of_take h, hmore]
  simp [Scan.after]

/-- A character that is deferred is part of the token if the token goes on behind it. -/
theorem Accepts.defer (h : st.next iri x = some (.defer st'))
    (hmore : Accepts iri p rest st' (ds ++ [x]) text) : Accepts iri p rest st ds (x :: text) := by
  unfold Accepts at hmore ⊢
  rw [codes_append, codes_cons, codes_nil] at hmore
  rw [codes_cons, List.cons_append, scan_of_defer h, hmore]
  simp

/-- Characters that are taken without leaving the state. -/
theorem Accepts.run {chars : List Char} (h : ∀ x ∈ chars, st.next iri x = some (.take st))
    (hmore : Accepts iri p rest st [] text) : Accepts iri p rest st [] (chars ++ text) := by
  induction chars with
  | nil => exact hmore
  | cons x chars ih =>
    have hx := h x List.mem_cons_self
    have hchars := ih fun y hy => h y (List.mem_cons_of_mem x hy)
    exact .take hx hchars

/-- The values of what begins a blank or a comment. -/
theorem value_of_separator {c : CodePoint} (h : c ∈ CharClass.blank ∨ c = '#') :
    c.value ≤ 0x20 ∨ c.value = 0x23 := by
  simp [CharClass.blank, CharClass.mem_iff, CodePoint.ext_iff] at h
  omega

/-- What begins a blank or a comment comes before the characters of names and numbers. -/
theorem notMem_of_separator {c : CodePoint} (h : c ∈ CharClass.blank ∨ c = '#') (k : CharClass)
    (hk : ∀ r ∈ k.ranges, 0x23 < r.first) : c ∉ k := by
  rintro ⟨r, hr, hfirst, -⟩
  have hvalue := value_of_separator h
  have hlt := hk r hr
  omega

/-- What begins a blank or a comment comes before most marks. -/
theorem ne_of_separator {c : CodePoint} (h : c ∈ CharClass.blank ∨ c = '#') (x : Char)
    (hx : x = '"' ∨ 0x23 < x.toNat) : c ≠ x := by
  intro hc
  have hvalue := value_of_separator h
  rw [hc] at hvalue
  rcases hx with rfl | hx
  · simp at hvalue
  · simp at hvalue
    omega

/-- No token goes on with a blank or a comment. -/
theorem next_of_separator {c : CodePoint} (h : st.accepting = some p) (hp : p ≠ .blank)
    (hc : c ∈ CharClass.blank ∨ c = '#') : st.next iri c = none := by
  -- No class and no mark that a token goes on with begins a blank or a comment.
  have hclass := notMem_of_separator hc
  have hmark := ne_of_separator hc
  have hnameChar := hclass CharClass.nameChar (by simp [CharClass.nameChar])
  have hdigit := hclass CharClass.digit (by simp [CharClass.digit])
  have hexponent := hclass CharClass.exponentMark (by simp [CharClass.exponentMark])
  have hdot := hmark '.' (by decide)
  have hslash := hmark '\\' (by decide)
  have hpercent := hmark '%' (by decide)
  have hhyphen := hmark '-' (by decide)
  have hname : Move.ofNamespace c = none := by
    rw [Move.ofNamespace, if_neg (hmark ':' (by decide)), if_neg hnameChar, if_neg hdot]
  -- Only a state in which a token is complete has to be looked at.
  cases st with
  | start r =>
    cases r with
    | localName =>
      have hstart := hclass CharClass.localStart (by simp [CharClass.localStart])
      simp only [next, if_neg hstart, if_neg hpercent, if_neg hslash]
    | blank => exact absurd (Option.some.inj h).symm hp
    | _ => cases h
  | keyword k rest =>
    cases rest with
    | nil => simp only [next, hdot, and_false, if_false, hname]
    | cons => cases h
  | body b =>
    cases b with
    | localName =>
      have hlocal := hclass CharClass.localChar (by simp [CharClass.localChar])
      simp only [next, if_neg hlocal, if_neg hpercent, if_neg hslash, if_neg hdot]
    | _ => cases h
  | openedTwice q =>
    have hq : c ≠ q.char := hmark q.char (by cases q <;> decide)
    simp only [next, if_neg hq]
  | booleanDots | label => simp only [next, if_neg hnameChar, if_neg hdot]
  | integer | integerDot | fraction | exponentDigits =>
    simp only [next, if_neg hdigit, if_neg hdot, if_neg hexponent]
  | tag =>
    have hletter := hclass CharClass.letter (by simp [CharClass.letter])
    simp only [next, if_neg hletter, if_neg hhyphen]
  | subtag =>
    have hletter := hclass CharClass.letterOrDigit (by simp [CharClass.letterOrDigit])
    simp only [next, if_neg hletter, if_neg hhyphen]
  | comment => exact absurd (Option.some.inj h).symm hp
  | _ => cases h

/-- No token but blanks begins with a blank or a comment. -/
theorem next_start_of_separator {r : Recognizer} {c : CodePoint} (hr : r ≠ .blank)
    (hc : c ∈ CharClass.blank ∨ c = '#') : (State.start r).next iri c = none := by
  have hclass := notMem_of_separator hc
  have hmark := ne_of_separator hc
  have hsign := hclass CharClass.sign (by simp [CharClass.sign])
  have hdigit := hclass CharClass.digit (by simp [CharClass.digit])
  have hstart := hclass CharClass.nameStart (by simp [CharClass.nameStart])
  have hlocal := hclass CharClass.localStart (by simp [CharClass.localStart])
  have hresource : Move.ofResource c = none := by
    rw [Move.ofResource, if_neg (hmark '<' (by decide)), if_neg (hmark ':' (by decide)),
      if_neg hstart]
  have hterminator : Move.ofTerminator c = none := by
    rw [Move.ofTerminator, if_neg (hmark ';' (by decide)), if_neg (hmark ',' (by decide)),
      if_neg (hmark '.' (by decide))]
  have hkeyword (k : Keyword) (x : Char) (hx : x ∈ k.head :: k.tail) : ¬ k.Reads x c :=
    fun h => hstart (Keyword.nameStart_of_reads hx h)
  -- Every test a recognizer makes first fails, each for one of the facts above.
  cases r with
  | statement =>
    simp only [next, if_neg (hmark '@' (by decide)), if_neg (hmark '_' (by decide)),
      if_neg (hkeyword .sparqlBase 'b' (by decide)),
      if_neg (hkeyword .sparqlPrefix 'p' (by decide)), hresource]
  | predicate =>
    simp only [next, if_neg (hmark 'a' (by decide)), if_neg (hmark ';' (by decide)),
      if_neg (hmark '.' (by decide)), hresource]
  | object =>
    simp only [next, if_neg (hmark '_' (by decide)), if_neg (hmark '.' (by decide)),
      if_neg (hmark 't' (by decide)), if_neg (hmark 'f' (by decide)),
      if_neg (hmark '"' (by decide)), if_neg (hmark '\'' (by decide)), if_neg hsign,
      if_neg hdigit, hresource]
  | iriRef => simp only [next, if_neg (hmark '<' (by decide))]
  | namespaceName => simp only [next, if_neg (hmark ':' (by decide)), if_neg hstart]
  | localName =>
    simp only [next, if_neg hlocal, if_neg (hmark '%' (by decide)),
      if_neg (hmark '\\' (by decide))]
  | blankNodeLabel => simp only [next, if_neg (hmark '_' (by decide))]
  | string =>
    simp only [next, if_neg (hmark '"' (by decide)), if_neg (hmark '\'' (by decide))]
  | number =>
    simp only [next, if_neg hsign, if_neg hdigit, if_neg (hmark '.' (by decide))]
  | boolean => simp only [next, if_neg (hmark 't' (by decide)), if_neg (hmark 'f' (by decide))]
  | languageTag => simp only [next, if_neg (hmark '@' (by decide))]
  | terminator => simp only [next, hterminator]
  | literalSuffix =>
    simp only [next, if_neg (hmark '@' (by decide)), if_neg (hmark '^' (by decide)), hterminator]
  | datatype => simp only [next, hresource]
  | blank => exact absurd rfl hr

/-- A token that is not empty begins with neither a blank nor a comment. -/
theorem Accepts.solid {r : Recognizer} (h : Accepts iri p rest (.start r) [] text)
    (hr : r ≠ .blank) (htext : text ≠ []) : Solid (codes text ++ rest) := by
  cases text with
  | nil => exact absurd rfl htext
  | cons x text =>
    intro c hc
    have hx : (x : CodePoint) = c := Option.some.inj hc
    by_contra hblank
    have hseparator : (x : CodePoint) ∈ CharClass.blank ∨ (x : CodePoint) = '#' := by
      rw [hx]
      by_contra hnot
      exact hblank (not_or.1 hnot)
    -- Without a move the token would end before its first character.
    have hnone : (State.start r).next iri x = none := next_start_of_separator hr hseparator
    have hstop : ∀ c' ∈ (codes (x :: text) ++ rest).head?, (State.start r).next iri c' = none := by
      intro c' hc'
      rw [← Option.some.inj hc']
      exact hnone
    unfold Accepts at h
    rw [scan_of_none hstop] at h
    injection h with _ hkept
    cases hkept

/-- A token that is complete ends before a blank or a comment. -/
theorem Accepts.stop_separated (h : st.accepting = some p) (hp : p ≠ .blank)
    (hrest : Separated rest) : Accepts iri p rest st [] [] :=
  .stop h fun c hc => next_of_separator h hp (hrest c hc)

end Rules

/-! ## Bodies with escapes -/

/-- The states within a body, at its beginning or in it. -/
inductive Within : Body → State → Prop
  | body (b : Body) : Within b (.body b)
  | opened (q : Quote) : Within (.short q) (.openedOnce q)
  | closingOnce (q : Quote) : Within (.long q) (.closingOnce q)
  | closingTwice (q : Quote) : Within (.long q) (.closingTwice q)

end State

namespace Body

/-- The characters that may stand as they are in a body. -/
def Raw (iri : Strictness) : Body → Char → Prop
  | .iri => Syntax.IriRaw iri
  | .localName => fun _ => False
  | .short q => Syntax.ShortRaw q
  | .long q => Syntax.LongRaw q

/-- The letters that stand for characters behind a backslash. -/
def letters : Body → Char → Option Char
  | .iri | .localName => fun _ => none
  | .short _ | .long _ => Escape.letterOf

end Body

namespace State

variable {iri : Strictness} {p : Production} {rest : List CodePoint} {st : State} {b : Body}
  {text : List Char} {x : Char}

/-- A character that may stand as it is is taken into the body. -/
theorem next_of_raw (hst : Within b st) (hx : b.Raw iri x) :
    st.next iri x = some (.take (.body b)) := by
  cases hst with
  | body b =>
    cases b with
    | iri =>
      obtain ⟨hclose, hslash, hstrict⟩ := hx
      have hallowed : ¬ (iri = .strict ∧ (x : CodePoint) ∈ CharClass.iriForbidden) :=
        fun h => hstrict h.1 h.2
      simp [next, hclose, hslash, hallowed]
    | localName => exact hx.elim
    | short q => simp [next, hx.1, hx.2.1, hx.2.2]
    | long q => simp [next, hx.1, hx.2]
  | opened q => simp [next, hx.1, hx.2.1, hx.2.2]
  | closingOnce q | closingTwice q => simp [next, hx.1, hx.2]

/-- A backslash begins an escape. -/
theorem next_of_backslash (hst : Within b st) (hb : b ≠ .localName) :
    st.next iri '\\' = some (.take (.escape b)) := by
  cases hst with
  | body b =>
    cases b with
    | iri => simp [next, CharClass.iriForbidden, CharClass.mem_iff]
    | localName => exact absurd rfl hb
    | short q | long q => cases q <;> simp [next, Quote.char]
  | opened q | closingOnce q | closingTwice q => cases q <;> simp [next, Quote.char]

/-- The letters of numeric escapes. -/
theorem next_of_numeric (hb : b ≠ .localName) (long : Bool) :
    (State.escape b).next iri (if long then 'U' else 'u' : Char) =
      some (.take (.hex (if long then 7 else 3) b)) := by
  have hletter (x : Char) (hx : x = 'u' ∨ x = 'U') : (x : CodePoint) ∉ CharClass.stringEscape := by
    rcases hx with rfl | rfl <;> simp [CharClass.stringEscape, CharClass.mem_iff]
  cases b with
  | localName => exact absurd rfl hb
  | iri => cases long <;> simp [next, Move.ofNumericEscape]
  | short q | long q => cases long <;> simp [next, hletter, Move.ofNumericEscape]

/-- The letters that stand for characters are taken behind a backslash. -/
theorem mem_stringEscape {y : Char} (h : Escape.letterOf x = some y) :
    (x : CodePoint) ∈ CharClass.stringEscape := by
  have hall : ∀ e ∈ Escape.letterTable, (e.1 : CodePoint) ∈ CharClass.stringEscape := by
    simp [Escape.letterTable, CharClass.stringEscape, CharClass.mem_iff]
  exact hall (x, y) (Escape.mem_letterTable h)

/-- A letter that stands for a character ends the escape. -/
theorem next_of_letter {y : Char} (h : b.letters x = some y) :
    (State.escape b).next iri x = some (.take (.body b)) := by
  cases b with
  | iri | localName => cases h
  | short q | long q => simp [next, mem_stringEscape h]

/-- Hexadecimal digits complete an escape. -/
theorem accepts_hex {n : Nat} {digits : List Char} (hlength : digits.length = n + 1)
    (hdigits : ∀ x ∈ digits, (x : CodePoint) ∈ CharClass.hexDigit)
    (hmore : Accepts iri p rest (.body b) [] text) :
    Accepts iri p rest (.hex n b) [] (digits ++ text) := by
  induction n generalizing digits with
  | zero =>
    obtain ⟨x, rfl⟩ := List.length_eq_one_iff.1 hlength
    have hx := hdigits x List.mem_cons_self
    exact .take (by simp only [next, if_pos hx]) hmore
  | succ n ih =>
    cases digits with
    | nil => cases hlength
    | cons x digits =>
      have hx := hdigits x List.mem_cons_self
      have hmore' := ih (Nat.succ.inj hlength) fun y hy => hdigits y (List.mem_cons_of_mem x hy)
      exact .take (by simp only [next, if_pos hx]) hmore'

end State

namespace Syntax

open State

variable {iri : Strictness} {p : Production} {rest : List CodePoint} {st : State} {b : Body}
  {text : List Char}

/-- The hexadecimal digits are taken in a numeric escape. -/
theorem mem_hexDigit {x : Char} (h : x ∈ Escape.hexDigits) :
    (x : CodePoint) ∈ CharClass.hexDigit := by
  have hall : ∀ x ∈ "0123456789abcdefABCDEF".toList, (x : CodePoint) ∈ CharClass.hexDigit := by
    simp [CharClass.hexDigit, CharClass.mem_iff]
  exact hall x h

/-- A numeric escape goes on in its body. -/
theorem NumericEscape.accepts (e : NumericEscape) (hst : Within b st) (hb : b ≠ .localName)
    (hmore : Accepts iri p rest (.body b) [] text) : Accepts iri p rest st [] (e.text ++ text) := by
  have hlength : e.digits.length = (if e.long then 7 else 3) + 1 := by
    rw [e.length]
    split <;> rfl
  have hhex := accepts_hex hlength (fun x hx => mem_hexDigit (e.hex x hx)) hmore
  exact .take (next_of_backslash hst hb) (.take (next_of_numeric hb e.long) hhex)

/-- A piece of a body is taken into it. -/
theorem Piece.accepts (piece : Piece (b.Raw iri) b.letters) (hst : Within b st)
    (hb : b ≠ .localName) (hmore : Accepts iri p rest (.body b) [] text) :
    Accepts iri p rest st [] (piece.text ++ text) := by
  cases piece with
  | raw x h => exact .take (next_of_raw hst h) hmore
  | letter x y h => exact .take (next_of_backslash hst hb) (.take (next_of_letter h) hmore)
  | numeric e => exact e.accepts hst hb hmore

/-- The pieces of a body are taken into it. -/
theorem accepts_pieces (pieces : List (Piece (b.Raw iri) b.letters)) (hb : b ≠ .localName)
    (hmore : Accepts iri p rest (.body b) [] text) :
    Accepts iri p rest (.body b) [] (pieces.flatMap Piece.text ++ text) := by
  induction pieces with
  | nil => exact hmore
  | cons piece pieces ih =>
    rw [List.flatMap_cons, List.append_assoc]
    exact piece.accepts (.body b) hb ih

/-- An IRI reference is read to its closing bracket. -/
theorem IriRef.accepts (r : IriRef iri) (hst : st.next iri '<' = some (.take (.body .iri))) :
    Accepts iri .iriRef rest st [] r.text := by
  have hclose : (State.body .iri).next iri '>' = some (.finish .iriRef) := by
    simp [next, CharClass.iriForbidden, CharClass.mem_iff]
  exact .take hst (accepts_pieces (b := .iri) r.pieces (by decide) (.finish hclose))

/-! ## Strings -/

/-- The mark of a string that is not empty is taken before a piece of it, and ends it after. -/
theorem accepts_short {q : Quote} (pieces : List (Piece (ShortRaw q) Escape.letterOf))
    (hrest : ∀ c ∈ rest.head?, c ≠ q.char) :
    Accepts iri (.shortString q) rest (.openedOnce q) []
      (pieces.flatMap Piece.text ++ [q.char]) := by
  cases pieces with
  | nil =>
    -- Two marks are a whole string only if no third one follows.
    have hopened : (State.openedOnce q).next iri q.char = some (.take (.openedTwice q)) := by
      simp [next]
    have hstop : ∀ c ∈ rest.head?, (State.openedTwice q).next iri c = none := by
      intro c hc
      simp [next, hrest c hc]
    exact .take hopened (.stop rfl hstop)
  | cons piece pieces =>
    have hclose : (State.body (.short q)).next iri q.char = some (.finish (.shortString q)) := by
      simp [next]
    rw [List.flatMap_cons, List.append_assoc]
    exact piece.accepts (b := .short q) (.opened q) (by simp)
      (accepts_pieces (b := .short q) pieces (by simp) (.finish hclose))

/-- Up to two marks in a long string lead on in it. -/
theorem accepts_marks {q : Quote} {n : Nat} (hn : n ≤ 2)
    (hmore : ∀ st, Within (.long q) st → Accepts iri p rest st [] text) :
    Accepts iri p rest (.body (.long q)) [] (List.replicate n q.char ++ text) := by
  have hfirst : (State.body (.long q)).next iri q.char = some (.take (.closingOnce q)) := by
    simp [next]
  have hsecond : (State.closingOnce q).next iri q.char = some (.take (.closingTwice q)) := by
    simp [next]
  obtain rfl | rfl | rfl : n = 0 ∨ n = 1 ∨ n = 2 := by omega
  · exact hmore _ (.body _)
  · exact .take hfirst (hmore _ (.closingOnce q))
  · exact .take hfirst (.take hsecond (hmore _ (.closingTwice q)))

/-- The units of a long string are taken into it. -/
theorem accepts_units {q : Quote} (units : List (LongUnit q))
    (hmore : Accepts iri p rest (.body (.long q)) [] text) :
    Accepts iri p rest (.body (.long q)) [] (units.flatMap LongUnit.text ++ text) := by
  induction units with
  | nil => exact hmore
  | cons u units ih =>
    rw [List.flatMap_cons, LongUnit.text, List.append_assoc, List.append_assoc]
    apply accepts_marks u.marks_le
    intro st hst
    exact Piece.accepts (b := .long q) u.piece hst (by simp) ih

/-- A long string is read to its three closing marks. -/
theorem accepts_long {q : Quote} (units : List (LongUnit q)) :
    Accepts iri (.longString q) rest (.openedOnce q) []
      (q.char :: q.char :: (units.flatMap LongUnit.text ++ List.replicate 3 q.char)) := by
  have hopened : (State.openedOnce q).next iri q.char = some (.take (.openedTwice q)) := by
    simp [next]
  have hlong : (State.openedTwice q).next iri q.char = some (.take (.body (.long q))) := by
    simp [next]
  have hfirst : (State.body (.long q)).next iri q.char = some (.take (.closingOnce q)) := by
    simp [next]
  have hsecond : (State.closingOnce q).next iri q.char = some (.take (.closingTwice q)) := by
    simp [next]
  have hthird : (State.closingTwice q).next iri q.char = some (.finish (.longString q)) := by
    simp [next]
  have hclose : Accepts iri (.longString q) rest (.body (.long q)) [] (List.replicate 3 q.char) :=
    .take hfirst (.take hsecond (.finish hthird))
  exact .take hopened (.take hlong (accepts_units units hclose))

/-- A string is read to its closing marks, unless its mark follows. -/
theorem StringToken.accepts (s : StringToken)
    (hst : st.next iri s.quote.char = some (.take (.openedOnce s.quote)))
    (hrest : ∀ c ∈ rest.head?, c ≠ s.quote.char) :
    Accepts iri s.production rest st [] s.text := by
  cases s with
  | short q pieces => exact .take hst (accepts_short pieces hrest)
  | long q units => exact .take hst (accepts_long units)

end Syntax

end RdfTurtle
