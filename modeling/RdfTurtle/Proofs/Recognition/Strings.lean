import Mathlib.Computability.Language
import RdfTurtle.Proofs.Recognition.Taking

/-! # Strings are those of the grammar

The four kinds of string as languages of code points, written as the grammar writes them, and the
recognizer of strings, which accepts exactly their words. -/

namespace RdfTurtle

open Computability

/-! ## The grammar -/

namespace Quoted

/-- The words of one code point with a property. -/
def one (P : CodePoint → Prop) : Language CodePoint := {text | ∃ c, P c ∧ text = [c]}

/-- The word of one character. -/
def mark (x : Char) : Language CodePoint := one (· = x)

/-- The hexadecimal digits (`HEX`). -/
def hexDigit : Language CodePoint :=
  one fun c => 0x30 ≤ c.value ∧ c.value ≤ 0x39 ∨ 0x41 ≤ c.value ∧ c.value ≤ 0x46 ∨
    0x61 ≤ c.value ∧ c.value ≤ 0x66

/-- A backslash and a letter (`ECHAR`). -/
def letterEscape : Language CodePoint :=
  mark '\\' * one (· ∈ codes ['t', 'b', 'n', 'r', 'f', '"', '\'', '\\'])

/-- A backslash and the number of a character (`UCHAR`). -/
def numericEscape : Language CodePoint :=
  mark '\\' * (mark 'u' * hexDigit ^ 4 + mark 'U' * hexDigit ^ 8)

/-- A code point that stands for itself, or an escape. -/
def piece (Raw : CodePoint → Prop) : Language CodePoint := one Raw + letterEscape + numericEscape

/-- The pieces between single marks: no line end stands for itself there. -/
def shortPiece (q : Quote) : Language CodePoint :=
  piece fun c => c ≠ q.char ∧ c ≠ '\\' ∧ c ≠ '\r' ∧ c ≠ '\n'

/-- The pieces between triple marks, the marks apart. -/
def longPiece (q : Quote) : Language CodePoint := piece fun c => c ≠ q.char ∧ c ≠ '\\'

/-- Strings between single marks (`STRING_LITERAL_QUOTE`, `STRING_LITERAL_SINGLE_QUOTE`). -/
def short (q : Quote) : Language CodePoint := mark q.char * ((shortPiece q)∗ * mark q.char)

/-- Strings between triple marks (`STRING_LITERAL_LONG_QUOTE`,
`STRING_LITERAL_LONG_SINGLE_QUOTE`). -/
def long (q : Quote) : Language CodePoint :=
  mark q.char ^ 3 * (((1 + mark q.char + mark q.char ^ 2) * longPiece q)∗ * mark q.char ^ 3)

/-! ### Words and their first code points -/

variable {P : CodePoint → Prop} {L : Language CodePoint} {c : CodePoint} {text : List CodePoint}

/-- The first code point is the one of the class. -/
@[simp] theorem cons_mem_one_mul : c :: text ∈ one P * L ↔ P c ∧ text ∈ L := by
  rw [Language.mem_mul]
  constructor
  · rintro ⟨_, ⟨d, hd, rfl⟩, more, hmore, heq⟩
    obtain ⟨rfl, rfl⟩ := List.cons_eq_cons.1 heq
    exact ⟨hd, hmore⟩
  · exact fun ⟨hc, hmore⟩ => ⟨[c], ⟨c, hc, rfl⟩, text, hmore, rfl⟩

/-- One code point is no more than one. -/
@[simp] theorem cons_mem_one : c :: text ∈ one P ↔ P c ∧ text = [] := by
  rw [← mul_one (one P), cons_mem_one_mul, Language.mem_one]

/-- Nor is it none. -/
@[simp] theorem nil_notMem_one : [] ∉ one P := by
  rintro ⟨c, -, heq⟩
  cases heq

/-- Nor is it with something behind it. -/
@[simp] theorem nil_notMem_one_mul : [] ∉ one P * L := by
  rintro ⟨_, ⟨c, -, rfl⟩, more, -, heq⟩
  cases heq

/-- A word that begins with a character is the character and a word. -/
theorem mem_mark_mul {x : Char} :
    text ∈ mark x * L ↔ ∃ more, text = (x : CodePoint) :: more ∧ more ∈ L := by
  cases text with
  | nil => simp [mark]
  | cons c text => simp [mark, and_assoc]

/-- Behind the character stands the word. -/
theorem cons_mem_mark_mul {x : Char} : (x : CodePoint) :: text ∈ mark x * L ↔ text ∈ L := by
  simp [mark]

/-- Code points with a property, one after the other. -/
theorem mem_kstar_one : text ∈ (one P)∗ ↔ ∀ c ∈ text, P c := by
  rw [Language.mem_kstar]
  constructor
  · rintro ⟨parts, rfl, hparts⟩ c hc
    obtain ⟨part, hpart, hmem⟩ := List.mem_flatten.1 hc
    obtain ⟨d, hd, rfl⟩ := hparts part hpart
    rwa [List.mem_singleton.1 hmem]
  · intro h
    refine ⟨text.map fun c => [c], ?_, fun part hpart => ?_⟩
    · rw [← List.flatMap_def, List.flatMap_singleton']
    · obtain ⟨c, hc, rfl⟩ := List.mem_map.1 hpart
      exact ⟨c, h c hc, rfl⟩

/-! ### What may follow -/

/-- What may follow a backslash. -/
def escaped : Language CodePoint :=
  one (· ∈ codes ['t', 'b', 'n', 'r', 'f', '"', '\'', '\\']) +
    (mark 'u' * hexDigit ^ 4 + mark 'U' * hexDigit ^ 8)

/-- A piece is a code point that stands for itself, or a backslash and what may follow it. -/
theorem piece_eq (Raw : CodePoint → Prop) : piece Raw = one Raw + mark '\\' * escaped := by
  rw [piece, letterEscape, numericEscape, add_assoc, ← mul_add, ← escaped]

/-- What may follow within single marks. -/
def shortRest (q : Quote) : Language CodePoint := (shortPiece q)∗ * mark q.char

/-- What may follow within triple marks. -/
def longRest (q : Quote) : Language CodePoint :=
  ((1 + mark q.char + mark q.char ^ 2) * longPiece q)∗ * mark q.char ^ 3

/-- What may follow behind two marks that may close a string. -/
def longRestTwice (q : Quote) : Language CodePoint := longPiece q * longRest q + mark q.char

/-- What may follow behind one mark that may close a string. -/
def longRestOnce (q : Quote) : Language CodePoint :=
  longPiece q * longRest q + mark q.char * longRestTwice q

/-- Within single marks comes the mark, or a piece and then the same again. -/
theorem shortRest_eq (q : Quote) :
    shortRest q = mark q.char + shortPiece q * shortRest q := by
  conv_lhs => rw [shortRest, ← Language.one_add_self_mul_kstar_eq_kstar]
  rw [add_mul, one_mul, mul_assoc, shortRest]

/-- Within triple marks comes a piece and then the same again, or a mark that may close the string.
-/
theorem longRest_eq (q : Quote) :
    longRest q = longPiece q * longRest q + mark q.char * longRestOnce q := by
  conv_lhs => rw [longRest, ← Language.one_add_self_mul_kstar_eq_kstar]
  rw [add_mul, one_mul, mul_assoc, mul_assoc, ← longRest, longRestOnce, longRestTwice]
  simp only [add_mul, mul_add, one_mul, pow_succ, pow_zero, mul_assoc]
  ac_rfl

/-- The first code point of a piece, and what follows it. -/
theorem cons_mem_piece {Raw : CodePoint → Prop} :
    c :: text ∈ piece Raw * L ↔ Raw c ∧ text ∈ L ∨ c = '\\' ∧ text ∈ escaped * L := by
  rw [piece_eq, add_mul, Language.mem_add, mul_assoc, mark, cons_mem_one_mul, cons_mem_one_mul]

/-- A piece has at least a code point. -/
theorem nil_notMem_piece_mul {Raw : CodePoint → Prop} : [] ∉ piece Raw * L := by
  rw [piece_eq, add_mul, Language.mem_add, mul_assoc, mark]
  simp

/-- A string is not closed without a mark. -/
theorem nil_notMem_shortRest (q : Quote) : [] ∉ shortRest q := by
  rw [shortRest_eq, Language.mem_add]
  exact not_or.2 ⟨nil_notMem_one, nil_notMem_piece_mul⟩

/-- A mark is no backslash. -/
theorem quote_ne_backslash (q : Quote) : CodePoint.ofChar q.char ≠ '\\' := by
  cases q <;> decide

/-- Within single marks: a mark ends the string, and a line end may not follow. -/
theorem cons_mem_shortRest (q : Quote) :
    c :: text ∈ shortRest q ↔
      if c = q.char then text = []
      else if c = '\\' then text ∈ escaped * shortRest q
      else c ∉ CharClass.lineEnd ∧ text ∈ shortRest q := by
  conv_lhs => rw [shortRest_eq]
  rw [Language.mem_add, mark, cons_mem_one, shortPiece, cons_mem_piece, CharClass.mem_lineEnd]
  split_ifs with hq hb
  · simp [hq, quote_ne_backslash q]
  · simp [hb, (quote_ne_backslash q).symm]
  · simp [hq, hb, and_comm]

/-- Within triple marks every code point but the mark and a backslash stands for itself. -/
theorem cons_mem_longPiece_mul (q : Quote) :
    c :: text ∈ longPiece q * L ↔
      if c = q.char then False else if c = '\\' then text ∈ escaped * L else text ∈ L := by
  rw [longPiece, cons_mem_piece]
  split_ifs with hq hb
  · simp [hq, quote_ne_backslash q]
  · simp [hb, (quote_ne_backslash q).symm]
  · simp [hq, hb]

/-- A mark within triple marks may be the first, the second or the third of those that close the
string. -/
theorem cons_mem_longRest (q : Quote) :
    c :: text ∈ longRest q ↔
      if c = q.char then text ∈ longRestOnce q
      else if c = '\\' then text ∈ escaped * longRest q
      else text ∈ longRest q := by
  conv_lhs => rw [longRest_eq]
  rw [Language.mem_add, cons_mem_longPiece_mul, mark, cons_mem_one_mul]
  split_ifs with hq <;> simp [hq]

/-- Behind one mark another may follow that closes the string, or the string goes on. -/
theorem cons_mem_longRestOnce (q : Quote) :
    c :: text ∈ longRestOnce q ↔
      if c = q.char then text ∈ longRestTwice q
      else if c = '\\' then text ∈ escaped * longRest q
      else text ∈ longRest q := by
  rw [longRestOnce, Language.mem_add, cons_mem_longPiece_mul, mark, cons_mem_one_mul]
  split_ifs with hq <;> simp [hq]

/-- Behind two marks a third closes the string, or the string goes on. -/
theorem cons_mem_longRestTwice (q : Quote) :
    c :: text ∈ longRestTwice q ↔
      if c = q.char then text = []
      else if c = '\\' then text ∈ escaped * longRest q
      else text ∈ longRest q := by
  rw [longRestTwice, Language.mem_add, cons_mem_longPiece_mul, mark, cons_mem_one]
  split_ifs with hq <;> simp [hq]

/-- Behind a backslash stands a letter, or the letter of a number and its digits. -/
theorem cons_mem_escaped_mul :
    c :: text ∈ escaped * L ↔
      if c ∈ CharClass.stringEscape then text ∈ L
      else if c = 'u' then text ∈ hexDigit ^ 4 * L
      else c = 'U' ∧ text ∈ hexDigit ^ 8 * L := by
  have hletters : c ∈ CharClass.stringEscape ↔
      c ∈ codes ['t', 'b', 'n', 'r', 'f', '"', '\'', '\\'] := by
    simp [CharClass.stringEscape, CharClass.mem_iff, CodePoint.ext_iff]
    omega
  rw [escaped, add_mul, add_mul, Language.mem_add, Language.mem_add, mul_assoc, mul_assoc, mark,
    mark, cons_mem_one_mul, cons_mem_one_mul, cons_mem_one_mul, ← hletters]
  split_ifs with hletter hu
  · have hne : c ≠ 'u' ∧ c ≠ 'U' := by
      constructor <;> rintro rfl <;> revert hletter <;> decide +kernel
    simp [hletter, hne]
  · rw [hu] at hletter
    simp [hu, hletter]
  · simp [hletter, hu]

/-- The digits are those of the table. -/
theorem hexDigit_eq : hexDigit = one (· ∈ CharClass.hexDigit) := by
  rw [hexDigit]
  congr
  funext c
  simp [CharClass.hexDigit, CharClass.mem_iff]

/-- A digit and what may follow it. -/
theorem cons_mem_hexDigit_mul : c :: text ∈ hexDigit * L ↔ c ∈ CharClass.hexDigit ∧ text ∈ L := by
  rw [hexDigit_eq, cons_mem_one_mul]

/-- The digits of a number one after the other. -/
theorem cons_mem_hexDigit_pow_mul (n : Nat) :
    c :: text ∈ hexDigit ^ (n + 1) * L ↔ c ∈ CharClass.hexDigit ∧ text ∈ hexDigit ^ n * L := by
  rw [pow_succ', mul_assoc, cons_mem_hexDigit_mul]

/-- A string between single marks is a mark and what may follow it. -/
theorem mem_short {q : Quote} :
    text ∈ short q ↔ ∃ more, text = (q.char : CodePoint) :: more ∧ more ∈ shortRest q :=
  mem_mark_mul

/-- A string between triple marks is three marks and what may follow them. -/
theorem mem_long {q : Quote} :
    text ∈ long q ↔ ∃ more, text = (q.char : CodePoint) :: q.char :: q.char :: more ∧
      more ∈ longRest q := by
  rw [long, ← longRest, pow_succ', pow_two, mul_assoc, mul_assoc, mem_mark_mul]
  simp [mem_mark_mul]

end Quoted

/-- The strings of a kind. -/
def Production.strings : Production → Language CodePoint
  | .shortString q => Quoted.short q
  | .longString q => Quoted.long q
  | _ => 0

/-- A string begins with its mark. -/
theorem Production.mem_strings {p : Production} {text : List CodePoint} :
    text ∈ p.strings ↔ ∃ (q : Quote) (more : List CodePoint),
      text = (q.char : CodePoint) :: more ∧
        (p = .shortString q ∧ more ∈ Quoted.shortRest q ∨
          p = .longString q ∧ ∃ more', more = (q.char : CodePoint) :: q.char :: more' ∧
            more' ∈ Quoted.longRest q) := by
  cases p with
  | shortString q =>
    rw [strings, Quoted.mem_short]
    simp
  | longString q =>
    rw [strings, Quoted.mem_long]
    simp
  | _ => simp [strings]

/-- Behind its first mark a string is a short or a long one. -/
theorem Production.cons_mem_strings {p : Production} {q : Quote} {text : List CodePoint} :
    (q.char : CodePoint) :: text ∈ p.strings ↔
      p = .shortString q ∧ text ∈ Quoted.shortRest q ∨
        p = .longString q ∧ ∃ more, text = (q.char : CodePoint) :: q.char :: more ∧
          more ∈ Quoted.longRest q := by
  rw [mem_strings]
  constructor
  · rintro ⟨q', _, heq, h⟩
    obtain ⟨hq, rfl⟩ := List.cons_eq_cons.1 heq
    obtain rfl : q = q' := by
      revert hq
      cases q <;> cases q' <;> decide
    exact h
  · exact fun h => ⟨q, text, rfl, h⟩

/-! ## The states of strings -/

namespace Body

/-- The kind of string that the body is part of. -/
def string? : Body → Option Production
  | .short q => some (.shortString q)
  | .long q => some (.longString q)
  | _ => none

/-- What may follow in the body of a string. -/
def rest : Body → Language CodePoint
  | .short q => Quoted.shortRest q
  | .long q => Quoted.longRest q
  | _ => 0

end Body

namespace State

/-- The kind of string that the state is within. -/
def string? : State → Option Production
  | .body b | .escape b | .hex _ b => b.string?
  | .closingOnce q | .closingTwice q => some (.longString q)
  | _ => none

/-- What may follow in a state within a string. -/
def rest : State → Language CodePoint
  | .body b => b.rest
  | .escape b => Quoted.escaped * b.rest
  | .hex n b => Quoted.hexDigit ^ (n + 1) * b.rest
  | .closingOnce q => Quoted.longRestOnce q
  | .closingTwice q => Quoted.longRestTwice q
  | _ => 0

variable {iri : Strictness} {p : Production} {st : State} {q : Quote} {c : CodePoint}
  {cs text more : List CodePoint}

/-- What follows when a move is made within a string: nothing if it ends the string, or what may
follow in the state to which it leads. -/
def LeadsTo (text : List CodePoint) : Option Move → Prop
  | some (.finish _) => text = []
  | some (.take st) => text ∈ st.rest
  | _ => False

/-- **The moves of a state within a string lead to what may follow in it.** -/
theorem cons_mem_rest (hst : st.string? = some p) :
    c :: text ∈ st.rest ↔ LeadsTo text (st.next iri c) := by
  -- Each state tests the code point as the grammar of its rest does.
  cases st with
  | body b =>
    cases b with
    | short q =>
      rw [rest, Body.rest, Quoted.cons_mem_shortRest, next]
      split_ifs <;> simp [LeadsTo, rest, Body.rest, *]
    | long q =>
      rw [rest, Body.rest, Quoted.cons_mem_longRest, next]
      split_ifs <;> simp [LeadsTo, rest, Body.rest]
    | _ => cases hst
  | escape b =>
    have hnext : (State.escape b).next iri c =
        if c ∈ CharClass.stringEscape then some (.take (.body b))
        else Move.ofNumericEscape b c := by
      cases b <;> first | rfl | cases hst
    rw [rest, Quoted.cons_mem_escaped_mul, hnext, Move.ofNumericEscape]
    split_ifs <;> simp [LeadsTo, rest, *]
  | hex n b =>
    rw [rest, Quoted.cons_mem_hexDigit_pow_mul]
    cases n <;> simp only [next] <;> split_ifs <;> simp [LeadsTo, rest, *]
  | closingOnce q =>
    rw [rest, Quoted.cons_mem_longRestOnce, next]
    split_ifs <;> simp [LeadsTo, rest, Body.rest]
  | closingTwice q =>
    rw [rest, Quoted.cons_mem_longRestTwice, next]
    split_ifs <;> simp [LeadsTo, rest, Body.rest]
  | _ => cases hst

/-- A move within a string of a kind: it ends the string, or leads to a state within it. -/
inductive Stays (p : Production) : Move → Prop
  | finish : Stays p (.finish p)
  | take {st : State} (h : st.string? = some p) : Stays p (.take st)

/-- **A string that is begun goes on as one of its kind.** -/
theorem stays_of_next (iri : Strictness) (hst : st.string? = some p) (c : CodePoint) :
    Move.Only (Stays p) (st.next iri c) := by
  cases st with
  | body b | escape b =>
    cases b with
    | short q | long q =>
      cases hst
      repeat' refine Move.Only.ite (fun _ => ?_) fun _ => ?_
      all_goals first | exact .none | exact .some .finish | exact .some (.take rfl)
    | _ => cases hst
  | hex n b =>
    cases n <;> refine Move.Only.ite (fun _ => ?_) fun _ => ?_
    all_goals first | exact .none | exact .some (.take hst)
  | closingOnce q | closingTwice q =>
    cases hst
    repeat' refine Move.Only.ite (fun _ => ?_) fun _ => ?_
    all_goals first | exact .none | exact .some .finish | exact .some (.take rfl)
  | _ => cases hst

/-- Within a string nothing is complete. -/
theorem accepting_of_string (hst : st.string? = some p) : st.accepting = none := by
  cases st with
  | body b => cases b <;> first | rfl | cases hst
  | escape | hex | closingOnce | closingTwice => rfl
  | _ => cases hst

/-- A string does not end without a mark. -/
theorem nil_notMem_rest (hst : st.string? = some p) : [] ∉ st.rest := by
  cases st with
  | body b =>
    cases b with
    | short q => exact Quoted.nil_notMem_shortRest q
    | long q =>
      rw [rest, Body.rest, Quoted.longRest_eq, Language.mem_add]
      exact not_or.2 ⟨Quoted.nil_notMem_piece_mul, Quoted.nil_notMem_one_mul⟩
    | _ => cases hst
  | escape b =>
    rw [rest, Quoted.escaped, add_mul, add_mul, mul_assoc, mul_assoc]
    exact not_or.2 ⟨Quoted.nil_notMem_one_mul,
      not_or.2 ⟨Quoted.nil_notMem_one_mul, Quoted.nil_notMem_one_mul⟩⟩
  | hex n b =>
    rw [rest, pow_succ', mul_assoc]
    exact Quoted.nil_notMem_one_mul
  | closingOnce q =>
    rw [rest, Quoted.longRestOnce, Language.mem_add]
    exact not_or.2 ⟨Quoted.nil_notMem_piece_mul, Quoted.nil_notMem_one_mul⟩
  | closingTwice q =>
    rw [rest, Quoted.longRestTwice, Language.mem_add]
    exact not_or.2 ⟨Quoted.nil_notMem_piece_mul, Quoted.nil_notMem_one⟩
  | _ => cases hst

/-- **Within a string the automaton takes what may follow, and nothing else.** -/
theorem takes_within {p' : Production} (hst : st.string? = some p) :
    (st.scan iri [] (text ++ more)).Takes p' text ↔ p' = p ∧ text ∈ st.rest := by
  induction text generalizing st with
  | nil =>
    have hkeeps (c : CodePoint) : Move.Only Keeps (st.next iri c) := by
      intro m hm
      cases stays_of_next iri hst c m hm with
      | finish => exact .finish p
      | take => exact .take _
    rw [takes_nil hkeeps, accepting_of_string hst]
    simp [nil_notMem_rest hst]
  | cons c text ih =>
    rw [List.cons_append, cons_mem_rest hst]
    have hstays := stays_of_next iri hst c
    cases hnext : st.next iri c with
    | none => simp [takes_of_stuck hnext, LeadsTo]
    | some m =>
      cases hstays m hnext with
      | finish => simp [takes_of_finish hnext, LeadsTo]
      | take hst' => rw [takes_cons_of_take hnext, ih hst', LeadsTo]

/-- Behind two marks the string is empty, or a third mark opens a long one. -/
theorem takes_openedTwice (q : Quote) :
    ((State.openedTwice q).scan iri [] (text ++ more)).Takes p text ↔
      p = .shortString q ∧ text = [] ∧ more.head? ≠ some (q.char : CodePoint) ∨
      p = .longString q ∧ ∃ text', text = (q.char : CodePoint) :: text' ∧
        text' ∈ Quoted.longRest q := by
  cases text with
  | nil =>
    have hkeeps (c : CodePoint) : Move.Only Keeps ((State.openedTwice q).next iri c) :=
      .ite (fun _ => .some (.take _)) fun _ => .none
    have hstop : (∀ c ∈ more.head?, (State.openedTwice q).next iri c = none) ↔
        more.head? ≠ some (q.char : CodePoint) := by
      cases more <;> simp [next]
    rw [List.nil_append, takes_nil hkeeps, hstop]
    simp [accepting, eq_comm (a := p)]
  | cons c text =>
    by_cases hc : c = q.char
    · have hnext : (State.openedTwice q).next iri c = some (.take (.body (.long q))) := by
        rw [next, if_pos hc]
      rw [List.cons_append, takes_cons_of_take hnext, takes_within (p := .longString q) rfl]
      simp [hc, rest, Body.rest]
    · have hnext : (State.openedTwice q).next iri c = none := by rw [next, if_neg hc]
      rw [List.cons_append, takes_of_stuck hnext]
      simp [hc]

/-- Behind one mark the string goes on as a short one, unless another mark follows. -/
theorem takes_openedOnce (q : Quote) :
    ((State.openedOnce q).scan iri [] (text ++ more)).Takes p text ↔
      p = .shortString q ∧ text ∈ Quoted.shortRest q ∧
        (text = [(q.char : CodePoint)] → more.head? ≠ some (q.char : CodePoint)) ∨
      p = .longString q ∧ ∃ text', text = (q.char : CodePoint) :: q.char :: text' ∧
        text' ∈ Quoted.longRest q := by
  cases text with
  | nil =>
    have hkeeps (c : CodePoint) : Move.Only Keeps ((State.openedOnce q).next iri c) := by
      repeat' refine Move.Only.ite (fun _ => ?_) fun _ => ?_
      all_goals first | exact .none | exact .some (.take _)
    rw [takes_nil hkeeps]
    simp [accepting, Quoted.nil_notMem_shortRest]
  | cons c text =>
    by_cases hc : c = q.char
    · have hnext : (State.openedOnce q).next iri c = some (.take (.openedTwice q)) := by
        rw [next, if_pos hc]
      rw [List.cons_append, takes_cons_of_take hnext, takes_openedTwice, Quoted.cons_mem_shortRest]
      simp only [hc, if_true, List.cons.injEq, true_and]
      tauto
    · have hsame : (State.openedOnce q).next iri c = (State.body (.short q)).next iri c := by
        simp only [next, if_neg hc]
      rw [List.cons_append, takes_congr hsame Iff.rfl, ← List.cons_append,
        takes_within (p := .shortString q) rfl]
      simp [hc, rest, Body.rest]

/-- **The automaton takes the strings of the grammar**, the empty one only where no third mark
follows. -/
theorem takes_string :
    ((State.start .string).scan iri [] (text ++ more)).Takes p text ↔
      text ∈ p.strings ∧ ∀ q : Quote, text = codes [q.char, q.char] →
        more.head? ≠ some (q.char : CodePoint) := by
  cases text with
  | nil =>
    have hkeeps (c : CodePoint) : Move.Only Keeps ((State.start .string).next iri c) := by
      repeat' refine Move.Only.ite (fun _ => ?_) fun _ => ?_
      all_goals first | exact .none | exact .some (.take _)
    rw [List.nil_append, takes_nil hkeeps, Production.mem_strings]
    simp [accepting]
  | cons c text =>
    by_cases hc : ∃ q : Quote, c = q.char
    · obtain ⟨q, rfl⟩ := hc
      have hnext : (State.start .string).next iri q.char = some (.take (.openedOnce q)) := by
        cases q <;> rfl
      -- Only the mark that is there can stand twice, and then nothing of a long string follows.
      have hmarks : (∀ q' : Quote, (q.char : CodePoint) :: text = codes [q'.char, q'.char] →
          more.head? ≠ some (q'.char : CodePoint)) ↔
          (text = [(q.char : CodePoint)] → more.head? ≠ some (q.char : CodePoint)) := by
        constructor
        · intro h htext
          exact h q (by rw [htext]; rfl)
        · intro h q' hq'
          obtain ⟨hq, htext⟩ := List.cons_eq_cons.1 hq'
          exact hq ▸ h (hq ▸ htext)
      have hlong : (∃ text', text = (q.char : CodePoint) :: q.char :: text' ∧
          text' ∈ Quoted.longRest q) → text ≠ [(q.char : CodePoint)] := by
        rintro ⟨_, rfl, -⟩
        simp
      rw [List.cons_append, takes_cons_of_take hnext, takes_openedOnce, hmarks,
        Production.cons_mem_strings, or_and_right, and_assoc]
      exact or_congr Iff.rfl (and_iff_left_of_imp fun h htext => absurd htext (hlong h.2)).symm
    · have hnext : (State.start .string).next iri c = none := by
        have hdouble : c ≠ '"' := fun h => hc ⟨.double, h⟩
        have hsingle : c ≠ '\'' := fun h => hc ⟨.single, h⟩
        simp only [next, if_neg hdouble, if_neg hsingle]
      rw [List.cons_append, takes_of_stuck hnext, Production.mem_strings]
      constructor
      · rintro ⟨-, h⟩
        cases h
      · rintro ⟨⟨q, more', heq, -⟩, -⟩
        exact absurd ⟨q, (List.cons_eq_cons.1 heq).1⟩ hc

end State

namespace Scanner

/-- **The strings that are recognized are those of the grammar.** Where nothing fails to decode, a
string of any kind in front of any rest is taken, unless it is empty, between single marks, and a
third mark follows; and nothing else is. There is one such string at most, and all that follows it
is left. -/
theorem strings_recognized {s : Scanner} {cs : List CodePoint} (h : s.Awaits cs) :
    (∀ (p : Production) (text rest : List CodePoint), cs = text ++ rest →
      (s.Takes .string p text ↔ text ∈ p.strings ∧ ∀ q : Quote, text = codes [q.char, q.char] →
        rest.head? ≠ some (q.char : CodePoint))) ∧
      ∀ l s', recognize .string s = .ok l s' →
        ∃ text rest, cs = text ++ rest ∧ s'.Awaits rest ∧ s.Takes .string l.production text ∧
          ∀ p' text' rest', cs = text' ++ rest' → s.Takes .string p' text' →
            p' = l.production ∧ text' = text := by
  have hstring : Recognizer.string ≠ .blank := by decide
  constructor
  · rintro p text rest rfl
    rw [takes_iff h hstring rfl, State.takes_string]
  · intro l s' hl
    obtain ⟨text, rest, hcs, hrest, htakes⟩ := exists_takes h hstring hl
    refine ⟨text, rest, hcs, hrest, htakes, fun p' text' rest' hcs' htakes' => ?_⟩
    exact htakes'.unique h hstring hcs' hcs htakes

/-- A long string with a mark before an escape, and another mark behind it. -/
theorem strings_recognized_long :
    ∃ s : Scanner, s.Awaits (codes "''''\\u00E9''''".toList) ∧
      s.Takes .string (.longString .single) (codes "''''\\u00E9'''".toList) := by
  obtain ⟨s, -, h, -⟩ := awaits_ofSource (.memory _) {}
  refine ⟨s, h, ((strings_recognized h).1 _ _ (codes ['\'']) rfl).2 ⟨?_, fun q hq => ?_⟩⟩
  · refine Quoted.mem_long.2 ⟨codes "'\\u00E9'''".toList, rfl, ?_⟩
    simp [Quote.char, Quoted.cons_mem_longRest, Quoted.cons_mem_longRestOnce,
      Quoted.cons_mem_longRestTwice, Quoted.cons_mem_escaped_mul, Quoted.cons_mem_hexDigit_mul,
      Quoted.cons_mem_hexDigit_pow_mul, CharClass.stringEscape, CharClass.hexDigit,
      CharClass.mem_iff]
  · have hlength := congrArg List.length hq
    simp at hlength

end Scanner

end RdfTurtle
