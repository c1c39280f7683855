import RdfTurtle.Proofs.Recognition.Munch
import RdfTurtle.Proofs.Recognition.Points
import RdfTurtle.Proofs.Recognition.Strings

/-! # Numbers are the longest of the grammar

The three kinds of number as languages of code points, written as the grammar writes them. They
share their beginnings, and what is taken is of the kind whose word is the longest in front.

* **`Numeral.integer`**, **`Numeral.decimal`**, **`Numeral.double`** — the grammar, and
  **`Production.numbers`** its language for each kind of token.
* **`State.mem_words_number`** — the automaton has the same words.
* **`Scanner.numbers_recognized`** — a number that is recognized is of its kind, and the longest. -/

namespace RdfTurtle

open Computability
open Quoted (one mark)
open Syntax (Sign Run Word Mantissa Number)

/-! ## The grammar -/

namespace Numeral

/-- `[0-9]` -/
def digit : Language CodePoint := one fun c => 0x30 ≤ c.value ∧ c.value ≤ 0x39

/-- `[0-9]+` -/
def digits : Language CodePoint := digit * digit∗

/-- `[+-]?` -/
def sign : Language CodePoint := 1 + mark '+' + mark '-'

/-- `EXPONENT` -/
def exponent : Language CodePoint := (mark 'e' + mark 'E') * sign * digits

/-- `INTEGER` -/
def integer : Language CodePoint := sign * digits

/-- `DECIMAL` -/
def decimal : Language CodePoint := sign * digit∗ * mark '.' * digits

/-- `DOUBLE` -/
def double : Language CodePoint :=
  sign * (digits * mark '.' * digit∗ * exponent + mark '.' * digits * exponent +
    digits * exponent)

/-- The numbers of all three kinds. -/
def any : Language CodePoint := integer + decimal + double

/-! ### The words of the grammar have trees -/

/-- What stands between the sign of a number and its exponent. -/
def mantissa : Language CodePoint :=
  digits * (mark '.' * digit∗) + mark '.' * digits + digits

/-- A double is a sign, digits and an exponent. -/
theorem double_eq : double = sign * (mantissa * exponent) := by
  simp only [double, mantissa, add_mul, mul_assoc]

variable {text : List CodePoint}

/-- The signs are those of the trees. -/
theorem mem_sign : text ∈ sign ↔ ∃ s : Sign, text = codes s.text := by
  simp only [sign, Language.mem_add, Language.mem_one]
  constructor
  · rintro ((rfl | ⟨_, rfl, rfl⟩) | ⟨_, rfl, rfl⟩)
    · exact ⟨.none, rfl⟩
    · exact ⟨.plus, rfl⟩
    · exact ⟨.minus, rfl⟩
  · rintro ⟨_ | _ | _, rfl⟩
    · exact Or.inl (Or.inr ⟨_, rfl, rfl⟩)
    · exact Or.inr ⟨_, rfl, rfl⟩
    · exact Or.inl (Or.inl rfl)

/-- Any digits are a run of digits. -/
theorem mem_kstar_digit : text ∈ digit∗ ↔ ∃ r : Run CharClass.digit, text = codes r.chars := by
  simp only [digit, Quoted.mem_kstar_one, ← CharClass.mem_digit]
  constructor
  · intro h
    induction text with
    | nil => exact ⟨⟨[], by simp⟩, rfl⟩
    | cons c text ih =>
      obtain ⟨hc, hmore⟩ := List.forall_mem_cons.1 h
      obtain ⟨x, rfl⟩ := State.exists_digit hc
      obtain ⟨r, rfl⟩ := ih hmore
      exact ⟨⟨x :: r.chars, List.forall_mem_cons.2 ⟨hc, r.all⟩⟩, rfl⟩
  · rintro ⟨r, rfl⟩ c hc
    obtain ⟨x, hx, rfl⟩ := List.mem_map.1 hc
    exact r.all x hx

/-- Digits, at least one, are a word of digits. -/
theorem mem_digits : text ∈ digits ↔ ∃ w : Word CharClass.digit, text = codes w.chars := by
  cases text with
  | nil =>
    refine iff_of_false Quoted.nil_notMem_one_mul ?_
    rintro ⟨w, hw⟩
    exact w.nonempty (List.map_eq_nil_iff.1 hw.symm)
  | cons c text =>
    rw [digits, digit, Quoted.cons_mem_one_mul, ← digit, mem_kstar_digit, ← CharClass.mem_digit]
    constructor
    · rintro ⟨hc, r, rfl⟩
      obtain ⟨x, rfl⟩ := State.exists_digit hc
      exact ⟨State.wordOfDigits x hc r, rfl⟩
    · rintro ⟨⟨⟨chars, hall⟩, hne⟩, heq⟩
      cases chars with
      | nil => exact absurd rfl hne
      | cons x chars =>
        obtain ⟨rfl, rfl⟩ := List.cons_eq_cons.1 heq
        obtain ⟨hx, hchars⟩ := List.forall_mem_cons.1 hall
        exact ⟨hx, ⟨chars, hchars⟩, rfl⟩

/-- An exponent is its mark, a sign and digits. -/
theorem mem_exponent : text ∈ exponent ↔ ∃ (mark : Char) (s : Sign) (w : Word CharClass.digit),
    (mark : CodePoint) ∈ CharClass.exponentMark ∧ text = codes (mark :: (s.text ++ w.chars)) := by
  have hmark (x : Char) : (x : CodePoint) ∈ CharClass.exponentMark ↔ x = 'e' ∨ x = 'E' := by
    simp [CharClass.exponentMark, CharClass.mem_iff, ← CodePoint.ofChar_inj, CodePoint.ext_iff]
    omega
  rw [exponent, mul_assoc, Language.mem_mul]
  constructor
  · rintro ⟨_, hletter, _, hmore, rfl⟩
    obtain ⟨_, hsign, _, hdigits, rfl⟩ := Language.mem_mul.1 hmore
    obtain ⟨s, rfl⟩ := mem_sign.1 hsign
    obtain ⟨w, rfl⟩ := mem_digits.1 hdigits
    rcases hletter with ⟨_, rfl, rfl⟩ | ⟨_, rfl, rfl⟩
    · exact ⟨'e', s, w, (hmark _).2 (Or.inl rfl), by simp⟩
    · exact ⟨'E', s, w, (hmark _).2 (Or.inr rfl), by simp⟩
  · rintro ⟨x, s, w, hx, rfl⟩
    have hsigned := Language.append_mem_mul (mem_sign.2 ⟨s, rfl⟩) (mem_digits.2 ⟨w, rfl⟩)
    rw [← codes_append] at hsigned
    refine ⟨[(x : CodePoint)], ?_, _, hsigned, rfl⟩
    rcases (hmark x).1 hx with rfl | rfl
    · exact Or.inl ⟨_, rfl, rfl⟩
    · exact Or.inr ⟨_, rfl, rfl⟩

/-- The digits before an exponent are those of a tree. -/
theorem mem_mantissa : text ∈ mantissa ↔ ∃ m : Mantissa, text = codes m.text := by
  simp only [mantissa, Language.mem_add]
  constructor
  · rintro ((h | h) | h)
    · obtain ⟨_, hbefore, _, hmore, rfl⟩ := Language.mem_mul.1 h
      obtain ⟨_, rfl, hafter⟩ := Quoted.mem_mark_mul.1 hmore
      obtain ⟨before, rfl⟩ := mem_digits.1 hbefore
      obtain ⟨after, rfl⟩ := mem_kstar_digit.1 hafter
      exact ⟨.pointed before after, by simp [Mantissa.text]⟩
    · obtain ⟨_, rfl, hafter⟩ := Quoted.mem_mark_mul.1 h
      obtain ⟨after, rfl⟩ := mem_digits.1 hafter
      exact ⟨.leading after, rfl⟩
    · obtain ⟨digits, rfl⟩ := mem_digits.1 h
      exact ⟨.bare digits, rfl⟩
  · rintro ⟨digits | ⟨before, after⟩ | after, rfl⟩
    · exact Or.inr (mem_digits.2 ⟨digits, rfl⟩)
    · have hafter := Quoted.cons_mem_mark_mul (x := '.').2 (mem_kstar_digit.2 ⟨after, rfl⟩)
      have hpointed := Language.append_mem_mul (mem_digits.2 ⟨before, rfl⟩) hafter
      exact Or.inl (Or.inl (by simpa [Mantissa.text] using hpointed))
    · exact Or.inl (Or.inr (Quoted.cons_mem_mark_mul.2 (mem_digits.2 ⟨after, rfl⟩)))

end Numeral

/-- The numbers of a kind. -/
def Production.numbers : Production → Language CodePoint
  | .integer => Numeral.integer
  | .decimal => Numeral.decimal
  | .double => Numeral.double
  | _ => 0

/-- The spelling of a number is a word of the grammar of its kind. -/
theorem codes_mem_numbers (n : Number) : codes n.text ∈ n.production.numbers := by
  cases n with
  | integer sign digits =>
    rw [Number.text, codes_append]
    exact Language.append_mem_mul (Numeral.mem_sign.2 ⟨_, rfl⟩) (Numeral.mem_digits.2 ⟨_, rfl⟩)
  | decimal sign before after =>
    rw [Number.text, codes_append, codes_append, codes_cons]
    rw [Number.production, Production.numbers, Numeral.decimal, mul_assoc, mul_assoc]
    have hafter := Quoted.cons_mem_mark_mul (x := '.').2 (Numeral.mem_digits.2 ⟨after, rfl⟩)
    have hmore := Language.append_mem_mul (Numeral.mem_kstar_digit.2 ⟨before, rfl⟩) hafter
    exact Language.append_mem_mul (Numeral.mem_sign.2 ⟨_, rfl⟩) hmore
  | double sign mantissa mark hmark exponentSign exponent =>
    rw [Number.text, codes_append, codes_append, Number.production, Production.numbers,
      Numeral.double_eq]
    have hexponent := Numeral.mem_exponent.2 ⟨mark, exponentSign, exponent, hmark, rfl⟩
    have hmore := Language.append_mem_mul (Numeral.mem_mantissa.2 ⟨mantissa, rfl⟩) hexponent
    exact Language.append_mem_mul (Numeral.mem_sign.2 ⟨_, rfl⟩) hmore

/-- **The words of the grammar are the spellings of numbers**, each of its kind. -/
theorem Production.mem_numbers {p : Production} {text : List CodePoint} :
    text ∈ p.numbers ↔ ∃ n : Number, n.production = p ∧ text = codes n.text := by
  constructor
  · intro h
    -- A word falls apart as its terminal does: the sign, the digits around the point, the exponent.
    cases p with
    | integer =>
      obtain ⟨_, hsign, _, hdigits, rfl⟩ := Language.mem_mul.1 h
      obtain ⟨sign, rfl⟩ := Numeral.mem_sign.1 hsign
      obtain ⟨digits, rfl⟩ := Numeral.mem_digits.1 hdigits
      exact ⟨.integer sign digits, rfl, by simp [Number.text]⟩
    | decimal =>
      rw [numbers, Numeral.decimal, mul_assoc, mul_assoc] at h
      obtain ⟨_, hsign, _, hmore, rfl⟩ := Language.mem_mul.1 h
      obtain ⟨_, hbefore, _, hpoint, rfl⟩ := Language.mem_mul.1 hmore
      obtain ⟨_, rfl, hafter⟩ := Quoted.mem_mark_mul.1 hpoint
      obtain ⟨sign, rfl⟩ := Numeral.mem_sign.1 hsign
      obtain ⟨before, rfl⟩ := Numeral.mem_kstar_digit.1 hbefore
      obtain ⟨after, rfl⟩ := Numeral.mem_digits.1 hafter
      exact ⟨.decimal sign before after, rfl, by simp [Number.text]⟩
    | double =>
      rw [numbers, Numeral.double_eq] at h
      obtain ⟨_, hsign, _, hmore, rfl⟩ := Language.mem_mul.1 h
      obtain ⟨_, hmantissa, _, hexponent, rfl⟩ := Language.mem_mul.1 hmore
      obtain ⟨sign, rfl⟩ := Numeral.mem_sign.1 hsign
      obtain ⟨mantissa, rfl⟩ := Numeral.mem_mantissa.1 hmantissa
      obtain ⟨mark, exponentSign, exponent, hmark, rfl⟩ := Numeral.mem_exponent.1 hexponent
      exact ⟨.double sign mantissa mark hmark exponentSign exponent, rfl, by simp [Number.text]⟩
    | _ => exact absurd h (Language.notMem_zero _)
  · rintro ⟨n, rfl, rfl⟩
    exact codes_mem_numbers n

/-- A number is of one of three kinds. -/
theorem Production.mem_of_number {p : Production} (h : p.family = .number) :
    p ∈ [Production.integer, .decimal, .double] := by
  cases p <;> first | decide | cases h

/-- The three kinds of numbers are one family. -/
theorem Production.family_of_mem {p : Production}
    (h : p ∈ [Production.integer, .decimal, .double]) : p.family = .number := by
  simp only [List.mem_cons, List.not_mem_nil, or_false] at h
  rcases h with rfl | rfl | rfl <;> rfl

/-- The numbers of all kinds are those of each. -/
theorem Numeral.mem_any {text : List CodePoint} :
    text ∈ Numeral.any ↔ ∃ p ∈ [Production.integer, .decimal, .double], text ∈ p.numbers := by
  simp only [List.mem_cons, List.not_mem_nil, or_false, exists_eq_or_imp, exists_eq_left, any,
    Language.mem_add, Production.numbers, or_assoc]

/-! ## The automaton -/

namespace State

variable {iri : Strictness} {p : Production} {r : Recognizer} {text : List CodePoint}

/-- Where a number alone may stand nothing else begins. -/
theorem family_of_start_number (h : text ∈ (start .number).words iri p) : p.family = .number := by
  refine family_of_only h rfl fun c => ?_
  repeat' refine Move.Only.ite (fun _ => ?_) fun _ => ?_
  all_goals first | exact .none | exact .some rfl

/-- **The numbers that the automaton reads are those of the grammar**, by themselves and in the
place of an object. -/
theorem mem_words_number (hr : r = .number ∨ r = .object) (hp : p.family = .number) :
    text ∈ (start r).words iri p ↔ text ∈ p.numbers := by
  -- Both recognizers share the three kinds, so that it is enough to look at objects.
  have hshares : Recognizer.object.Shares p .number := by
    cases p <;> first | constructor | cases hp
  have hobject : text ∈ (start .object).words iri p ↔ text ∈ p.numbers := by
    rw [Production.mem_numbers]
    refine ⟨fun h => number_of_path h hp, ?_⟩
    rintro ⟨n, rfl, rfl⟩
    have haccepts : Accepts iri n.production [] (start .object) [] n.text :=
      n.accepts (by simp [Separated])
    rw [Accepts, List.append_nil, codes_nil] at haccepts
    rw [mem_words_iff_takes (by decide), haccepts]
    exact ⟨rfl, rfl⟩
  rcases hr with rfl | rfl
  · rw [← hobject, mem_words_iff_takes (by decide), mem_words_iff_takes (by decide),
      takes_shared hshares]
  · exact hobject

end State

namespace Scanner

/-- **Numbers are recognized by their kind and to their end.** Where nothing fails to decode, a
number that is accepted, by itself or as an object, is a word of its kind in front of what is to
come, none of the words of any kind there is longer, and all that follows it is left. Where no word
of any kind stands in front, no number is accepted. -/
theorem numbers_recognized {s : Scanner} {cs : List CodePoint} (h : s.Awaits cs) :
    (∀ r l s', r = .number ∨ r = .object → recognize r s = .ok l s' →
      l.production ∈ [Production.integer, .decimal, .double] →
        ∃ text rest, cs = text ++ rest ∧ s'.Awaits rest ∧ s.Takes r l.production text ∧
          text ∈ l.production.numbers ∧ LongestIn Numeral.any text cs) ∧
      ((∀ word ∈ Numeral.any, ¬ word <+: cs) → ∃ e s', recognize .number s = .error e s') := by
  constructor
  · intro r l s' hr hl hp
    have hblank : r ≠ .blank := by rcases hr with rfl | rfl <;> decide
    obtain ⟨text, rest, hcs, hrest, htakes, hword, hlongest⟩ := exists_longest h hblank hl
    have hnumber := (State.mem_words_number hr (Production.family_of_mem hp)).1 hword
    refine ⟨text, rest, hcs, hrest, htakes, hnumber, ?_⟩
    refine hlongest _ (Numeral.mem_any.2 ⟨_, hp, hnumber⟩) fun word hword => ?_
    obtain ⟨q, hq, hword⟩ := Numeral.mem_any.1 hword
    exact ⟨q, (State.mem_words_number hr (Production.family_of_mem hq)).2 hword⟩
  -- A number that was accepted would be a word in front.
  · intro hnone
    cases hresult : recognize .number s with
    | error e s' => exact ⟨e, s', rfl⟩
    | ok l s' =>
      exfalso
      obtain ⟨text, rest, hcs, -, -, hword, -⟩ := exists_longest h (by decide) hresult
      have hfamily := State.family_of_start_number hword
      refine hnone text (Numeral.mem_any.2 ⟨_, Production.mem_of_number hfamily, ?_⟩) ?_
      · exact (State.mem_words_number (Or.inl rfl) hfamily).1 hword
      · exact ⟨rest, hcs.symm⟩

/-- A double before a dot, and a dot by itself, which is no number. -/
theorem numbers_recognized_double :
    (∃ s : Scanner, s.Awaits (codes "-1.5e3.".toList) ∧
      s.Takes .object .double (codes "-1.5e3".toList) ∧
      LongestIn Numeral.any (codes "-1.5e3".toList) (codes "-1.5e3.".toList)) ∧
    ∃ s : Scanner, s.Awaits (codes ['.']) ∧ ∃ e s', recognize .number s = .error e s' := by
  constructor
  · have hsplit : codes "-1.5e3.".toList = codes "-1.5e3".toList ++ codes ['.'] := rfl
    obtain ⟨s, h, -, htakes⟩ := @exists_takes_of_scan .object .double _ _ _ .permissive
      (by decide) hsplit ⟨by decide_cbv, by decide_cbv⟩
    refine ⟨s, h, ?_⟩
    obtain ⟨s', hs', -⟩ := id htakes
    obtain ⟨text, rest, hcs, -, htext, -, hlongest⟩ :=
      (numbers_recognized h).1 .object _ s' (Or.inr rfl) hs' (by simp)
    obtain ⟨-, rfl⟩ := htakes.unique h (by decide) hsplit hcs htext
    exact ⟨htakes, hlongest⟩
  · obtain ⟨s, -, h, -⟩ := awaits_ofSource (.memory _) {}
    refine ⟨s, h, (numbers_recognized h).2 fun word hword hfront => ?_⟩
    obtain ⟨p, -, hp⟩ := Numeral.mem_any.1 hword
    obtain ⟨n, -, rfl⟩ := Production.mem_numbers.1 hp
    obtain ⟨front, x, htext, hx⟩ := exists_last_digit n
    have hmem : (x : CodePoint) ∈ codes ['.'] := hfront.subset (by simp [htext])
    rw [List.mem_singleton.1 hmem] at hx
    revert hx
    decide_cbv

end Scanner

end RdfTurtle
