import RdfTurtle.Proofs.Recognition.Composites

/-! # Objects before a dot

A dot behind an integer or a boolean ends the statement unless the token goes on behind it. The
automaton takes the dot along as soon as one more code point fits, whether or not a longer token
comes of it.

* **`Longest`** — no longer token begins with the integer or the boolean.
* **`Scanner.object_before_dot`** — when an integer or a boolean is taken and the dot left. -/

namespace RdfTurtle

open Syntax

/-- Neither a number with a point or an exponent nor the namespace of a prefixed name begins with
`text` and goes on in `rest`. -/
def Longest (text rest : List CodePoint) : Prop :=
  ∀ longer, longer <+: text ++ rest → text.length < longer.length →
    (∀ n : Number, n.production ≠ .integer → longer ≠ codes n.text) ∧
      ∀ n : Namespace, longer ≠ codes n.text

/-- The code points are those of an integer. -/
def IsInteger (text : List CodePoint) : Prop :=
  ∃ (sign : Sign) (digits : Word CharClass.digit), text = codes (Number.integer sign digits).text

/-- Behind the dot no digit follows, as it would make a decimal. -/
theorem Longest.notMem_digit {integer rest : List CodePoint} {c : CodePoint}
    (hinteger : IsInteger integer) (h : Longest integer (CodePoint.ofChar '.' :: c :: rest)) :
    c ∉ CharClass.digit := by
  intro hdigit
  obtain ⟨sign, digits, rfl⟩ := hinteger
  obtain ⟨x, rfl⟩ := State.exists_digit hdigit
  have hword : ∀ y ∈ [x], (y : CodePoint) ∈ CharClass.digit := by simpa using hdigit
  let n : Number := .decimal sign digits.toRun ⟨⟨[x], hword⟩, by simp⟩
  have hn : codes n.text = codes (Number.integer sign digits).text ++ codes ['.', x] := by
    simp [n, Number.text]
  refine (h (codes n.text) ?_ ?_).1 n (by simp [n, Number.production]) rfl
  · exact ⟨rest, by rw [hn, List.append_assoc]; rfl⟩
  · rw [hn]
    simp

/-- The last character of a number is a digit. -/
theorem exists_last_digit (n : Number) :
    ∃ (front : List Char) (x : Char),
      n.text = front ++ [x] ∧ (x : CodePoint) ∈ CharClass.digit := by
  have hword (w : Word CharClass.digit) : ∃ (front : List Char) (x : Char),
      w.chars = front ++ [x] ∧ (x : CodePoint) ∈ CharClass.digit := by
    obtain hnil | ⟨front, x, hchars⟩ := w.chars.eq_nil_or_concat'
    · exact absurd hnil w.nonempty
    · exact ⟨front, x, hchars, w.all x (by simp [hchars])⟩
  cases n with
  | integer sign digits =>
    obtain ⟨front, x, hchars, hx⟩ := hword digits
    exact ⟨sign.text ++ front, x, by simp [Number.text, hchars], hx⟩
  | decimal sign before after =>
    obtain ⟨front, x, hchars, hx⟩ := hword after
    exact ⟨sign.text ++ (before.chars ++ '.' :: front), x, by simp [Number.text, hchars], hx⟩
  | double sign mantissa mark hmark exponentSign exponent =>
    obtain ⟨front, x, hchars, hx⟩ := hword exponent
    exact ⟨sign.text ++ (mantissa.text ++ mark :: (exponentSign.text ++ front)), x,
      by simp [Number.text, hchars], hx⟩

/-- A digit by itself is an integer. -/
theorem isInteger_digit {x : Char} (hx : (x : CodePoint) ∈ CharClass.digit) :
    IsInteger (codes [x]) :=
  ⟨.none, State.wordOfDigits x hx ⟨[], by simp⟩, rfl⟩

/-- No namespace begins like an integer. -/
theorem IsInteger.ne_namespace {integer more : List CodePoint} (h : IsInteger integer)
    (n : Namespace) : integer ++ more ≠ codes n.text := by
  -- An integer begins with a sign or a digit, a namespace with neither.
  have hfirst : ∃ x chars, integer = codes (x :: chars) ∧
      (x = '+' ∨ x = '-' ∨ (x : CodePoint) ∈ CharClass.digit) := by
    obtain ⟨sign, ⟨⟨chars, hall⟩, hne⟩, rfl⟩ := h
    cases sign with
    | plus => exact ⟨_, _, rfl, Or.inl rfl⟩
    | minus => exact ⟨_, _, rfl, Or.inr (Or.inl rfl)⟩
    | none =>
      cases chars with
      | nil => exact absurd rfl hne
      | cons x chars => exact ⟨x, chars, rfl, Or.inr (Or.inr (hall x List.mem_cons_self))⟩
  obtain ⟨x, chars, rfl, hx⟩ := hfirst
  obtain ⟨name, hname⟩ := n
  intro heq
  cases name with
  | nil =>
    obtain ⟨rfl, -⟩ : x = ':' ∧ _ := by simpa [Namespace.text] using heq
    revert hx
    decide +kernel
  | cons y name =>
    obtain ⟨rfl, -⟩ : x = y ∧ _ := by simpa [Namespace.text] using heq
    have hstart := (hname (by simp)).1
    rcases hx with rfl | rfl | hx
    · revert hstart
      decide +kernel
    · revert hstart
      decide +kernel
    · have hrange := range_of_nameStart hstart
      rw [CharClass.mem_digit] at hx
      omega

/-- No longer token begins with an integer if no digit follows anywhere. -/
theorem longest_of_notMem_digit {integer rest : List CodePoint} (hinteger : IsInteger integer)
    (h : ∀ c ∈ rest, c ∉ CharClass.digit) : Longest integer rest := by
  intro longer hfront hlength
  obtain ⟨more, rfl⟩ : ∃ more, longer = integer ++ more := by
    obtain ⟨more, hmore⟩ := List.prefix_of_prefix_length_le (List.prefix_append _ rest) hfront
      (Nat.le_of_lt hlength)
    exact ⟨more, hmore.symm⟩
  have hmore : more <+: rest := (List.prefix_append_right_inj _).1 hfront
  constructor
  · -- The number would end with a digit, which would be the last of what follows.
    intro n _ hn
    obtain ⟨front, x, htext, hx⟩ := exists_last_digit n
    have hne : more ≠ [] := by simpa [List.length_pos_iff] using hlength
    have hlast := congrArg List.getLast? hn
    rw [htext, List.getLast?_append_of_ne_nil _ hne] at hlast
    have hmem : CodePoint.ofChar x ∈ more := by
      refine List.mem_of_getLast? ?_
      rw [hlast]
      simp
    exact h _ (hmore.subset hmem) hx
  · exact hinteger.ne_namespace

namespace State

variable {iri : Strictness} {p : Production} {st : State} {c : CodePoint}
  {cs run text : List CodePoint}

/-- Code points that are taken without leaving a state come first in the token. -/
theorem scan_run (hrun : ∀ c ∈ run, st.next iri c = some (.take st)) :
    st.scan iri [] (run ++ cs) = (st.scan iri [] cs).after run := by
  induction run with
  | nil => rfl
  | cons c run ih =>
    rw [List.cons_append, scan_of_take (hrun c List.mem_cons_self),
      ih fun d hd => hrun d (List.mem_cons_of_mem c hd), Scan.after_after]
    rfl

/-- The digits of an integer, from the states before the first of them. -/
theorem scan_digits (digits : Word CharClass.digit) (hst : NumberStart st) :
    st.scan iri [] (codes digits.chars ++ cs) =
      (State.integer.scan iri [] cs).after (codes digits.chars) := by
  obtain ⟨⟨chars, hall⟩, hne⟩ := digits
  cases chars with
  | nil => exact absurd rfl hne
  | cons x chars =>
    have hfirst := @next_of_digit iri _ (Or.inl hst) x (hall x List.mem_cons_self)
    have hrun : ∀ c ∈ codes chars, State.integer.next iri c = some (.take .integer) := by
      intro c hc
      obtain ⟨y, hy, rfl⟩ := List.mem_map.1 hc
      exact next_of_digit (Or.inr rfl) y (hall y (List.mem_cons_of_mem x hy))
    rw [codes_cons, List.cons_append, scan_of_take hfirst, scan_run hrun, Scan.after_after]
    rfl

/-- **An object that begins with an integer goes on behind its digits.** -/
theorem scan_integer {integer : List CodePoint} (h : IsInteger integer) :
    (State.start .object).scan iri [] (integer ++ cs) =
      (State.integer.scan iri [] cs).after integer := by
  obtain ⟨sign, digits, rfl⟩ := h
  have hsigned {x : Char} (hx : x = '+' ∨ x = '-') :
      (State.start .object).scan iri [] (codes (x :: digits.chars) ++ cs) =
        (State.integer.scan iri [] cs).after (codes (x :: digits.chars)) := by
    have hnext : (State.start .object).next iri x = some (.take .sign) := by
      rcases hx with rfl | rfl <;> simp [next, CharClass.sign, CharClass.mem_iff]
    rw [codes_cons, List.cons_append, scan_of_take hnext, scan_digits digits (Or.inr rfl),
      Scan.after_after]
    rfl
  cases sign with
  | plus => exact hsigned (Or.inl rfl)
  | minus => exact hsigned (Or.inr rfl)
  | none => exact scan_digits digits (Or.inl rfl)

/-- Behind a dot an integer is complete, unless a digit or the letter of an exponent follows. -/
theorem scan_integerDot (h : ∀ c ∈ cs.head?, c ∉ CharClass.digit ∧ c ∉ CharClass.exponentMark) :
    (State.integer.scan iri [] (CodePoint.ofChar '.' :: cs)).Takes p text ↔
      p = .integer ∧ text = [] := by
  have hnext : ∀ c ∈ cs.head?, State.integerDot.next iri c = none := by
    intro c hc
    simp only [next, if_neg (h c hc).1, if_neg (h c hc).2]
  rw [takes_of_defer next_of_point, takes_of_none hnext]
  simp [accepting, eq_comm (a := p)]

/-- Behind a dot the letter of an exponent is taken, and with it the dot. -/
theorem exponent_of_takes (hc : c ∈ CharClass.exponentMark)
    (h : (State.integer.scan iri [] (CodePoint.ofChar '.' :: c :: cs)).Takes p text) :
    p = .double ∧ text ≠ [] := by
  have hnext : State.integerDot.next iri c = some (.take .exponent) := by
    obtain ⟨x, rfl⟩ := exists_char (by simp [CharClass.exponentMark]) hc
    exact next_of_exponentMark hc (Or.inr (Or.inl rfl))
  rw [takes_of_defer next_of_point, takes_of_take hnext] at h
  obtain ⟨more, rfl, hmore⟩ := h
  exact ⟨(exponent_of_path (path_of_takes hmore)).1, by simp⟩

end State

namespace Scanner

variable {s : Scanner} {p : Production} {text rest : List CodePoint}

/-- **What an object takes where an integer stands before a dot** and no longer token begins with
it. -/
theorem takes_integer_iff {integer : List CodePoint} (hinteger : IsInteger integer)
    (h : s.Awaits (integer ++ CodePoint.ofChar '.' :: rest))
    (hlongest : Longest integer (CodePoint.ofChar '.' :: rest))
    (hfront : text <+: integer ++ CodePoint.ofChar '.' :: rest) :
    s.Takes .object p text ↔
      p = .integer ∧ text = integer ∧ ∀ c ∈ rest.head?, c ∉ CharClass.exponentMark := by
  obtain ⟨cs, hcs⟩ := hfront
  rw [takes_iff h (by decide) hcs.symm]
  have hkept (hrest : ∀ c ∈ rest.head?, c ∉ CharClass.digit ∧ c ∉ CharClass.exponentMark) :
      ((State.start .object).scan s.options.iri []
          (integer ++ CodePoint.ofChar '.' :: rest)).Takes p text ↔
        p = .integer ∧ text = integer := by
    rw [State.scan_integer hinteger, Scan.takes_after]
    simp only [State.scan_integerDot hrest]
    constructor
    · rintro ⟨_, rfl, rfl, rfl⟩
      exact ⟨rfl, List.append_nil _⟩
    · rintro ⟨rfl, rfl⟩
      exact ⟨[], (List.append_nil _).symm, rfl, rfl⟩
  -- `hkept` settles all but the letter of an exponent, which the automaton takes with the dot.
  cases rest with
  | nil => simpa using hkept (by simp)
  | cons c rest =>
    have hdigit := hlongest.notMem_digit hinteger
    by_cases hmark : c ∈ CharClass.exponentMark
    · -- Whatever is taken then is a number with an exponent, which would be a longer token.
      refine iff_of_false (fun htakes => ?_) (by simp [hmark])
      have hpath := State.path_of_takes htakes
      rw [State.scan_integer hinteger, Scan.takes_after] at htakes
      obtain ⟨more, rfl, hmore⟩ := htakes
      obtain ⟨rfl, hne⟩ := State.exponent_of_takes hmark hmore
      obtain ⟨n, hn, htext⟩ := State.number_of_path hpath rfl
      have hlength : integer.length < (integer ++ more).length := by
        simpa [List.length_pos_iff] using hne
      exact (hlongest _ ⟨cs, hcs⟩ hlength).1 n (by rw [hn]; decide) htext
    · simpa [hmark] using hkept (by simp [hdigit, hmark])

/-- A namespace that an object begins with is no part of the word of a boolean, for it has a
colon. -/
theorem not_takes_namespace_of_longest {b : Bool} {cs : List CodePoint}
    (h : s.Awaits (codes (booleanText b) ++ rest))
    (hlongest : Longest (codes (booleanText b)) rest)
    (hcs : codes (booleanText b) ++ rest = text ++ cs) : ¬ s.Takes .object .namespaceName text := by
  intro htakes
  rw [takes_shared_iff h (.namespaceName (Or.inr (Or.inr (Or.inl rfl)))) hcs,
    takes_iff h (by decide) hcs] at htakes
  obtain ⟨n, htext⟩ := State.namespace_of_path (State.path_of_takes htakes)
  by_cases hlength : (codes (booleanText b)).length < text.length
  · exact (hlongest text ⟨cs, hcs.symm⟩ hlength).2 n htext
  · have hfront : text <+: codes (booleanText b) :=
      List.prefix_of_prefix_length_le ⟨cs, hcs.symm⟩ (List.prefix_append _ _) (by omega)
    have hcolon : CodePoint.ofChar ':' ∈ codes (booleanText b) := by
      refine hfront.subset ?_
      rw [htext]
      simp [Namespace.text]
    revert hcolon
    cases b <;> decide +kernel

/-- **What an object takes where a boolean stands before a dot** and no longer token begins with
it. -/
theorem takes_boolean_iff {b : Bool}
    (h : s.Awaits (codes (booleanText b) ++ CodePoint.ofChar '.' :: rest))
    (hlongest : Longest (codes (booleanText b)) (CodePoint.ofChar '.' :: rest))
    (hfront : text <+: codes (booleanText b) ++ CodePoint.ofChar '.' :: rest) :
    s.Takes .object p text ↔
      p = .boolean ∧ text = codes (booleanText b) ∧
        ∀ c ∈ (rest.dropWhile (· = CodePoint.ofChar '.')).head?, c ∉ CharClass.nameChar := by
  obtain ⟨cs, hcs⟩ := hfront
  have hnamespace := not_takes_namespace_of_longest h hlongest hcs.symm
  obtain ⟨k, hoffers, hk, hfolds, hword⟩ : ∃ k : Keyword, Recognizer.object.Offers k ∧
      k.isBoolean = true ∧ k.foldsCase = false ∧ booleanText b = k.head :: k.tail := by
    cases b
    · exact ⟨_, .falseWord, rfl, rfl, rfl⟩
    · exact ⟨_, .trueWord, rfl, rfl, rfl⟩
  have hends : k.EndsBefore (CodePoint.ofChar '.' :: rest) ↔
      ∀ c ∈ (rest.dropWhile (· = CodePoint.ofChar '.')).head?, c ∉ CharClass.nameChar := by
    simp [Keyword.EndsBefore, hk, ApartBehindDots]
  have hnext := @State.next_of_head s.options.iri _ _ _ hoffers (Or.inl rfl)
  have hproduction := State.production_of_isBoolean hk
  rw [takes_iff h (by decide) hcs.symm, ← hends, hword, codes_cons, List.cons_append]
  -- A path from behind the first letter is the keyword or a namespace, which is excluded.
  constructor
  · intro htakes
    have hne : p ≠ .namespaceName := by
      rintro rfl
      refine hnamespace ((takes_iff h (by decide) hcs.symm).2 ?_)
      rwa [hword]
    rw [State.takes_of_take hnext] at htakes
    obtain ⟨more, rfl, hmore⟩ := htakes
    obtain ⟨rfl, hreads⟩ := State.keyword_of_path (State.path_of_takes hmore) hne
    obtain rfl := State.codes_of_reads hfolds hreads
    exact ⟨hproduction, rfl, (State.takes_keyword.1 hmore).2⟩
  · rintro ⟨rfl, rfl, hrest⟩
    rw [State.takes_cons_of_take hnext, ← hproduction, State.takes_keyword]
    exact ⟨(Keyword.reads_iff_of_not_folds hfolds).2 rfl, hrest⟩

/-- **A dot behind an integer or a boolean is left to the statement** as long as it is not followed
by what may begin the rest of a longer token: behind an integer by the letter of an exponent, behind
a boolean, and any further dots, by a character of a name. Then the object is the integer or the
boolean, and nothing else; and otherwise, if no longer token is complete, there is no object. -/
theorem object_before_dot {object : List CodePoint}
    (h : s.Awaits (object ++ CodePoint.ofChar '.' :: rest))
    (hlongest : Longest object (CodePoint.ofChar '.' :: rest)) :
    (IsInteger object → ∀ p text, text <+: object ++ CodePoint.ofChar '.' :: rest →
      (s.Takes .object p text ↔ p = .integer ∧ text = object ∧
        ∀ c ∈ rest.head?, c ∉ CharClass.exponentMark)) ∧
      ∀ b : Bool, object = codes (booleanText b) →
        ∀ p text, text <+: object ++ CodePoint.ofChar '.' :: rest →
          (s.Takes .object p text ↔ p = .boolean ∧ text = object ∧
            ∀ c ∈ (rest.dropWhile (· = CodePoint.ofChar '.')).head?, c ∉ CharClass.nameChar) := by
  constructor
  · intro hinteger p text hfront
    exact takes_integer_iff hinteger h hlongest hfront
  · rintro b rfl p text hfront
    exact takes_boolean_iff h hlongest hfront

/-- A dot that a letter follows at once. -/
theorem object_before_dot_letter :
    ∃ s : Scanner, s.Awaits (codes ['1', '.', 'x']) ∧ s.Takes .object .integer (codes ['1']) := by
  have hinteger : IsInteger (codes ['1']) := isInteger_digit (by decide +kernel)
  have hlongest : Longest (codes ['1']) (codes ['.', 'x']) :=
    longest_of_notMem_digit hinteger (by decide +kernel)
  obtain ⟨s, -, h, -⟩ := @awaits_ofSource _ ['1', '.', 'x'] (.memory _) {}
  have htakes := (object_before_dot h hlongest).1 hinteger .integer _ (List.prefix_append _ _)
  exact ⟨s, h, htakes.2 ⟨rfl, rfl, by simp [CharClass.exponentMark, CharClass.mem_iff]⟩⟩

/-- The letter of an exponent that none is: the integer is lost with the dot, although neither a
longer number nor a namespace stands there. -/
theorem object_lost_before_exponent_letter :
    ∃ s s' : Scanner, ofSource (.memory "1.ex:p".toUTF8.toList) {} = .ok s ∧
      s.Awaits (codes ['1', '.', 'e', 'x', ':', 'p']) ∧
      Longest (codes ['1']) (codes ['.', 'e', 'x', ':', 'p']) ∧
      recognize .object s = .error ⟨.unexpectedCharacter 'x', ⟨1, 4⟩⟩ s' ∧
      ¬ s.Takes .object .integer (codes ['1']) := by
  have hrun : (ofSource (.memory "1.ex:p".toUTF8.toList) {}).map
      (fun s => fault? (recognize .object s)) =
        .ok (some ⟨.unexpectedCharacter 'x', ⟨1, 4⟩⟩) := by
    decide +kernel
  obtain ⟨s, hs, herror⟩ := ok_of_map hrun
  obtain ⟨t, ht, h, -⟩ := @awaits_ofSource _ "1.ex:p".toList (.memory _) {}
  rw [String.ofList_toList, hs] at ht
  obtain rfl := Except.ok.inj ht
  have hlongest : Longest (codes ['1']) (codes ['.', 'e', 'x', ':', 'p']) :=
    longest_of_notMem_digit (isInteger_digit (by decide +kernel)) (by decide +kernel)
  cases he : recognize .object s with
  | ok =>
    rw [he] at herror
    cases herror
  | error e s' =>
    rw [he] at herror
    obtain rfl := Option.some.inj herror
    refine ⟨s, s', hs, h, hlongest, he, ?_⟩
    rintro ⟨t, ht, -⟩
    rw [he] at ht
    cases ht

end Scanner

end RdfTurtle
