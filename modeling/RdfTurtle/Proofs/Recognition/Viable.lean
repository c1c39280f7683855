import RdfTurtle.Proofs.Legibility
import RdfTurtle.Proofs.Recognition.Munch

/-! # Errors at the first hopeless code point

Every state of the automaton can be completed to a token, also within an escape and with a dot
deferred. So where a token is rejected, what has been read could still have become a token, and with
the code point that is rejected it no longer can.

* **`State.Viable`** — some characters complete a token from the state, and **`State.viable`** they
  do from every state that is not among blanks. -/

namespace RdfTurtle

namespace State

variable {iri : Strictness} {p : Production} {st st' : State} {ds front rest : List CodePoint}

/-! ## Every state can be completed -/

/-- Some characters complete a token from the state. -/
def Viable (iri : Strictness) (st : State) : Prop :=
  ∃ (p : Production) (text : List Char), codes text ∈ st.words iri p

/-- Where a token is complete nothing is missing. -/
theorem viable_of_accepting (h : st.accepting = some p) : st.Viable iri := ⟨p, [], .stop h⟩

/-- A character that ends the token completes it. -/
theorem viable_of_finish (x : Char) (h : st.next iri x = some (.finish p)) : st.Viable iri :=
  ⟨p, [x], .finish h⟩

/-- A state is completed through the state that a character leads to. -/
theorem viable_of_take (x : Char) (h : st.next iri x = some (.take st')) (more : st'.Viable iri) :
    st.Viable iri := by
  obtain ⟨p, text, htext⟩ := more
  exact ⟨p, x :: text, .take h htext⟩

/-- Within a long string three marks close it; some of them may have been read. -/
theorem viable_closingTwice (q : Quote) : (State.closingTwice q).Viable iri :=
  viable_of_finish q.char (if_pos rfl)

/-- One mark before the last two. -/
theorem viable_closingOnce (q : Quote) : (State.closingOnce q).Viable iri :=
  viable_of_take q.char (if_pos rfl) (viable_closingTwice q)

/-- The body of a token is closed by what encloses it; that of a local name is complete. -/
theorem viable_body (b : Body) : (State.body b).Viable iri := by
  cases b with
  | iri =>
    refine viable_of_finish '>' ((if_neg fun h => ?_).trans (if_pos rfl))
    simp [CharClass.iriForbidden, CharClass.mem_iff] at h
  | localName => exact viable_of_accepting rfl
  | short q => exact viable_of_finish q.char (if_pos rfl)
  | long q => exact viable_of_take q.char (if_pos rfl) (viable_closingOnce q)

/-- The digits that are missing may be zeros. -/
theorem viable_hex (n : Nat) (b : Body) : (State.hex n b).Viable iri := by
  have hzero : ('0' : CodePoint) ∈ CharClass.hexDigit := by
    simp [CharClass.hexDigit, CharClass.mem_iff]
  induction n with
  | zero => exact viable_of_take '0' (if_pos hzero) (viable_body b)
  | succ n ih => exact viable_of_take '0' (if_pos hzero) ih

/-- An escape is completed by a letter, or by `u` and digits, and then its body is closed. -/
theorem viable_escape (b : Body) : (State.escape b).Viable iri := by
  have hreturn : ('n' : CodePoint) ∈ CharClass.stringEscape := by
    simp [CharClass.stringEscape, CharClass.mem_iff]
  have hlow : ('_' : CodePoint) ∈ CharClass.localEscape := by
    simp [CharClass.localEscape, CharClass.mem_iff]
  cases b with
  | iri => exact viable_of_take 'u' rfl (viable_hex 3 .iri)
  | localName => exact viable_of_take '_' (if_pos hlow) (viable_body .localName)
  | short q => exact viable_of_take 'n' (if_pos hreturn) (viable_body (.short q))
  | long q => exact viable_of_take 'n' (if_pos hreturn) (viable_body (.long q))

/-- A word that is spelled in one way is completed by its letters. -/
theorem viable_spelling (x : Char) (rest : List Char) (p : Production) :
    (State.spelling x rest p).Viable iri := by
  induction rest generalizing x with
  | nil => exact viable_of_finish x (if_pos rfl)
  | cons y rest ih => exact viable_of_take x (if_pos rfl) (ih y)

/-- So is a keyword, in lower case. -/
theorem viable_keyword (k : Keyword) (rest : List Char) : (State.keyword k rest).Viable iri := by
  induction rest with
  | nil => exact viable_of_accepting rfl
  | cons x rest ih => exact viable_of_take x (if_pos (Or.inl rfl)) ih

/-- At the mark that opens a string another mark makes it an empty one. -/
theorem viable_openedOnce (q : Quote) : (State.openedOnce q).Viable iri :=
  viable_of_take q.char (if_pos rfl) (viable_of_accepting (p := .shortString q) rfl)

/-- A zero stands for any digit that is missing. -/
theorem zero_mem_digit : ('0' : CodePoint) ∈ CharClass.digit :=
  CharClass.mem_digit.2 ⟨by decide, by decide⟩

/-- Behind a sign a digit makes an integer. -/
theorem viable_sign : State.sign.Viable iri :=
  viable_of_take '0' (if_pos zero_mem_digit) (viable_of_accepting (p := .integer) rfl)

/-- Behind the sign of an exponent a digit makes a double. -/
theorem viable_exponentSign : State.exponentSign.Viable iri :=
  viable_of_take '0' (if_pos zero_mem_digit) (viable_of_accepting (p := .double) rfl)

/-- A language has at least a letter. -/
theorem viable_tagFirst : State.tagFirst.Viable iri := by
  have hletter : ('a' : CodePoint) ∈ CharClass.letter := by
    simp [CharClass.letter, CharClass.mem_iff]
  exact viable_of_take 'a' (if_pos hletter) (viable_of_accepting (p := .languageTag) rfl)

/-- A label has at least one character. -/
theorem viable_labelFirst : State.labelFirst.Viable iri := by
  have hstart : ('a' : CodePoint) ∈ CharClass.labelStart := by
    simp [CharClass.labelStart, CharClass.mem_iff]
  exact viable_of_take 'a' (if_pos hstart) (viable_of_accepting (p := .blankNodeLabel) rfl)

/-- Behind the `_` of a label its colon is missing, and then a character. -/
theorem viable_labelColon : State.labelColon.Viable iri :=
  viable_of_take ':' rfl viable_labelFirst

/-- Behind an `@` the word of a directive is missing. -/
theorem viable_directive : State.directive.Viable iri :=
  viable_of_take 'b' rfl (viable_spelling 'a' ['s', 'e'] .atBase)

/-- A namespace is completed by its colon. -/
theorem viable_namespaceBody : State.namespaceBody.Viable iri := viable_of_finish ':' rfl

/-- **Each recognizer but that of blanks reads some token.** -/
theorem viable_start {r : Recognizer} (hr : r ≠ .blank) : (State.start r).Viable iri := by
  have hplus : ('+' : CodePoint) ∈ CharClass.sign := by
    simp [CharClass.sign, CharClass.mem_iff]
  cases r with
  | statement => exact viable_of_take '@' rfl viable_directive
  | predicate => exact viable_of_finish ';' rfl
  | object | blankNodeLabel => exact viable_of_take '_' rfl viable_labelColon
  | iriRef | datatype => exact viable_of_take '<' rfl (viable_body .iri)
  | namespaceName => exact viable_of_finish ':' rfl
  | localName => exact viable_of_accepting rfl
  | string => exact viable_of_take '"' rfl (viable_openedOnce .double)
  | number => exact viable_of_take '+' (if_pos hplus) viable_sign
  | boolean => exact viable_of_take 't' rfl (viable_spelling 'r' ['u', 'e'] .boolean)
  | languageTag | literalSuffix => exact viable_of_take '@' rfl viable_tagFirst
  | terminator => exact viable_of_finish '.' rfl
  | blank => exact absurd rfl hr

/-- **Every state that is not among blanks can be completed to a token.** -/
theorem viable (hst : st.family ≠ some .blank) : st.Viable iri := by
  have hplus : ('+' : CodePoint) ∈ CharClass.sign := by
    simp [CharClass.sign, CharClass.mem_iff]
  have hname : ('a' : CodePoint) ∈ CharClass.nameChar := by
    simp [CharClass.nameChar, CharClass.mem_iff]
  have hletter : ('a' : CodePoint) ∈ CharClass.letterOrDigit := by
    simp [CharClass.letterOrDigit, CharClass.mem_iff]
  -- Each state leads on to states whose lemmas stand above, until one accepts.
  cases st with
  | start r => exact viable_start fun h => hst (by rw [h]; rfl)
  | body b => exact viable_body b
  | escape b => exact viable_escape b
  | hex n b => exact viable_hex n b
  | spelling x rest p => exact viable_spelling x rest p
  | keyword k rest => exact viable_keyword k rest
  | directive => exact viable_directive
  | namespaceBody => exact viable_namespaceBody
  | namespaceDots => exact viable_of_take 'a' (if_pos hname) viable_namespaceBody
  | labelColon => exact viable_labelColon
  | labelFirst => exact viable_labelFirst
  | openedOnce q => exact viable_openedOnce q
  | closingOnce q => exact viable_closingOnce q
  | closingTwice q => exact viable_closingTwice q
  | sign => exact viable_sign
  | leadingDot =>
    exact viable_of_take '0' (if_pos zero_mem_digit) (viable_of_accepting (p := .decimal) rfl)
  | exponent => exact viable_of_take '+' (if_pos hplus) viable_exponentSign
  | exponentSign => exact viable_exponentSign
  | tagFirst => exact viable_tagFirst
  | subtagFirst =>
    exact viable_of_take 'a' (if_pos hletter) (viable_of_accepting (p := .languageTag) rfl)
  | caret => exact viable_of_finish '^' rfl
  | booleanDots | label | openedTwice | integer | integerDot | fraction | exponentDigits | tag
  | subtag => exact viable_of_accepting rfl
  | comment => exact absurd rfl hst

/-! ## Where a run is stuck -/

/-- What has been read when a run is stuck can be completed to a token. -/
theorem Stuck.exists_path (h : Stuck iri rest st ds front) (hst : st.family ≠ some .blank) :
    ∃ (p : Production) (text : List Char), Path iri p st ds (front ++ codes text) := by
  induction h with
  | @stop st ds hnone incomplete =>
    obtain ⟨p, text, htext⟩ : st.Viable iri := viable hst
    refine ⟨p, text, (path_iff hst).2 (Or.inr ⟨codes text, fun hnil => ?_, rfl, htext⟩)⟩
    rw [hnil] at htext
    exact nil_notMem_words hst incomplete htext
  | @take st st' ds cs c hnext _ ih =>
    obtain ⟨p, text, hpath⟩ := ih (not_blank_of_next hst c _ hnext)
    exact ⟨p, text, by rw [List.append_assoc]; exact .take hnext hpath⟩
  | @defer st st' ds cs c hnext _ ih =>
    obtain ⟨p, text, hpath⟩ := ih (not_blank_of_next hst c _ hnext)
    exact ⟨p, text, .defer hnext hpath⟩

/-- With the code point at which a run is stuck every run is rejected, whatever comes behind it. -/
theorem Stuck.hopeless (h : Stuck iri rest st ds front) :
    ∃ read, front = ds ++ read ∧
      ∀ c ∈ rest.head?, ∀ more, (st.scan iri ds (read ++ c :: more)).production? = none := by
  -- The runs agree up to the code point that has no move.
  induction h with
  | @stop st ds hnone incomplete =>
    refine ⟨[], (List.append_nil ds).symm, fun c hc more => ?_⟩
    have hstuck : ∀ c' ∈ (c :: more).head?, st.next iri c' = none := by
      rintro _ ⟨⟩
      exact hnone c hc
    rw [List.nil_append, scan_of_none hstuck]
    exact incomplete
  | @take st st' ds cs c hnext _ ih =>
    obtain ⟨read, hread, hrejected⟩ := ih
    rw [List.nil_append] at hread
    subst hread
    refine ⟨c :: cs, by simp, fun c' hc' more => ?_⟩
    rw [List.cons_append, scan_of_take hnext]
    exact hrejected c' hc' more
  | @defer st st' ds cs c hnext _ ih =>
    obtain ⟨read, rfl, hrejected⟩ := ih
    refine ⟨c :: read, by simp, fun c' hc' more => ?_⟩
    rw [List.cons_append, scan_of_defer hnext]
    exact hrejected c' hc' more

end State

/-! ## Where a token is rejected -/

namespace Scanner

variable {s s' : Scanner} {r : Recognizer} {e : LexError} {cs front : List CodePoint}

/-- The code points can be completed: with some more behind them they are the input of a scanner
with these options, and every scanner that checks IRI references alike takes all of that input as
one token. -/
def Completable (options : Options) (r : Recognizer) (front : List CodePoint) : Prop :=
  ∃ more p, (∃ source s, ofSource source options = .ok s ∧ s.Awaits (front ++ more)) ∧
    ∀ s : Scanner, s.options.iri = options.iri → s.Awaits (front ++ more) →
      s.Takes r p (front ++ more)

/-- Whatever comes behind the code points, no scanner that checks IRI references so accepts a
token. -/
def Hopeless (iri : Strictness) (r : Recognizer) (front : List CodePoint) : Prop :=
  ∀ more, ∀ s : Scanner, s.options.iri = iri → s.Awaits (front ++ more) →
    ∀ l s', recognize r s ≠ .ok l s'

/-- Blanks are passed over where nothing fails to decode. -/
theorem ne_blank_of_error (h : s.Awaits cs) (he : recognize r s = .error e s') : r ≠ .blank := by
  rintro rfl
  have hskims : Skims s.clear (recognize .blank s) := skims_run (Or.inl rfl) [] s.clear
  rw [he] at hskims
  cases hskims with
  | failed ending =>
    obtain ⟨position, hending⟩ := h.prospect.2
    rw [prospect_clear, hending] at ending
    cases ending

/-- **Where a token is rejected the run is stuck**, and the error is that of what is to come
there. -/
theorem stuck_of_error (h : s.Awaits cs) (he : recognize r s = .error e s') :
    ∃ front rest, cs = front ++ rest ∧ (s.prospect.drop front.length).Rejects e ∧
      e.fault = .unexpected rest ∧ State.Stuck s.options.iri rest (.start r) [] front := by
  have hconsumes := consumes_recognize (ne_blank_of_error h he) s
  obtain ⟨hcodes, position, hending⟩ := h.prospect
  rw [he] at hconsumes
  cases hconsumes with
  | rejected kept dots rest split isDot few left text rejects stuck =>
    rw [← List.append_assoc] at split
    have hcs : cs = Lookahead.codes (kept ++ dots) ++ Lookahead.codes rest := by
      rw [← Lookahead.codes_append, ← split]
      exact (filterMap_codePoint? hcodes).symm
    have hlength : (Lookahead.codes (kept ++ dots)).length = (kept ++ dots).length :=
      Lookahead.length_codes fun l hl =>
        s.isSome_of_mem_prospect (split ▸ List.mem_append_left _ hl)
    have hdrop : s.prospect.drop (kept ++ dots).length = ⟨rest, s.prospect.ending⟩ := by
      rw [Prospect.drop, split, List.drop_left]
    refine ⟨_, _, hcs, ?_, rejects.fault_eq, stuck⟩
    rw [hlength, hdrop]
    exact rejects
  | failed ending =>
    rw [hending] at ending
    cases ending

/-- Where a run is stuck, what has been read can be completed. -/
theorem completable_of_stuck {options : Options} {rest : List CodePoint} (hr : r ≠ .blank)
    (hfront : ∀ c ∈ front, c.Decodable options.utf8)
    (h : State.Stuck options.iri rest (.start r) [] front) : Completable options r front := by
  obtain ⟨p, text, hpath⟩ := h.exists_path (start_not_blank hr)
  refine ⟨codes text, p, exists_awaits_of_decodable options fun c hc => ?_,
    fun t hiri ht => (takes_iff ht hr (List.append_nil _).symm).2 ?_⟩
  · rcases List.mem_append.1 hc with hc | hc
    · exact hfront c hc
    · obtain ⟨x, -, rfl⟩ := List.mem_map.1 hc
      exact CodePoint.decodable_ofChar _ x
  · rw [hiri]
    exact (State.mem_words_iff_takes (start_not_blank hr)).1 hpath

/-- Where a run is stuck before a code point, there is no hope behind that. -/
theorem hopeless_of_stuck {iri : Strictness} {c : CodePoint} {rest : List CodePoint}
    (h : State.Stuck iri (c :: rest) (.start r) [] front) : Hopeless iri r (front ++ [c]) := by
  obtain ⟨read, hread, hrejected⟩ := h.hopeless
  rw [List.nil_append] at hread
  subst hread
  intro more t hiri ht l t' hl
  have hanswers := answers_recognize r ht
  rw [hl, hiri, List.append_assoc] at hanswers
  generalize hresult : EStateM.Result.ok l t' = result at hanswers
  cases hanswers with
  | accepted production =>
    rw [List.singleton_append, hrejected c rfl more] at production
    cases production
  | rejected => cases hresult

/-- **A token is rejected at the first hopeless code point.** Let nothing that a scanner has to come
fail to decode, and let a recognizer fail. If the error is that of an unexpected code point, what
comes before that code point can be completed to a token, and with it there is no hope of one. If
the error is that of a premature end, it stands at the end of input, and all that was to come can be
completed to a token. There is no other error. -/
theorem rejects_at_first_hopeless {source : Source} {options : Options} {s₀ : Scanner}
    (hs : ofSource source options = .ok s₀) (operations : List Operation)
    (h : (s₀.after operations).Awaits cs)
    (he : recognize r (s₀.after operations) = .error e s') :
    (∃ front c rest, cs = front ++ c :: rest ∧ e.fault = .unexpectedCharacter c ∧
      ((s₀.after operations).prospect.drop front.length).Rejects e ∧
      Completable options r front ∧ Hopeless options.iri r (front ++ [c])) ∨
    (e.fault = .prematureEnd ∧ ((s₀.after operations).prospect.drop cs.length).Rejects e ∧
      Completable options r cs) := by
  have hr := ne_blank_of_error h he
  have hoptions := options_after hs operations
  obtain ⟨front, rest, hcs, hrejects, hfault, hstuck⟩ := stuck_of_error h he
  rw [hoptions] at hstuck
  have hcompletable : Completable options r front := completable_of_stuck hr (fun c hc =>
    decodable_after hs operations h (hcs ▸ List.mem_append_left _ hc)) hstuck
  -- The run is stuck at a code point, or where the input is over.
  cases rest with
  | nil =>
    rw [List.append_nil] at hcs
    subst hcs
    exact Or.inr ⟨hfault, hrejects, hcompletable⟩
  | cons c rest =>
    exact Or.inl ⟨front, c, rest, hcs, hfault, hrejects, hcompletable, hopeless_of_stuck hstuck⟩

/-- Behind a dot that is deferred a letter is rejected: the dot could have begun a number, and with
the letter behind it there is none. -/
theorem rejects_at_first_hopeless_deferred :
    ∃ s, ofSource (.memory ".x".toUTF8.toList) {} = .ok s ∧
      (s.after []).Awaits (codes ['.', 'x']) ∧
      ∃ e s', recognize .object (s.after []) = .error e s' ∧
        e = ⟨.unexpectedCharacter 'x', ⟨1, 2⟩⟩ ∧ Completable {} .object (codes ['.']) ∧
        Hopeless .permissive .object (codes ['.', 'x']) := by
  have hread : (ofSource (.memory ".x".toUTF8.toList) {}).map
      (fun s => fault? (recognize .object (s.after []))) =
        .ok (some ⟨.unexpectedCharacter 'x', ⟨1, 2⟩⟩) := by
    decide +kernel
  obtain ⟨s, hs, h, -⟩ := @awaits_ofSource _ ['.', 'x'] (.memory ".x".toUTF8.toList) {}
  rw [hs] at hread
  have hfailure : fault? (recognize .object (s.after [])) =
      some ⟨.unexpectedCharacter 'x', ⟨1, 2⟩⟩ := Except.ok.inj hread
  cases hresult : recognize .object (s.after []) with
  | ok l s' =>
    rw [hresult] at hfailure
    cases hfailure
  | error e s' =>
    rw [hresult] at hfailure
    obtain rfl := Option.some.inj hfailure
    refine ⟨s, hs, h, _, s', hresult, rfl, ?_⟩
    rcases rejects_at_first_hopeless hs [] h hresult with
      ⟨front, c, rest, hcs, hfault, -, hcompletable, hhopeless⟩ | ⟨hfault, -⟩
    · injection hfault with hc
      subst hc
      -- The error is that of the letter, so that the dot comes before it.
      obtain ⟨rfl, rfl⟩ : front = codes ['.'] ∧ rest = [] := by
        match front, hcs with
        | [], hcs => exact absurd (List.head_eq_of_cons_eq hcs) (by decide)
        | [dot], hcs =>
          injection hcs with hdot hcs
          injection hcs with _ hrest
          exact ⟨by rw [← hdot]; rfl, hrest.symm⟩
        | _ :: _ :: _, hcs => simp at hcs
      exact ⟨hcompletable, hhopeless⟩
    · cases hfault

end Scanner

end RdfTurtle
