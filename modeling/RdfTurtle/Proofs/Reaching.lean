import RdfTurtle.Proofs.Course
import RdfTurtle.Proofs.Likeness.Parser

/-! # What a parser reaches

A parser reaches others by moves and by recovering from errors. How it scans and whether it recovers
never changes on the way. Where a statement begins it passes over blanks, and where the input has
ended no more statement begins.

* **`Parser.Reached`**, **`Parser.Within`**, **`Parser.Fails`** — what a parser reaches, where it is
  within a statement, and how a statement fails.
* **`Parser.pursue_of_skipBlank`**, **`Parser.pursue_of_atEnd`** — where no statement begins.
* **`Parser.Reached.settings`**, **`Parser.settings_of_create`** — the settings of all that is
  reached. -/

namespace RdfTurtle

namespace Parser

section

variable [IriLibrary]

/-! ## Statements and their failures -/

/-- What a parser reaches by moves and by recovering from errors. -/
inductive Reached (p₀ : Parser) : Parser → Prop
  | start : Reached p₀ p₀
  | move {p p' : Parser} {o : Outcome} (h : Reached p₀ p) (hm : p.move = .ok o p') : Reached p₀ p'
  | recovery {p q : Parser} {e : DocumentError} (h : Reached p₀ p) (hm : p.move = .error e q) :
    Reached p₀ (q.afterError e)

/-- What is reached from there is reached from the start. -/
theorem Reached.trans {p₀ p p' : Parser} (h : p₀.Reached p) (h' : p.Reached p') :
    p₀.Reached p' := by
  induction h' with
  | start => exact h
  | move _ hm ih => exact .move ih hm
  | recovery _ hm ih => exact .recovery ih hm

/-- The next item leads to what is reached. -/
theorem reached_next (p : Parser) : p.Reached p.next.2 := by
  fun_induction next p with
  | case1 p t q hm => exact .move .start hm
  | case2 p q hm ih => exact (Reached.move .start hm).trans ih
  | case3 p q hm => exact .move .start hm
  | case4 p e q hm => exact .recovery .start hm

/-- Behind the tokens the parser is still within the statement that `start` began. -/
inductive Within (start : Parser) : List Token → Parser → Prop
  | begin (h : start.expected = .statement) : Within start [] start
  | move {ts us : List Token} {p q p' : Parser} {o : Outcome} (h : Within start ts p)
    (hm : p.move = .ok o p') (course : Course p us q) (settled : Settled q p')
    (within : p'.expected ≠ .statement) (undotted : ¬ Dotted us) : Within start (ts ++ us) p'

/-- Behind the tokens the statement that `start` began fails, with the error and in the parser
given. -/
inductive Fails (start : Parser) : List Token → DocumentError → Parser → Prop
  | trips {ts us : List Token} {p q : Parser} {e : DocumentError} (h : Within start ts p)
    (hm : p.move = .error e q) (trip : Trips p us e q) : Fails start (ts ++ us) e q

/-- No dot has been read within a statement. -/
theorem Within.undotted {start p : Parser} {ts : List Token} (h : Within start ts p) :
    ¬ Dotted ts := by
  induction h with
  | begin => exact not_dotted_nil
  | @move ts us _ _ _ _ _ _ _ _ _ hus ih =>
    cases us with
    | nil => rwa [List.append_nil]
    | cons u us => rwa [dotted_append (List.cons_ne_nil u us)]

/-- Once parsing has ended a move leads nowhere. -/
theorem move_of_nothing {p : Parser} (hx : p.expected = .nothing) :
    p.move = .ok .finished p := by
  simp only [move, hx]

omit [IriLibrary] in
/-- After an error a statement begins, or nothing is expected. -/
theorem expected_afterError (p : Parser) (e : DocumentError) :
    (p.afterError e).expected = .statement ∨ (p.afterError e).expected = .nothing := by
  generalize hafter : p.afterError e = p'
  cases recovered_of_afterError hafter with
  | here | behind => exact Or.inl rfl
  | failed | ended => exact Or.inr rfl

/-- A parser that expects anything is within a statement that it has begun. -/
theorem exists_within {p₀ p : Parser} (h₀ : p₀.expected = .statement) (h : p₀.Reached p)
    (hp : p.expected ≠ .nothing) : ∃ start ts, p₀.Reached start ∧ Within start ts p := by
  induction h with
  | start => exact ⟨p₀, [], .start, .begin h₀⟩
  | @move p p' o h hm ih =>
    by_cases hx : p'.expected = .statement
    · exact ⟨p', [], .move h hm, .begin hx⟩
    · rcases p.proceeds_move with hproceeds | ⟨p'', hfinished, hend⟩
      · rw [hm] at hproceeds
        cases hproceeds with
        | settles course settled closed =>
          -- Something was expected before, since otherwise the move would have led nowhere.
          have hbefore : p.expected ≠ .nothing := by
            intro hn
            have hmove := move_of_nothing hn
            rw [hm] at hmove
            injection hmove with _ hmove
            exact hp (hmove ▸ hn)
          obtain ⟨start, ts, hstart, hwithin⟩ := ih hbefore
          exact ⟨start, _, hstart, hwithin.move hm course settled hx (mt closed hx)⟩
      -- Where nothing more is read nothing more is expected.
      · rw [hm] at hfinished
        injection hfinished with _ hfinished
        subst hfinished
        rcases hend with ⟨hn, hsame⟩ | ⟨q, -, -, hq⟩
        · exact absurd (hsame ▸ hn) hp
        · exact absurd (by rw [hq]) hp
  | @recovery p q e h hm =>
    have hx := (q.expected_afterError e).resolve_right hp
    exact ⟨_, [], .recovery h hm, .begin hx⟩

/-- A pursuit that fails does so within a statement. -/
theorem exists_fails {p₀ p q : Parser} {e : DocumentError} (h₀ : p₀.expected = .statement)
    (h : p₀.Reached p) (hpursue : p.pursue = .error e q) :
    ∃ start ts, p₀.Reached start ∧ Fails start ts e q := by
  fun_induction pursue p with
  | case1 | case3 => cases hpursue
  | case2 p p' hm ih => exact ih (.move h hm) hpursue
  | case4 p e' q' hm =>
    injection hpursue with he hq
    subst he hq
    obtain ⟨start, ts, hstart, hwithin⟩ := exists_within h₀ h (expected_of_move_error hm)
    rcases p.proceeds_move with hproceeds | ⟨p', hfinished, -⟩
    · rw [hm] at hproceeds
      cases hproceeds with
      | trips trip => exact ⟨start, _, hstart, .trips hwithin hm trip⟩
    · rw [hm] at hfinished
      cases hfinished

/-- **The parser knows whether the last token of a statement that fails was a dot**, unless the
input has ended and nothing is to be skipped. -/
theorem Fails.afterDot {start q : Parser} {ts : List Token} {e : DocumentError}
    (h : Fails start ts e q) :
    (Dotted ts → q.afterDot = true) ∧ (¬ Dotted ts → q.afterDot = false ∨ q.scanner.atEnd) := by
  cases h with
  | @trips ts us p _ _ hwithin hm trip =>
    cases trip with
    | thrown course some plain =>
      rw [dotted_append some, ← course.afterDot.2 some, Bool.not_eq_true]
      exact ⟨id, Or.inl⟩
    | refused course undotted refused =>
      have hts : ¬ Dotted (ts ++ us) := by
        cases us with
        | nil => rw [List.append_nil]; exact hwithin.undotted
        | cons u us => rwa [dotted_append (List.cons_ne_nil u us)]
      exact ⟨fun hdot => absurd hdot hts, fun _ => refused.afterDot⟩

/-! ## A statement begins afresh -/

/-- A statement begins with blanks, which may end the input. -/
theorem move_of_statement {p : Parser} (hx : p.expected = .statement) :
    p.move = moveStatement p := by
  simp only [move, hx]

/-- Once parsing has ended nothing comes next. -/
theorem pursue_of_nothing {p : Parser} (hx : p.expected = .nothing) : p.pursue = .ok none p :=
  pursue_of_finished (move_of_nothing hx)

/-- Once parsing has ended there are no more items. -/
theorem items_of_nothing {p : Parser} (hx : p.expected = .nothing) : p.items = [] :=
  items_of_pursue_none (pursue_of_nothing hx)

/-- Where the input has ended behind blanks no statement begins. -/
theorem pursue_of_skipBlank {p q : Parser} (hx : p.expected = .statement)
    (hblank : p.skipBlank = .ok () q) (hend : q.scanner.atEnd) :
    p.pursue = .ok none { q with expected := .nothing } := by
  have hmove : p.move = .ok .finished { q with expected := .nothing } := by
    rw [move_of_statement hx]
    simp only [moveStatement, bind, EStateM.bind, hblank]
    simp only [get_apply]
    rw [if_pos hend]
    rfl
  exact pursue_of_finished hmove

/-- No statement begins at the end of input. -/
theorem pursue_of_atEnd {p : Parser} (hend : p.scanner.atEnd)
    (hx : p.expected = .statement ∨ p.expected = .nothing) :
    ∃ p', p.pursue = .ok none p' ∧ p'.scanner.atEnd := by
  rcases hx with hx | hx
  · have hmove := Scanner.move?_of_atEnd (s := p.scanner.clear) hend (.start .blank)
    have hblank : p.skipBlank = .ok () { p with scanner := p.scanner.clear } := by
      unfold skipBlank Scanner.recognize
      rw [Scanner.run_of_none hmove]
      rfl
    exact ⟨_, pursue_of_skipBlank hx hblank hend, hend⟩
  · exact ⟨p, pursue_of_nothing hx, hend⟩

/-- Between statements there are no more items at the end of input. -/
theorem items_of_atEnd {p : Parser} (hend : p.scanner.atEnd)
    (hx : p.expected = .statement ∨ p.expected = .nothing) : p.items = [] := by
  obtain ⟨p', hpursue, -⟩ := pursue_of_atEnd hend hx
  exact items_of_pursue_none hpursue

end

/-- Skipping leaves a parser at the end where it is. -/
theorem atEnd_afterError {p : Parser} (hend : p.scanner.atEnd) (e : DocumentError) :
    (p.afterError e).scanner.atEnd := by
  have hskip := Scanner.skipPast_of_atEnd '.' hend
  generalize hafter : p.afterError e = p'
  cases recovered_of_afterError hafter with
  | here | ended => exact hend
  | behind _ _ h =>
    rw [hskip] at h
    cases h
    exact hend
  | failed _ _ h =>
    rw [hskip] at h
    cases h

end Parser

/-! ## What never changes -/

namespace Scanner

/-- Reading a code point does not change how a scanner scans. -/
theorem options_step (s : Scanner) : (finalState (step s)).options = s.options := s.frame_step.2.2

/-- Nor does taking one. -/
theorem options_take (deferred : List Lookahead) (s : Scanner) :
    (finalState (take deferred s)).options = s.options :=
  options_step (s.keep (deferred ++ [s.current]))

/-- Nor does a run of the automaton. -/
theorem options_run (st : State) (deferred : List Lookahead) (s : Scanner) :
    (finalState (run st deferred s)).options = s.options := by
  fun_induction run st deferred s with
  | case1 st deferred s hm =>
    have hgiven : (s.giveBack deferred).options = s.options := by cases deferred <;> rfl
    unfold conclude
    split <;> exact hgiven
  | case2 _ deferred s _ _ _ hs | case3 _ deferred s _ _ _ _ hs | case5 _ deferred s _ _ _ _ hs =>
    have htake := options_take deferred s
    rw [hs] at htake
    exact htake
  | case4 _ deferred s _ _ _ hs ih =>
    have htake := options_take deferred s
    rw [hs] at htake
    exact ih.trans htake
  | case6 _ _ s _ _ _ hs ih | case8 _ _ s _ _ _ hs ih =>
    have hstep := options_step s
    rw [hs] at hstep
    exact ih.trans hstep
  | case7 _ _ s _ _ _ _ hs | case9 _ _ s _ _ _ _ hs =>
    have hstep := options_step s
    rw [hs] at hstep
    exact hstep

/-- Nor does reading a token. -/
theorem options_recognize (r : Recognizer) (s : Scanner) :
    (finalState (recognize r s)).options = s.options := options_run (.start r) [] s.clear

/-- Nor does passing over a code point. -/
theorem options_advance (s : Scanner) : (finalState (advance s)).options = s.options := by
  unfold advance
  split
  · rfl
  · exact s.options_step

/-- Nor does moving past a stop. -/
theorem options_skipPast (stop : CodePoint) (s : Scanner) :
    (finalState (skipPast stop s)).options = s.options := by
  fun_induction skipPast stop s with
  | case1 s hend => rfl
  | case2 s hend e s' ha | case3 s hend s' ha hstop =>
    have hadvance := s.options_advance
    rw [ha] at hadvance
    exact hadvance
  | case4 s hend s' ha hstop ih =>
    have hadvance := s.options_advance
    rw [ha] at hadvance
    exact ih.trans hadvance

end Scanner

namespace Parser

/-- How a parser scans, and whether it recovers. -/
def settings (p : Parser) : Options × Bool := (p.scanner.options, p.recover)

/-- Passing over blanks does not change the settings. -/
theorem settings_skipBlank (p : Parser) : (finalState p.skipBlank).settings = p.settings := by
  have hrecognize := p.scanner.options_recognize .blank
  unfold skipBlank
  split <;> next hr =>
    rw [hr] at hrecognize
    exact congrArg (·, p.recover) hrecognize

/-- Nor does reading a token. -/
theorem settings_lex (r : Recognizer) (p : Parser) :
    (finalState (p.lex r)).settings = p.settings := by
  have hrecognize := p.scanner.options_recognize r
  unfold lex
  split <;> next hr =>
    rw [hr] at hrecognize
    exact congrArg (·, p.recover) hrecognize

/-- Nor does a course. -/
theorem Course.settings {p q : Parser} {ts : List Token} (h : Course p ts q) :
    q.settings = p.settings := by
  induction h with
  | done => rfl
  | @blank p p' _ _ h _ ih =>
    have hblank := p.settings_skipBlank
    rw [h] at hblank
    exact ih.trans hblank
  | @token p p' _ _ r _ h _ _ ih =>
    have hlex := p.settings_lex r
    rw [h] at hlex
    exact ih.trans hlex
  | @dot p p' r _ h =>
    have hlex := p.settings_lex r
    rwa [h] at hlex

/-- Nor does a token that cannot be read. -/
theorem Refuses.settings {p q : Parser} {e : DocumentError} (h : Refuses p e q) :
    q.settings = p.settings := by
  rcases h with h | ⟨r, h⟩
  · have hblank := p.settings_skipBlank
    rwa [h] at hblank
  · have hlex := p.settings_lex r
    rwa [h] at hlex

/-- Nor does a move that fails. -/
theorem Trips.settings {p q : Parser} {ts : List Token} {e : DocumentError} (h : Trips p ts e q) :
    q.settings = p.settings := by
  cases h with
  | thrown course => exact course.settings
  | refused course _ refused => exact refused.settings.trans course.settings

section

variable [IriLibrary]

/-- No move changes the settings. -/
theorem settings_move (p : Parser) : (finalState p.move).settings = p.settings := by
  rcases p.proceeds_move with hproceeds | ⟨p', hfinished, hend⟩
  · generalize p.move = result at hproceeds
    cases hproceeds with
    | @settles _ _ q p' course settled =>
      have hsame : p'.settings = q.settings := by
        unfold Parser.settings
        rw [settled.scanner, settled.recover]
      exact hsame.trans course.settings
    | trips trip => exact trip.settings
  · rw [hfinished]
    rcases hend with ⟨-, rfl⟩ | ⟨q, hblank, -, rfl⟩
    · rfl
    · have hsame := p.settings_skipBlank
      rw [hblank] at hsame
      exact hsame

omit [IriLibrary] in
/-- Nor does recovering from an error. -/
theorem settings_afterError (p : Parser) (e : DocumentError) :
    (p.afterError e).settings = p.settings := by
  have hskip := p.scanner.options_skipPast '.'
  generalize hafter : p.afterError e = p'
  cases recovered_of_afterError hafter with
  | here | ended => rfl
  | behind _ _ h | failed _ _ h =>
    rw [h] at hskip
    exact congrArg (·, p.recover) hskip

/-- **The settings stay as they are.** -/
theorem Reached.settings {p₀ p : Parser} (h : p₀.Reached p) : p.settings = p₀.settings := by
  induction h with
  | start => rfl
  | @move p p' o _ hm ih =>
    have hmove := p.settings_move
    rw [hm] at hmove
    exact hmove.trans ih
  | @recovery p q e _ hm ih =>
    have hmove := p.settings_move
    rw [hm] at hmove
    exact (q.settings_afterError e).trans (hmove.trans ih)

/-! ## The start of a document -/

/-- A parser has the settings that are asked for. -/
theorem settings_of_create {source : Source} {options : ParserOptions} {p : Parser}
    (h : create source options = .ok p) : p.settings = (options.scanner, options.recover) := by
  obtain ⟨t, base?, ht, -, rfl⟩ := exists_of_create h
  obtain ⟨s, hs, hmark⟩ := of_begin_ok ht
  obtain ⟨current, decoder, -, hsame⟩ := Scanner.of_ofSource_ok hs
  have hoptions : s.options = options.scanner := by rw [hsame]
  suffices hskipped : t.options = s.options from
    congrArg (·, options.recover) (hskipped.trans hoptions)
  rcases of_skipMark_ok hmark with ⟨-, rfl⟩ | ⟨-, -, hstep⟩
  · rfl
  · have hframe := s.options_step
    rwa [hstep, finalState_ok] at hframe

end

end Parser

end RdfTurtle
