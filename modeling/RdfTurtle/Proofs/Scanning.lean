import RdfTurtle.Proofs.Awaiting
import RdfTurtle.Scanner.Recognize

/-! # The automaton on code points

As long as nothing fails to decode, a run of the automaton is a function of the code points still to
come: it cuts the token off their front, gives back what it deferred in vain, and leaves the rest.

* **`State.scan`** — the run as a function of code points, and **`Scan`** what it comes to.
* **`Scanner.answers_run`** — a scanner runs as the function says.
* **`State.Path`** — the tokens that begin in a state, whatever comes after them;
  **`Scanner.path_of_run`** holds of every run that succeeds.
* **`State.Stuck`** — what has been read where a run can neither go on nor end. -/

namespace RdfTurtle

/-- What a run comes to: the kind of the token, or `none` if it is rejected, the code points kept
for it, those deferred in vain, and those behind them. -/
structure Scan where
  production? : Option Production
  kept : List CodePoint
  givenBack : List CodePoint
  rest : List CodePoint
  deriving DecidableEq, Repr

/-- The run with more code points kept before. -/
def Scan.after (kept : List CodePoint) (r : Scan) : Scan := { r with kept := kept ++ r.kept }

/-- The fault reported when no token can go on with the code points. -/
def LexFault.unexpected : List CodePoint → LexFault
  | [] => .prematureEnd
  | c :: _ => .unexpectedCharacter c

namespace State

/-- Runs the automaton from a state, with deferred code points, on the code points to come. -/
def scan (iri : Strictness) : State → List CodePoint → List CodePoint → Scan
  | st, ds, [] => ⟨st.accepting, [], ds, []⟩
  | st, ds, c :: cs =>
    match st.next iri c with
    | none => ⟨st.accepting, [], ds, c :: cs⟩
    | some (.finish p) => ⟨some p, ds ++ [c], [], cs⟩
    | some (.take st') => (scan iri st' [] cs).after (ds ++ [c])
    | some (.skip st') => scan iri st' ds cs
    | some (.defer st') => scan iri st' (ds ++ [c]) cs

section Equations

variable {iri : Strictness} {st st' : State} {p : Production} {ds cs : List CodePoint}
  {c : CodePoint}

/-- Where there is no move the run ends. -/
theorem scan_of_none (h : ∀ c ∈ cs.head?, st.next iri c = none) :
    scan iri st ds cs = ⟨st.accepting, [], ds, cs⟩ := by
  cases cs with
  | nil => rfl
  | cons c cs => simp only [scan, h c rfl]

/-- A code point that ends the token is the last one read. -/
theorem scan_of_finish (h : st.next iri c = some (.finish p)) :
    scan iri st ds (c :: cs) = ⟨some p, ds ++ [c], [], cs⟩ := by
  simp only [scan, h]

/-- A code point that is taken belongs to the token, with what was deferred before it. -/
theorem scan_of_take (h : st.next iri c = some (.take st')) :
    scan iri st ds (c :: cs) = (scan iri st' [] cs).after (ds ++ [c]) := by
  simp only [scan, h]

/-- A code point that is skipped is passed over. -/
theorem scan_of_skip (h : st.next iri c = some (.skip st')) :
    scan iri st ds (c :: cs) = scan iri st' ds cs := by
  simp only [scan, h]

/-- A code point that is deferred waits for what follows. -/
theorem scan_of_defer (h : st.next iri c = some (.defer st')) :
    scan iri st ds (c :: cs) = scan iri st' (ds ++ [c]) cs := by
  simp only [scan, h]

end Equations

end State

/-! ## Scanners run as the function says -/

namespace Scanner

/-- An outcome of a scanner `s` that is what `r` says: a lexeme or an error at the rest, in a
scanner that stands before what was given back and the rest. -/
inductive Answers (s : Scanner) (r : Scan) : EStateM.Result LexError Scanner Lexeme → Prop
  | accepted {p : Production} {s' : Scanner} (production : r.production? = some p)
    (awaits : s'.Awaits (r.givenBack ++ r.rest)) (extended : s.Extends s' r.kept) :
    Answers s r (.ok (s'.lexeme p) s')
  | rejected {e : LexError} {s' : Scanner} (production : r.production? = none)
    (awaits : s'.Awaits (r.givenBack ++ r.rest)) (extended : s.Extends s' r.kept)
    (fault : e.fault = .unexpected r.rest) :
    Answers s r (.error e s')

/-- What a scanner answers after it has kept something belongs to the longer token. -/
theorem Answers.after {s s' : Scanner} {r : Scan} {kept : List CodePoint}
    {result : EStateM.Result LexError Scanner Lexeme} (hk : s.Extends s' kept)
    (h : s'.Answers r result) : s.Answers (r.after kept) result := by
  cases h with
  | accepted production awaits extended =>
    exact .accepted production awaits (hk.trans extended)
  | rejected production awaits extended fault =>
    exact .rejected production awaits (hk.trans extended) fault

/-- Without a change of what was kept nothing is added. -/
theorem Answers.same {s s' : Scanner} {r : Scan}
    {result : EStateM.Result LexError Scanner Lexeme} (hk : s.Extends s' [])
    (h : s'.Answers r result) : s.Answers r result := h.after hk

/-- What is not expected is the first of what is awaited, or the end. -/
theorem fault_unexpected {s : Scanner} {cs : List CodePoint} (h : s.Awaits cs) :
    s.unexpected.fault = .unexpected cs := by
  rw [unexpected, h.codePoint?]
  cases cs <;> rfl

/-- A token that ends gives back what is deferred. -/
theorem answers_conclude {s : Scanner} {cs ds : List CodePoint} {deferred : List Lookahead}
    (st : State) (h : s.Awaits cs) (hd : deferred.map Lookahead.codePoint? = ds.map some) :
    s.Answers ⟨st.accepting, [], ds, cs⟩ (conclude st deferred s) := by
  unfold conclude
  have hgiven := h.giveBack hd
  have hextends := extends_giveBack s deferred
  split
  · next p hp =>
    have hlexeme : s.lexeme p = (s.giveBack deferred).lexeme p := by
      rw [lexeme, lexeme, hextends.text, hextends.start]
      rfl
    rw [hlexeme]
    exact .accepted hp hgiven hextends
  · next hp => exact .rejected hp hgiven hextends (fault_unexpected h)

/-- The move for the first code point to come. -/
theorem move_of_awaits {s : Scanner} {c : CodePoint} {cs : List CodePoint}
    (h : s.Awaits (c :: cs)) (st : State) : s.move? st = st.next s.options.iri c := by
  rw [move?, h.1, Option.bind_some]

/-- A scanner that awaits code points runs on them as the automaton does. -/
theorem answers_run {s : Scanner} {cs ds : List CodePoint} {deferred : List Lookahead}
    (st : State) (h : s.Awaits cs) (hd : deferred.map Lookahead.codePoint? = ds.map some) :
    s.Answers (st.scan s.options.iri ds cs) (run st deferred s) := by
  -- The induction is on the code points that come: each move steps past one. A move that takes
  -- keeps what was deferred with it, the other two keep nothing.
  induction cs generalizing s st ds deferred with
  | nil =>
    have hnone : s.move? st = none := by
      rw [move?, h.codePoint?]
      rfl
    rw [run_of_none hnone]
    exact answers_conclude st h hd
  | cons c cs ih =>
    have hmove := move_of_awaits h st
    cases hnext : st.next s.options.iri c with
    | none =>
      rw [run_of_none (hmove.trans hnext)]
      simp only [State.scan, hnext]
      exact answers_conclude st h hd
    | some m =>
      cases m with
      | finish p =>
        rw [State.scan_of_finish hnext, run_of_finish (hmove.trans hnext)]
        obtain ⟨s', ht, hs', hk⟩ := take_of_awaits h hd
        simp only [bind, EStateM.bind, ht]
        exact .accepted rfl hs' hk
      | take st' =>
        rw [State.scan_of_take hnext, run_of_take (hmove.trans hnext)]
        obtain ⟨s', ht, hs', hk⟩ := take_of_awaits h hd
        simp only [bind, EStateM.bind, ht]
        rw [← hk.options]
        exact (ih st' hs' rfl).after hk
      | skip st' =>
        rw [State.scan_of_skip hnext, run_of_skip (hmove.trans hnext)]
        obtain ⟨s', ht, hs', hk⟩ := step_of_awaits h
        simp only [bind, EStateM.bind, ht]
        rw [← hk.options]
        exact (ih st' hs' hd).same hk
      | defer st' =>
        rw [State.scan_of_defer hnext, run_of_defer (hmove.trans hnext)]
        obtain ⟨s', ht, hs', hk⟩ := step_of_awaits h
        simp only [bind, EStateM.bind, ht]
        rw [← hk.options]
        exact (ih st' hs' (known_append hd h.1)).same hk

/-- A token is read as the automaton says. -/
theorem answers_recognize {s : Scanner} {cs : List CodePoint} (r : Recognizer) (h : s.Awaits cs) :
    s.clear.Answers ((State.start r).scan s.options.iri [] cs) (recognize r s) :=
  answers_run (.start r) h.clear rfl

end Scanner

/-! ## Tokens of a state -/

/-- The tokens of kind `p` that begin in a state with deferred code points `ds`. -/
inductive State.Path (iri : Strictness) (p : Production) :
    State → List CodePoint → List CodePoint → Prop
  | stop {st : State} {ds : List CodePoint} (h : st.accepting = some p) : Path iri p st ds []
  | finish {st : State} {ds : List CodePoint} {c : CodePoint}
    (h : st.next iri c = some (.finish p)) : Path iri p st ds (ds ++ [c])
  | take {st st' : State} {ds cs : List CodePoint} {c : CodePoint}
    (h : st.next iri c = some (.take st')) (more : Path iri p st' [] cs) :
    Path iri p st ds (ds ++ [c] ++ cs)
  | skip {st st' : State} {ds cs : List CodePoint} {c : CodePoint}
    (h : st.next iri c = some (.skip st')) (more : Path iri p st' ds cs) : Path iri p st ds cs
  | defer {st st' : State} {ds cs : List CodePoint} {c : CodePoint}
    (h : st.next iri c = some (.defer st')) (more : Path iri p st' (ds ++ [c]) cs) :
    Path iri p st ds cs

/-- What a run that began in a state with deferred code points `ds` has read when it comes before
`rest` and can neither go on nor end there. -/
inductive State.Stuck (iri : Strictness) (rest : List CodePoint) :
    State → List CodePoint → List CodePoint → Prop
  | stop {st : State} {ds : List CodePoint} (h : ∀ c ∈ rest.head?, st.next iri c = none)
    (incomplete : st.accepting = none) : Stuck iri rest st ds ds
  | take {st st' : State} {ds cs : List CodePoint} {c : CodePoint}
    (h : st.next iri c = some (.take st')) (more : Stuck iri rest st' [] cs) :
    Stuck iri rest st ds (ds ++ [c] ++ cs)
  | defer {st st' : State} {ds cs : List CodePoint} {c : CodePoint}
    (h : st.next iri c = some (.defer st')) (more : Stuck iri rest st' (ds ++ [c]) cs) :
    Stuck iri rest st ds cs

namespace Scanner

/-- Every run that succeeds reads a token of its first state, whatever the input is. -/
theorem path_of_run {st : State} {deferred : List Lookahead} {ds : List CodePoint}
    {s s' : Scanner} {l : Lexeme} (hd : deferred.map Lookahead.codePoint? = ds.map some)
    (h : run st deferred s = .ok l s') :
    ∃ cs, l.text = s.text.append cs ∧ State.Path s.options.iri l.production st ds cs := by
  -- The recursion of `run` itself: the input need not be known for a token that was read.
  fun_induction run st deferred s generalizing ds with
  | case1 st deferred s hm =>
    -- No move: the token is complete here.
    unfold conclude at h
    split at h
    · next p hp =>
      injection h with hl _
      subst hl
      exact ⟨[], rfl, .stop hp⟩
    · cases h
  | case2 st deferred s p hm s₁ hs =>
    -- The move ends the token.
    obtain ⟨c, hc, hnext⟩ := codePoint_of_move hm
    injection h with hl _
    subst hl
    exact ⟨ds ++ [c], (extends_of_take hc hd hs).text, .finish hnext⟩
  | case4 st deferred s st' hm s₁ hs ih =>
    -- The move takes what was deferred along.
    obtain ⟨c, hc, hnext⟩ := codePoint_of_move hm
    have hk := extends_of_take hc hd hs
    have hnone : ([] : List Lookahead).map Lookahead.codePoint? = [].map some := rfl
    obtain ⟨cs, htext, hpath⟩ := ih hnone h
    rw [hk.options] at hpath
    exact ⟨ds ++ [c] ++ cs, by rw [htext, hk.text, ← Text.append_append], .take hnext hpath⟩
  | case6 st deferred s st' hm s₁ hs ih =>
    -- The move skips the code point.
    obtain ⟨c, hc, hnext⟩ := codePoint_of_move hm
    have hk := extends_of_step hs
    obtain ⟨cs, htext, hpath⟩ := ih hd h
    rw [hk.options] at hpath
    exact ⟨cs, by rw [htext, hk.text]; rfl, .skip hnext hpath⟩
  | case8 st deferred s st' hm s₁ hs ih =>
    -- The move defers the code point.
    obtain ⟨c, hc, hnext⟩ := codePoint_of_move hm
    have hk := extends_of_step hs
    obtain ⟨cs, htext, hpath⟩ := ih (known_append hd hc) h
    rw [hk.options] at hpath
    exact ⟨cs, by rw [htext, hk.text]; rfl, .defer hnext hpath⟩
  -- The code point behind cannot be decoded.
  | case3 | case5 | case7 | case9 => cases h

/-- Every token that is read is one of its recognizer. -/
theorem path_of_recognize {r : Recognizer} {s s' : Scanner} {l : Lexeme}
    (h : recognize r s = .ok l s') :
    ∃ cs, l.text = .encode s.options.encoding cs ∧
      State.Path s.options.iri l.production (.start r) [] cs := by
  have hnone : ([] : List Lookahead).map Lookahead.codePoint? = [].map some := rfl
  obtain ⟨cs, htext, hpath⟩ := path_of_run (s := s.clear) hnone h
  exact ⟨cs, htext.trans (Text.append_empty _ _), hpath⟩

end Scanner

end RdfTurtle
