import RdfTurtle.Scanner
import RdfTurtle.Token.State

/-! # Recognizing tokens

The scanner runs the token automaton on its lookaheads. A token ends when the automaton finishes, or
when there is no move for the lookahead; then what is deferred is given back, and the token is
accepted if it is complete. A rejection reports the lookahead without a move, read before anything
is given back.

* **`Scanner.run`** — runs the automaton from a state.
* **`Scanner.recognize`** — reads one token.
* **`Scanner.keeps_recognize`** — reading a token never leaves more input.
* **`Scanner.spends_recognize`** — reading a token that may not be empty uses input up.
* **`Scanner.size_of_recognize_error`** — a token that fails uses input up or leaves a code
  point. -/

namespace RdfTurtle.Scanner

/-- The token read so far, as one of kind `p`. -/
def lexeme (s : Scanner) (p : Production) : Lexeme := ⟨p, s.text, s.start⟩

/-- The move of the automaton for the current lookahead; there is none at the end of input. -/
def move? (s : Scanner) (st : State) : Option Move :=
  s.current.codePoint?.bind (st.next s.options.iri)

/-- Ends the token without the current lookahead and without what is deferred. -/
def conclude (st : State) (deferred : List Lookahead) : EStateM LexError Scanner Lexeme := fun s =>
  match st.accepting with
  | some p => .ok (s.lexeme p) (s.giveBack deferred)
  | none => .error s.unexpected (s.giveBack deferred)

/-- There is a move only for a code point. -/
theorem codePoint_of_move {s : Scanner} {st : State} {m : Move} (h : s.move? st = some m) :
    ∃ c, s.current.codePoint? = some c ∧ st.next s.options.iri c = some m :=
  Option.bind_eq_some_iff.1 h

/-- A move that takes the current code point uses it up. -/
theorem size_of_take {s s' : Scanner} {st : State} {m : Move} {deferred : List Lookahead}
    (hm : s.move? st = some m) (h : take deferred s = .ok () s') : s'.size < s.size := by
  obtain ⟨c, hc, -⟩ := codePoint_of_move hm
  simpa [h] using size_take_lt deferred hc

/-- So it does if nothing behind it can be decoded. -/
theorem size_of_take_error {s s' : Scanner} {st : State} {m : Move} {deferred : List Lookahead}
    {e : LexError} (hm : s.move? st = some m) (h : take deferred s = .error e s') :
    s'.size < s.size := by
  obtain ⟨c, hc, -⟩ := codePoint_of_move hm
  simpa [h] using size_take_lt deferred hc

/-- A move past the current code point uses it up. -/
theorem size_of_step {s s' : Scanner} {st : State} {m : Move} (hm : s.move? st = some m)
    (h : step s = .ok () s') : s'.size < s.size := by
  obtain ⟨c, hc, -⟩ := codePoint_of_move hm
  simpa [h] using size_step_lt hc

/-- So it does if nothing behind it can be decoded. -/
theorem size_of_step_error {s s' : Scanner} {st : State} {m : Move} {e : LexError}
    (hm : s.move? st = some m) (h : step s = .error e s') : s'.size < s.size := by
  obtain ⟨c, hc, -⟩ := codePoint_of_move hm
  simpa [h] using size_step_lt hc

/-- What a move defers is counted as long as it may be given back. -/
theorem size_of_defer {s s' : Scanner} (deferred : List Lookahead) (h : step s = .ok () s') :
    Lookahead.total (deferred ++ [s.current]) + s'.size ≤ Lookahead.total deferred + s.size := by
  have := size_step_add s
  simp only [h, finalState_ok] at this
  simp only [Lookahead.total_append, Lookahead.total_cons, Lookahead.total_nil]
  omega

/-- Runs the automaton from `st`, with `deferred` code points whose place is open. -/
def run (st : State) (deferred : List Lookahead) (s : Scanner) :
    EStateM.Result LexError Scanner Lexeme :=
  match _hm : s.move? st with
  | none => conclude st deferred s
  | some (.finish p) =>
    match take deferred s with
    | .ok () s' => .ok (s'.lexeme p) s'
    | .error e s' => .error e s'
  | some (.take st') =>
    match _hs : take deferred s with
    | .ok () s' => run st' [] s'
    | .error e s' => .error e s'
  | some (.skip st') =>
    match _hs : step s with
    | .ok () s' => run st' deferred s'
    | .error e s' => .error e s'
  | some (.defer st') =>
    match _hs : step s with
    | .ok () s' => run st' (deferred ++ [s.current]) s'
    | .error e s' => .error e s'
termination_by s.size
decreasing_by
  · exact size_of_take ‹_› ‹_›
  · exact size_of_step ‹_› ‹_›
  · exact size_of_step ‹_› ‹_›

section Equations

variable {st st' : State} {deferred : List Lookahead} {s : Scanner} {p : Production}

/-- Without a move the token ends. -/
theorem run_of_none (h : s.move? st = none) : run st deferred s = conclude st deferred s := by
  unfold run
  split <;> simp_all

/-- The last code point of a token is taken. -/
theorem run_of_finish (h : s.move? st = some (.finish p)) :
    run st deferred s = (do take deferred; return (← get).lexeme p) s := by
  unfold run
  split <;> simp_all only [reduceCtorEq, Option.some.injEq, Move.finish.injEq]
  simp only [bind, EStateM.bind]
  split
  · next ht => rw [ht]; rfl
  · next ht => rw [ht]

/-- What is taken settles what was deferred. -/
theorem run_of_take (h : s.move? st = some (.take st')) :
    run st deferred s = (do take deferred; run st' []) s := by
  unfold run
  split <;> simp_all only [reduceCtorEq, Option.some.injEq, Move.take.injEq]
  simp only [bind, EStateM.bind]
  split <;> next ht => rw [ht]

/-- What is skipped leaves no trace. -/
theorem run_of_skip (h : s.move? st = some (.skip st')) :
    run st deferred s = (do step; run st' deferred) s := by
  unfold run
  split <;> simp_all only [reduceCtorEq, Option.some.injEq, Move.skip.injEq]
  simp only [bind, EStateM.bind]
  split <;> next ht => rw [ht]

/-- What is deferred is remembered. -/
theorem run_of_defer (h : s.move? st = some (.defer st')) :
    run st deferred s = (do step; run st' (deferred ++ [s.current])) s := by
  unfold run
  split <;> simp_all only [reduceCtorEq, Option.some.injEq, Move.defer.injEq]
  simp only [bind, EStateM.bind]
  split <;> next ht => rw [ht]

end Equations

/-- Reads one token. -/
def recognize (r : Recognizer) : EStateM LexError Scanner Lexeme := fun s =>
  run (.start r) [] s.clear

/-! ## Tokens use up input -/

/-- A run leaves no more than it found, counting what was deferred before. -/
theorem size_run_le (st : State) (deferred : List Lookahead) (s : Scanner) :
    (finalState (run st deferred s)).size ≤ Lookahead.total deferred + s.size := by
  fun_induction run st deferred s with
  | case1 st deferred s hm =>
    unfold conclude
    split <;> simp
  | case2 _ _ _ _ hm _ hs => exact Nat.le_add_left_of_le (Nat.le_of_lt (size_of_take hm hs))
  | case3 _ _ _ _ hm _ _ hs | case5 _ _ _ _ hm _ _ hs =>
    exact Nat.le_add_left_of_le (Nat.le_of_lt (size_of_take_error hm hs))
  | case7 _ _ _ _ hm _ _ hs | case9 _ _ _ _ hm _ _ hs =>
    exact Nat.le_add_left_of_le (Nat.le_of_lt (size_of_step_error hm hs))
  | case4 _ _ _ _ hm _ hs ih =>
    have := size_of_take hm hs
    rw [Lookahead.total_nil] at ih
    omega
  | case6 _ _ _ _ hm _ hs ih =>
    have := size_of_step hm hs
    omega
  | case8 _ deferred _ _ _ _ hs ih => exact Nat.le_trans ih (size_of_defer deferred hs)

/-- A run that takes something first leaves less than it found. -/
theorem size_run_nil_lt {s s' : Scanner} (st : State) (deferred : List Lookahead)
    (h : s'.size < s.size) :
    (finalState (run st [] s')).size < Lookahead.total deferred + s.size := by
  have := size_run_le st [] s'
  rw [Lookahead.total_nil] at this
  omega

/-- A run that skips something first leaves less than it found. -/
theorem size_run_lt {s s' : Scanner} (st : State) (deferred : List Lookahead)
    (h : s'.size < s.size) :
    (finalState (run st deferred s')).size < Lookahead.total deferred + s.size := by
  have := size_run_le st deferred s'
  omega

/-- A run that begins with nothing taken and succeeds has taken something. -/
theorem size_of_run_untaken {st : State} {deferred : List Lookahead} {s s' : Scanner} {l : Lexeme}
    (hst : st.Untaken) (h : run st deferred s = .ok l s') :
    s'.size < Lookahead.total deferred + s.size := by
  fun_induction run st deferred s with
  | case1 => simp [conclude, State.accepting_of_untaken hst] at h
  | case2 _ _ _ _ hm _ hs =>
    injection h with _ h
    rw [← h]
    exact Nat.lt_add_left _ (size_of_take hm hs)
  | case4 _ deferred _ st' hm _ hs =>
    have hlt := size_run_nil_lt st' deferred (size_of_take hm hs)
    rwa [h] at hlt
  | case6 _ deferred _ st' hm _ hs =>
    have hlt := size_run_lt st' deferred (size_of_step hm hs)
    rwa [h] at hlt
  | case8 _ deferred _ _ hm _ hs ih =>
    obtain ⟨c, -, hnext⟩ := codePoint_of_move hm
    exact Nat.lt_of_lt_of_le (ih (State.untaken_of_defer hst hnext) h) (size_of_defer deferred hs)
  | case3 | case5 | case7 | case9 => cases h

/-- Reading a token never leaves more input. -/
theorem keeps_recognize (r : Recognizer) : Keeps size (recognize r) := by
  intro s
  simpa [recognize] using size_run_le (.start r) [] s.clear

/-- Reading a token that may not be empty uses input up. -/
theorem spends_recognize {r : Recognizer} (hr : r.nullable = false) :
    Spends size (recognize r) :=
  ⟨keeps_recognize r, fun s l s' h => by
    simpa using size_of_run_untaken (Or.inl ⟨r, rfl, hr⟩) h⟩

/-! ## Failing tokens -/

/-- A run fails with less input left, or at a code point: one that was given back, or the one at
which the run began. -/
theorem size_of_run_error {st : State} {deferred : List Lookahead} {s s' : Scanner} {e : LexError}
    (hd : ∀ l ∈ deferred, l.codePoint?.isSome) (hs : deferred ≠ [] ∨ ¬ s.atEnd)
    (h : run st deferred s = .error e s') :
    s'.size < Lookahead.total deferred + s.size ∨ ¬ s'.atEnd := by
  fun_induction run st deferred s with
  | case1 st deferred s hm =>
    unfold conclude at h
    split at h
    · cases h
    · injection h with _ h
      subst h
      -- What was deferred is given back, so that the first of it is current again.
      cases deferred with
      | nil => exact Or.inr (hs.resolve_left (· rfl))
      | cons first rest =>
        have := hd first List.mem_cons_self
        exact Or.inr (by simpa [giveBack, atEnd, Option.isSome_iff_ne_none] using this)
  | case2 => cases h
  | case3 _ _ _ _ hm _ _ hs₁ | case5 _ _ _ _ hm _ _ hs₁ =>
    injection h with _ h
    rw [← h]
    exact Or.inl (Nat.lt_add_left _ (size_of_take_error hm hs₁))
  | case7 _ _ _ _ hm _ _ hs₁ | case9 _ _ _ _ hm _ _ hs₁ =>
    injection h with _ h
    rw [← h]
    exact Or.inl (Nat.lt_add_left _ (size_of_step_error hm hs₁))
  | case4 _ deferred _ st' hm _ hs₁ =>
    -- What is taken is never given back.
    have hlt := size_run_nil_lt st' deferred (size_of_take hm hs₁)
    rw [h] at hlt
    exact Or.inl hlt
  | case6 _ deferred _ st' hm _ hs₁ =>
    have hlt := size_run_lt st' deferred (size_of_step hm hs₁)
    rw [h] at hlt
    exact Or.inl hlt
  | case8 _ deferred _ _ hm _ hs₁ ih =>
    -- What is deferred may all be given back, and then it begins with a code point.
    obtain ⟨c, hc, -⟩ := codePoint_of_move hm
    refine (ih (fun l hl => ?_) (Or.inl (by simp)) h).imp_left
      (Nat.lt_of_lt_of_le · (size_of_defer deferred hs₁))
    rcases List.mem_append.1 hl with hl | hl
    · exact hd l hl
    · rw [List.mem_singleton.1 hl, hc]
      rfl

/-- A token that fails leaves less input, or the code point that could not begin it. -/
theorem size_of_recognize_error {r : Recognizer} {s s' : Scanner} {e : LexError}
    (hs : ¬ s.atEnd) (h : recognize r s = .error e s') : s'.size < s.size ∨ ¬ s'.atEnd := by
  have hrun : run (.start r) [] s.clear = .error e s' := h
  have hclear : ¬ s.clear.atEnd := hs
  refine (size_of_run_error ?_ (Or.inr hclear) hrun).imp_left fun hlt => ?_
  · exact fun _ hl => by cases hl
  · simpa using hlt

/-- A run of blanks fails only in a step, that over a blank behind which nothing can be decoded,
with less input left. -/
theorem step_of_run_blank_error {st : State} {deferred : List Lookahead} {s s' : Scanner}
    {e : LexError} (hst : st.Blank) (h : run st deferred s = .error e s') :
    ∃ t, step t = .error e s' ∧ s'.size < s.size := by
  fun_induction run st deferred s with
  | case1 => simp [conclude, State.accepting_of_blank hst] at h
  | case2 | case3 | case4 | case5 | case8 | case9 =>
    obtain ⟨c, hc, hnext⟩ := codePoint_of_move ‹_›
    obtain ⟨st', hm, -⟩ := State.skips_of_blank hst hnext
    cases hm
  | case6 _ _ _ _ hm _ hs ih =>
    obtain ⟨c, hc, hnext⟩ := codePoint_of_move hm
    obtain ⟨st', hskip, hst'⟩ := State.skips_of_blank hst hnext
    injection hskip with hskip
    obtain ⟨t, hstep, hlt⟩ := ih (hskip ▸ hst') h
    exact ⟨t, hstep, Nat.lt_trans hlt (size_of_step hm hs)⟩
  | case7 _ _ s _ hm _ _ hs =>
    injection h with he hs'
    subst he hs'
    exact ⟨s, hs, size_of_step_error hm hs⟩

/-- Passing over blanks fails with less input left. -/
theorem size_of_blank_error {s s' : Scanner} {e : LexError}
    (h : recognize .blank s = .error e s') : s'.size < s.size := by
  obtain ⟨t, -, hlt⟩ := step_of_run_blank_error (Or.inl rfl) h
  simpa using hlt

end RdfTurtle.Scanner
