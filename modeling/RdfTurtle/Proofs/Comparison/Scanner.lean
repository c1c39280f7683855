import Mathlib.Data.List.Forall2
import RdfTurtle.Proofs.Likeness
import RdfTurtle.Proofs.Recognition.Families

/-! # Comparing two scanners

Two scanners over inputs that correspond read alike tokens, step for step. One input may be longer
than the other: then the runs part where the first input ends, and the first scanner is spent from
there on.

* **`Comparison`** — how inputs correspond, and what is known where the runs part.
* **`Scanner.Spent`** — a scanner that has met the end and holds at most dots before it.
* **`Comparison.Scanners`** — scanners that correspond.
* **`Comparison.follows_recognize`**, **`Comparison.follows_skipPast`** — they read alike tokens and
  pass alike code points, unless they part. -/

namespace RdfTurtle

/-! ## Spent scanners -/

namespace Scanner

/-- The lookahead is a dot. -/
def IsDot (l : Lookahead) : Prop := l.codePoint? = some ('.' : CodePoint)

/-- The scanner has met the end of input, and only dots are read again before it. -/
def Spent (s : Scanner) : Prop :=
  ∃ dots last, s.queue = dots ++ [last] ∧ (∀ l ∈ dots, IsDot l) ∧ last.codePoint? = none

/-- A spent scanner stands before a dot, unless it is at the end. -/
theorem Spent.isDot {s : Scanner} (h : s.Spent) (hend : ¬ s.atEnd) : IsDot s.current := by
  obtain ⟨dots, last, hqueue, hdots, hlast⟩ := h
  cases dots with
  | nil =>
    injection hqueue with hcurrent _
    exact absurd (by rw [atEnd, hcurrent, hlast]; rfl) hend
  | cons dot dots =>
    injection hqueue with hcurrent _
    rw [hcurrent]
    exact hdots dot List.mem_cons_self

/-- What is at the end after a step is spent. -/
theorem spent_of_atEnd {s : Scanner} (hputBack : s.putBack = []) (h : s.atEnd) : s.Spent :=
  ⟨[], s.current, by rw [queue, hputBack]; rfl, List.forall_mem_nil _,
    Option.isNone_iff_eq_none.1 h⟩

/-- A spent scanner that reads a dot again is spent after it. -/
theorem Spent.step {s : Scanner} (h : s.Spent) (hend : ¬ s.atEnd) :
    (finalState (step s)).Spent := by
  obtain ⟨dots, last, hqueue, hdots, hlast⟩ := h
  cases dots with
  | nil =>
    injection hqueue with hcurrent _
    exact absurd (by rw [atEnd, hcurrent, hlast]; rfl) hend
  | cons dot dots =>
    injection hqueue with _ hputBack
    refine ⟨dots, last, ?_, fun l hl => hdots l (List.mem_cons_of_mem dot hl), hlast⟩
    -- The next lookahead is held already: another dot or the end.
    cases dots with
    | nil => rw [step_of_putBack hputBack]; rfl
    | cons => rw [step_of_putBack hputBack]; rfl

/-- So it is if it takes the dot. -/
theorem Spent.take {s : Scanner} (deferred : List Lookahead) (h : s.Spent) (hend : ¬ s.atEnd) :
    (finalState (take deferred s)).Spent :=
  Spent.step (s := s.keep (deferred ++ [s.current])) h hend

/-- Giving dots back leaves it spent. -/
theorem Spent.giveBack {s : Scanner} {ls : List Lookahead} (h : s.Spent)
    (hls : ∀ l ∈ ls, IsDot l) : (s.giveBack ls).Spent := by
  obtain ⟨dots, last, hqueue, hdots, hlast⟩ := h
  refine ⟨ls ++ dots, last, ?_, fun l hl => ?_, hlast⟩
  · rw [queue_giveBack, hqueue, List.append_assoc]
  · exact (List.mem_append.1 hl).elim (hls l) (hdots l)

/-- A spent scanner stays spent when a code point is passed. -/
theorem Spent.advance {s : Scanner} (h : s.Spent) : (finalState (advance s)).Spent := by
  unfold Scanner.advance
  split
  · exact h
  · exact h.step ‹_›

/-- A scanner that has a move stands before a code point. -/
theorem not_atEnd_of_move {s : Scanner} {st : State} {m : Move} (h : s.move? st = some m) :
    ¬ s.atEnd := by
  obtain ⟨c, hc, -⟩ := codePoint_of_move h
  simp [atEnd, hc]

/-- At the end there is no move. -/
theorem move?_of_atEnd {s : Scanner} (hend : s.atEnd) (st : State) : s.move? st = none := by
  rw [move?, Option.isNone_iff_eq_none.1 hend]
  rfl

/-- Where no move is left and no token is complete the run fails. -/
theorem error_of_stuck {st : State} {s : Scanner} (hm : s.move? st = none)
    (hst : st.accepting = none) (deferred : List Lookahead) :
    ∃ e s', run st deferred s = .error e s' := by
  rw [run_of_none hm, conclude, hst]
  exact ⟨_, _, rfl⟩

/-- Only dots are deferred. -/
theorem isDot_of_defer {s : Scanner} {st st' : State} {deferred : List Lookahead}
    (hdeferred : ∀ l ∈ deferred, IsDot l) (h : s.move? st = some (.defer st')) :
    ∀ l ∈ deferred ++ [s.current], IsDot l := by
  obtain ⟨c, hc, hnext⟩ := codePoint_of_move h
  intro l hl
  rcases List.mem_append.1 hl with hl | hl
  · exact hdeferred l hl
  · rw [List.mem_singleton.1 hl, IsDot, hc, State.dot_of_defer hnext]

/-- A spent scanner stays spent while the automaton runs. -/
theorem Spent.run {st : State} {deferred : List Lookahead} {s : Scanner} (h : s.Spent)
    (hdeferred : ∀ l ∈ deferred, IsDot l) : (finalState (run st deferred s)).Spent := by
  -- Where a code point is taken the deferred ones are taken with it; where it is skipped or
  -- deferred the scanner only steps.
  fun_induction Scanner.run st deferred s with
  | case1 st deferred s hm =>
    have hgiven := h.giveBack hdeferred
    unfold conclude
    split <;> exact hgiven
  | case2 _ deferred _ _ hm _ hs | case3 _ deferred _ _ hm _ _ hs
  | case5 _ deferred _ _ hm _ _ hs =>
    have hstep := h.take deferred (not_atEnd_of_move hm)
    rw [hs] at hstep
    exact hstep
  | case4 _ deferred _ _ hm _ hs ih =>
    have hstep := h.take deferred (not_atEnd_of_move hm)
    rw [hs] at hstep
    exact ih hstep (List.forall_mem_nil _)
  | case7 _ _ _ _ hm _ _ hs | case9 _ _ _ _ hm _ _ hs =>
    have hstep := h.step (not_atEnd_of_move hm)
    rw [hs] at hstep
    exact hstep
  | case6 _ _ _ _ hm _ hs ih =>
    have hstep := h.step (not_atEnd_of_move hm)
    rw [hs] at hstep
    exact ih hstep hdeferred
  | case8 _ _ _ _ hm _ hs ih =>
    have hstep := h.step (not_atEnd_of_move hm)
    rw [hs] at hstep
    exact ih hstep (isDot_of_defer hdeferred hm)

/-- So it does when a token is read. -/
theorem Spent.recognize {s : Scanner} (h : s.Spent) (r : Recognizer) :
    (finalState (recognize r s)).Spent :=
  Spent.run (s := s.clear) h (List.forall_mem_nil _)

/-- A spent scanner stays spent when code points are passed. -/
theorem Spent.skipPast {s : Scanner} (h : s.Spent) (stop : CodePoint) :
    (finalState (skipPast stop s)).Spent := by
  fun_induction Scanner.skipPast stop s with
  | case1 s hend => exact h
  | case2 s hend e s' ha | case3 s hend s' ha hstop =>
    have hadvance := h.advance
    rw [ha] at hadvance
    exact hadvance
  | case4 s hend s' ha hstop ih =>
    have hadvance := h.advance
    rw [ha] at hadvance
    exact ih hadvance

/-- The end of input has been seen. -/
def metEnd (s : Scanner) : Bool := s.queue.any fun l => l.codePoint?.isNone

/-- A spent scanner has seen the end. -/
theorem metEnd_of_spent {s : Scanner} (h : s.Spent) : s.metEnd = true := by
  obtain ⟨dots, last, hqueue, -, hlast⟩ := h
  rw [metEnd, List.any_eq_true]
  refine ⟨last, ?_, by rw [hlast]; rfl⟩
  rw [hqueue]
  exact List.mem_append_right dots List.mem_cons_self

/-- A scanner that has not seen the end is not at the end. -/
theorem not_atEnd_of_metEnd {s : Scanner} (h : s.metEnd = false) : ¬ s.atEnd := by
  rw [metEnd, queue, List.any_cons, Bool.or_eq_false_iff] at h
  exact Bool.not_eq_true _ ▸ h.1

/-- With nothing held the end is seen where the scanner is at it. -/
theorem metEnd_of_putBack {s : Scanner} (hputBack : s.putBack = []) (hend : ¬ s.atEnd) :
    s.metEnd = false := by
  rw [metEnd, queue, hputBack, List.any_cons, List.any_nil, Bool.or_false]
  exact Bool.not_eq_true _ ▸ hend

/-- The end is seen first by a step that comes to it, with nothing held. -/
theorem metEnd_of_step {s s' : Scanner} (h : s.metEnd = false) (hs : step s = .ok () s') :
    s'.metEnd = false ∨ s'.atEnd ∧ s'.Spent := by
  rcases of_step_ok hs with ⟨current, putBack, hp, rfl⟩ | ⟨hp, current, decoder, -, rfl⟩
  · rw [metEnd, queue, hp, List.any_cons, Bool.or_eq_false_iff] at h
    exact Or.inl h.2
  · cases hcode : current.codePoint? with
    | some c =>
      refine Or.inl ?_
      rw [metEnd, queue, hp, List.any_cons, List.any_nil, hcode]
      rfl
    | none =>
      have hend : ({ s with decoder, current } : Scanner).atEnd := by
        rw [atEnd, hcode]
        rfl
      exact Or.inr ⟨hend, spent_of_atEnd hp hend⟩

/-- A step changes nothing of the token. -/
theorem frame_step (s : Scanner) :
    (finalState (step s)).text = s.text ∧ (finalState (step s)).start = s.start ∧
      (finalState (step s)).options = s.options := by
  unfold step
  split
  · exact ⟨rfl, rfl, rfl⟩
  · split <;> exact ⟨rfl, rfl, rfl⟩

end Scanner

/-! ## Comparisons -/

/-- How two scanners are compared. `Inputs` relates what they are still to read, whatever they have
accumulated; `Parts` is what is known of the second where the first has come to its end and the
second goes on; `Recoveries` relates whether parsers go on after errors. -/
structure Comparison extends Likeness where
  Inputs : Scanner → Scanner → Prop
  Parts : Option DocumentError → Prop
  Recoveries : Bool → Bool → Prop
  total : ∀ p, ∃ p', Positions p p'
  push : ∀ ⦃t t' c⦄, Texts t t' → Admits c → Texts (t.push c) (t'.push c)
  chars : ∀ ⦃t t'⦄, Texts t t' → t.chars = t'.chars
  onward : Parts none → ∀ o, Parts o
  current : ∀ ⦃s s'⦄, Inputs s s' → toLikeness.Lookaheads s.current s'.current
  retext : ∀ ⦃s s'⦄, Inputs s s' → ∀ text start text' start',
    Inputs { s with text, start } { s' with text := text', start := start' }
  giveBack : ∀ ⦃s s' ls ls'⦄, Inputs s s' → List.Forall₂ toLikeness.Lookaheads ls ls' →
    (∀ l ∈ ls, Scanner.IsDot l) → Inputs (s.giveBack ls) (s'.giveBack ls')
  step : ∀ ⦃s s'⦄, Inputs s s' → ¬ s.atEnd →
    AlikeUnless ⟨Scanner.Spent, fun o => Parts (o.map .lex), fun h _ => onward h _⟩
      toLikeness.LexErrors Inputs Eq s.step s'.step

namespace Comparison

variable {c : Comparison}

/-- How two scanners may part: the first is spent. -/
def scanning (c : Comparison) : Parting Scanner LexError :=
  ⟨Scanner.Spent, fun o => c.Parts (o.map .lex), fun h _ => c.onward h _⟩

/-- Corresponding scanners, which check IRI references alike and begin texts alike. -/
structure Scanners (c : Comparison) (s s' : Scanner) : Prop where
  input : c.Inputs s s'
  text : c.Texts s.text s'.text
  start : c.Positions s.start s'.start
  iri : s.options.iri = s'.options.iri
  empty : c.Texts (.empty s.options.encoding) (.empty s'.options.encoding)

/-! ## Steps -/

/-- A step leads to corresponding scanners. -/
theorem alike_step {s s' : Scanner} (h : c.Scanners s s') (hend : ¬ s.atEnd) :
    AlikeUnless c.scanning c.LexErrors c.Scanners Eq s.step s'.step := by
  have hframe := s.frame_step
  have hframe' := s'.frame_step
  -- A step changes the input only.
  have hscanners {t t' : Scanner} (ht : finalState s.step = t) (ht' : finalState s'.step = t')
      (hinput : c.Inputs t t') : c.Scanners t t' := by
    rw [ht] at hframe
    rw [ht'] at hframe'
    obtain ⟨htext, hstart, hoptions⟩ := hframe
    obtain ⟨htext', hstart', hoptions'⟩ := hframe'
    exact {
      input := hinput
      text := by rw [htext, htext']; exact h.text
      start := by rw [hstart, hstart']; exact h.start
      iri := by rw [hoptions, hoptions']; exact h.iri
      empty := by rw [hoptions, hoptions']; exact h.empty }
  refine (c.step h.input hend).imp_left fun halike => ?_
  cases hs : s.step with
  | ok u t =>
    rw [hs] at halike
    obtain ⟨u', t', hs', hu, ht⟩ := halike.of_ok
    rw [hs']
    exact .ok hu (hscanners (by rw [hs]; rfl) (by rw [hs']; rfl) ht)
  | error e t =>
    rw [hs] at halike
    obtain ⟨e', t', hs', he, ht⟩ := halike.of_error
    rw [hs']
    exact .error he (hscanners (by rw [hs]; rfl) (by rw [hs']; rfl) ht)

/-- Alike texts stay alike when alike lookaheads are appended. -/
theorem texts_append {ls ls' : List Lookahead} (hls : List.Forall₂ c.Lookaheads ls ls')
    {t t' : Text} (ht : c.Texts t t') :
    c.Texts (t.append (ls.filterMap Lookahead.codePoint?))
      (t'.append (ls'.filterMap Lookahead.codePoint?)) := by
  induction hls generalizing t t' with
  | nil => exact ht
  | @cons l l' rest rest' hl _ ih =>
    rw [List.filterMap_cons, List.filterMap_cons, ← hl.codePoint]
    cases hcode : l.codePoint? with
    | none => exact ih ht
    | some x => exact ih (c.push ht (hl.admits x hcode))

/-- Keeping alike lookaheads leads to corresponding scanners. -/
theorem scanners_keep {s s' : Scanner} {ls ls' : List Lookahead} (h : c.Scanners s s')
    (hls : List.Forall₂ c.Lookaheads ls ls') : c.Scanners (s.keep ls) (s'.keep ls') :=
  { h with input := c.retext h.input _ _ _ _, text := texts_append hls h.text }

/-- So does clearing the text of a token. -/
theorem scanners_clear {s s' : Scanner} (h : c.Scanners s s') : c.Scanners s.clear s'.clear :=
  { h with
    input := c.retext h.input _ _ _ _
    text := h.empty
    start := (c.current h.input).position }

/-- Taking deferred lookaheads and the current one leads to corresponding scanners. -/
theorem alike_take {s s' : Scanner} {ls ls' : List Lookahead} (h : c.Scanners s s')
    (hls : List.Forall₂ c.Lookaheads ls ls') (hend : ¬ s.atEnd) :
    AlikeUnless c.scanning c.LexErrors c.Scanners Eq (s.take ls) (s'.take ls') :=
  alike_step (scanners_keep h (List.rel_append hls (.cons (c.current h.input) .nil))) hend

/-- So does giving alike dots back. -/
theorem scanners_giveBack {s s' : Scanner} {ls ls' : List Lookahead} (h : c.Scanners s s')
    (hls : List.Forall₂ c.Lookaheads ls ls') (hdots : ∀ l ∈ ls, Scanner.IsDot l) :
    c.Scanners (s.giveBack ls) (s'.giveBack ls') := by
  have hinput := c.giveBack h.input hls hdots
  cases hls with
  | nil => exact h
  | cons => exact { h with input := hinput }

/-- What is not expected is not expected at corresponding places. -/
theorem lexErrors_unexpected {s s' : Scanner} (h : c.Scanners s s') :
    c.LexErrors s.unexpected s'.unexpected := by
  have hcurrent := c.current h.input
  unfold Scanner.unexpected
  rw [← hcurrent.codePoint]
  cases s.current.codePoint? with
  | none => exact ⟨rfl, hcurrent.position⟩
  | some x => exact ⟨rfl, hcurrent.position⟩

/-! ## Tokens -/

/-- Corresponding scanners are at the end together. -/
theorem atEnd_eq {s s' : Scanner} (h : c.Scanners s s') : s.atEnd = s'.atEnd := by
  unfold Scanner.atEnd
  rw [(c.current h.input).codePoint]

/-- They make the same move. -/
theorem move_eq {s s' : Scanner} (h : c.Scanners s s') (st : State) : s.move? st = s'.move? st := by
  unfold Scanner.move?
  rw [(c.current h.input).codePoint, h.iri]

/-- They conclude a token alike, or reject it alike. -/
theorem alike_conclude {s s' : Scanner} (st : State) {ls ls' : List Lookahead}
    (h : c.Scanners s s') (hls : List.Forall₂ c.Lookaheads ls ls')
    (hdots : ∀ l ∈ ls, Scanner.IsDot l) :
    Alike c.LexErrors c.Scanners c.Lexemes (Scanner.conclude st ls s)
      (Scanner.conclude st ls' s') := by
  have hgiven := scanners_giveBack h hls hdots
  unfold Scanner.conclude
  cases st.accepting with
  | none => exact .error (lexErrors_unexpected h) hgiven
  | some p => exact .ok ⟨rfl, h.text, h.start⟩ hgiven

/-- Runs of the automaton from corresponding scanners are alike, unless they part. The induction is
on the input that is left to the first of them. -/
theorem alike_run (st : State) {ls ls' : List Lookahead} {s s' : Scanner} (h : c.Scanners s s')
    (hls : List.Forall₂ c.Lookaheads ls ls') (hdots : ∀ l ∈ ls, Scanner.IsDot l) :
    AlikeUnless c.scanning c.LexErrors c.Scanners c.Lexemes (Scanner.run st ls s)
      (Scanner.run st ls' s') := by
  induction hn : s.size using Nat.strongRecOn generalizing st ls ls' s s' with
  | ind n ih =>
    subst hn
    cases hm : s.move? st with
    | none =>
      rw [Scanner.run_of_none hm, Scanner.run_of_none (move_eq h st ▸ hm)]
      exact Or.inl (alike_conclude st h hls hdots)
    -- The move is the same for both. They can part only in the step that it makes, and what has
    -- parted there stays apart.
    | some m =>
      have hm' : s'.move? st = some m := move_eq h st ▸ hm
      have hend := Scanner.not_atEnd_of_move hm
      cases m with
      | finish p =>
        rw [Scanner.run_of_finish hm, Scanner.run_of_finish hm']
        apply (alike_take h hls hend).bind
        · exact fun _ _ ht => ht
        · exact fun _ _ _ _ _ _ ht => Or.inl (.ok ⟨rfl, ht.text, ht.start⟩ ht)
      | take st' =>
        rw [Scanner.run_of_take hm, Scanner.run_of_take hm']
        apply (alike_take h hls hend).bind
        · exact fun _ _ ht => Scanner.Spent.run ht (List.forall_mem_nil _)
        · intro _ _ t t' hs _ ht
          exact ih _ (Scanner.size_of_take hm hs) st' ht .nil (List.forall_mem_nil _) rfl
      | skip st' =>
        rw [Scanner.run_of_skip hm, Scanner.run_of_skip hm']
        apply (alike_step h hend).bind
        · exact fun _ _ ht => Scanner.Spent.run ht hdots
        · intro _ _ t t' hs _ ht
          exact ih _ (Scanner.size_of_step hm hs) st' ht hls hdots rfl
      | defer st' =>
        rw [Scanner.run_of_defer hm, Scanner.run_of_defer hm']
        have hdots' := Scanner.isDot_of_defer hdots hm
        apply (alike_step h hend).bind
        · exact fun _ _ ht => Scanner.Spent.run ht hdots'
        · intro _ _ t t' hs _ ht
          exact ih _ (Scanner.size_of_step hm hs) st' ht
            (List.rel_append hls (.cons (c.current h.input) .nil)) hdots' rfl

/-- Corresponding scanners read alike tokens, or fail alike, unless they part. -/
theorem follows_recognize (r : Recognizer) :
    Follows c.scanning c.LexErrors c.Scanners c.Lexemes (Scanner.recognize r)
      (Scanner.recognize r) :=
  ⟨fun _ hs => hs.recognize r,
    fun _ _ h => alike_run (.start r) (scanners_clear h) .nil (List.forall_mem_nil _)⟩

/-! ## Moving on -/

/-- They pass over a code point alike, unless they part. -/
theorem alike_advance {s s' : Scanner} (h : c.Scanners s s') :
    AlikeUnless c.scanning c.LexErrors c.Scanners Eq s.advance s'.advance := by
  unfold Scanner.advance
  rw [← atEnd_eq h]
  split
  · exact Or.inl (.error ⟨rfl, (c.current h.input).position⟩ h)
  · exact alike_step h ‹_›

/-- They accumulate a code point alike, unless they part. -/
theorem alike_accumulate {s s' : Scanner} (h : c.Scanners s s') :
    AlikeUnless c.scanning c.LexErrors c.Scanners Eq s.accumulate s'.accumulate := by
  unfold Scanner.accumulate
  rw [← atEnd_eq h]
  split
  · exact Or.inl (.error ⟨rfl, (c.current h.input).position⟩ h)
  · exact alike_take h .nil ‹_›

/-- Moving past a code point leads to corresponding scanners, unless they part. -/
theorem follows_skipPast (stop : CodePoint) :
    Follows c.scanning c.LexErrors c.Scanners Eq (Scanner.skipPast stop)
      (Scanner.skipPast stop) := by
  refine ⟨fun _ hs => hs.skipPast stop, fun s s' h => ?_⟩
  induction hn : s.size using Nat.strongRecOn generalizing s s' with
  | ind n ih =>
    subst hn
    by_cases hend : s.atEnd
    · rw [Scanner.skipPast_of_atEnd stop hend, Scanner.skipPast_of_atEnd stop (atEnd_eq h ▸ hend)]
      exact Or.inl (.ok rfl h)
    · rw [Scanner.skipPast_of_not_atEnd stop hend,
        Scanner.skipPast_of_not_atEnd stop (atEnd_eq h ▸ hend),
        ← (c.current h.input).codePoint]
      apply (alike_advance h).bind
      · intro _ t ht
        split
        · exact ht
        · exact ht.skipPast stop
      · intro _ _ t t' hs _ ht
        split
        · exact Or.inl (.ok rfl ht)
        · have hlt := Scanner.size_advance_lt hend
          rw [hs] at hlt
          exact ih _ hlt t t' ht rfl

end Comparison

end RdfTurtle
