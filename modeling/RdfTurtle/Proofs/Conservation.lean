import RdfTurtle.Proofs.Decoding
import RdfTurtle.Proofs.Failures
import RdfTurtle.Proofs.Recognition.Endings

/-! # What a recognizer does with its input

Reading a token takes code points from the front of what is to come into the text of the token. The
rest is still to come, with what was deferred in its old place.

* **`Prospect.drop`**, **`Lookahead.spell`** — the rest of a prospect, and the text of its front.
* **`Prospect.Rejects`** — the error at the head of a prospect.
* **`Scanner.Consumes`**, **`Scanner.consumes_run`** — what a run of the automaton has taken, and
  what it leaves.
* **`Scanner.recognize_conserves`** — no code point is lost, read twice or moved. -/

namespace RdfTurtle

namespace Lookahead

/-- The code points of lookaheads. -/
def codes (ls : List Lookahead) : List CodePoint := ls.filterMap Lookahead.codePoint?

/-- Lookaheads in sequence have their code points in sequence. -/
@[simp] theorem codes_append (ls ks : List Lookahead) : codes (ls ++ ks) = codes ls ++ codes ks :=
  List.filterMap_append

/-- A single lookahead has its own code point. -/
theorem codes_singleton {l : Lookahead} {c : CodePoint} (h : l.codePoint? = some c) :
    codes [l] = [c] := by
  rw [codes, List.filterMap_cons, h]
  rfl

/-- Of lookaheads that are code points there are as many code points. -/
theorem length_codes {ls : List Lookahead} (h : ∀ l ∈ ls, l.codePoint?.isSome) :
    (codes ls).length = ls.length := List.filterMap_length_eq_length.2 h

/-- The text of lookaheads: the encoding of their code points. -/
def spell (encoding : TextEncoding) (ls : List Lookahead) : Text :=
  Text.encode encoding (codes ls)

end Lookahead

namespace Prospect

/-- The prospect behind the first `n` lookaheads. -/
def drop (n : Nat) (p : Prospect) : Prospect := { p with lookaheads := p.lookaheads.drop n }

/-- Where the prospect begins. -/
def position (p : Prospect) : Position :=
  match p.lookaheads, p.ending with
  | l :: _, _ => l.position
  | [], .ok position => position
  | [], .error e => e.position

/-- The error of a token that cannot go on where the prospect begins: with the code point there, or
because the input ends there. -/
inductive Rejects : Prospect → LexError → Prop
  | character {c : CodePoint} {position : Position} {ls : List Lookahead}
    {ending : Except LexError Position} :
    Rejects ⟨⟨some c, position⟩ :: ls, ending⟩ ⟨.unexpectedCharacter c, position⟩
  | ended {position : Position} : Rejects ⟨[], .ok position⟩ ⟨.prematureEnd, position⟩

/-- The fault is that of the code points to come. -/
theorem Rejects.fault_eq {p : Prospect} {e : LexError} (h : p.Rejects e) :
    e.fault = .unexpected (Lookahead.codes p.lookaheads) := by
  cases h <;> rfl

end Prospect

namespace Scanner

/-- Every lookahead that is to come is a code point. -/
theorem isSome_of_mem_prospect {s : Scanner} {l : Lookahead} (hl : l ∈ s.prospect.lookaheads) :
    l.codePoint?.isSome := by
  have hcurrent {s : Scanner} (hend : ¬ s.atEnd) : s.current.codePoint?.isSome := by
    rwa [atEnd, Option.isNone_iff_eq_none, ← ne_eq, ← Option.isSome_iff_ne_none] at hend
  induction s using induction_coming with
  | ended s _ hprospect =>
    rw [hprospect] at hl
    cases hl
  | more s s' hend _ hprospect ih =>
    rw [hprospect] at hl
    rcases List.mem_cons.1 hl with rfl | hl
    · exact hcurrent hend
    · exact ih hl
  | failing s _ _ hend _ hprospect =>
    rw [hprospect] at hl
    rw [List.mem_singleton.1 hl]
    exact hcurrent hend

/-- The lookahead is the first code point to come, or the end. -/
theorem codePoint_current (s : Scanner) :
    s.current.codePoint? = (Lookahead.codes s.prospect.lookaheads).head? := by
  cases s.coming with
  | ended hend hprospect =>
    rw [hprospect]
    exact Option.isNone_iff_eq_none.1 hend
  | more hend _ _ hprospect | failing hend _ _ _ hprospect =>
    obtain ⟨c, hc⟩ := codePoint_of_not_atEnd hend
    rw [hprospect, Lookahead.codes, List.filterMap_cons, hc]
    rfl

/-- A scanner stands where what is to come begins. -/
theorem position_prospect (s : Scanner) : s.prospect.position = s.current.position := by
  cases s.coming with
  | ended _ hprospect | more _ _ _ hprospect | failing _ _ _ _ hprospect =>
    rw [hprospect]
    rfl

/-- A token is rejected where what is to come begins. -/
theorem rejects_unexpected (s : Scanner) : s.prospect.Rejects s.unexpected := by
  rcases hcurrent : s.current with ⟨_ | c, position⟩
  · have hend : s.atEnd := by
      rw [atEnd, hcurrent]
      rfl
    rw [prospect_of_atEnd hend, unexpected, hcurrent]
    exact .ended
  · have hend : ¬ s.atEnd := by
      rw [atEnd, hcurrent]
      exact Bool.false_ne_true
    obtain ⟨ls, hls⟩ := lookaheads_of_not_atEnd hend
    have hprospect : s.prospect = ⟨⟨some c, position⟩ :: ls, s.prospect.ending⟩ := by
      rw [← hcurrent, ← hls]
    rw [hprospect, unexpected, hcurrent]
    exact .character

/-- What is given back changes nothing of the token. -/
theorem frame_giveBack (s : Scanner) (ls : List Lookahead) :
    (s.giveBack ls).text = s.text ∧ (s.giveBack ls).start = s.start := by
  cases ls <;> exact ⟨rfl, rfl⟩

/-- What is taken becomes the last of the text, and what comes next is behind it. -/
theorem taken {s s' : Scanner} {deferred : List Lookahead} (hend : ¬ s.atEnd)
    (h : take deferred s = .ok () s') :
    s.prospect = ⟨s.current :: s'.prospect.lookaheads, s'.prospect.ending⟩ ∧
      s'.text = s.text.append (Lookahead.codes (deferred ++ [s.current])) ∧
      s'.start = s.start ∧ s'.options = s.options := by
  have hprospect := prospect_of_step (s := s.keep (deferred ++ [s.current])) hend h
  have hframe := (s.keep (deferred ++ [s.current])).frame_step
  rw [prospect_keep] at hprospect
  have hstep : step (s.keep (deferred ++ [s.current])) = .ok () s' := h
  rw [hstep] at hframe
  exact ⟨hprospect, hframe⟩

/-! ## Runs -/

/-- What comes of a token that began at `start` and has come to the state `st`, with `ds` deferred,
`before` to come and `prior` taken so far. It takes a front of what is to come, by a path of the
automaton. If it is rejected, it got stuck: the dots deferred by then are to come again and stand
before what it cannot go on with. Otherwise the input fails. -/
inductive Consumes (iri : Strictness) (st : State) (ds : List CodePoint) (before : Prospect)
    (prior : Text) (start : Position) : EStateM.Result LexError Scanner Lexeme → Prop
  | accepted (kept rest : List Lookahead) {l : Lexeme} {s' : Scanner}
    (split : before.lookaheads = kept ++ rest) (left : s'.prospect = ⟨rest, before.ending⟩)
    (text : s'.text = prior.append (Lookahead.codes kept)) (spelled : l.text = s'.text)
    (position : l.position = start)
    (path : State.Path iri l.production st ds (Lookahead.codes kept)) :
    Consumes iri st ds before prior start (.ok l s')
  | rejected (kept dots rest : List Lookahead) {e : LexError} {s' : Scanner}
    (split : before.lookaheads = kept ++ (dots ++ rest)) (isDot : ∀ l ∈ dots, IsDot l)
    (few : dots.length ≤ 1)
    (left : s'.prospect = ⟨dots ++ rest, before.ending⟩)
    (text : s'.text = prior.append (Lookahead.codes kept))
    (rejects : Prospect.Rejects ⟨rest, before.ending⟩ e)
    (stuck : State.Stuck iri (Lookahead.codes rest) st ds (Lookahead.codes (kept ++ dots))) :
    Consumes iri st ds before prior start (.error e s')
  | failed {e : LexError} {s' : Scanner} (ending : before.ending = .error e) (hend : s'.atEnd) :
    Consumes iri st ds before prior start (.error e s')

section Consumes

variable {iri : Strictness} {st st' : State} {before : Prospect} {prior : Text} {start : Position}
variable {r : EStateM.Result LexError Scanner Lexeme}

/-- What is taken with what was deferred before it is consumed with what comes of the rest. -/
theorem Consumes.take {deferred rest : List Lookahead} {l : Lookahead} {c : CodePoint}
    {ending : Except LexError Position} (hc : l.codePoint? = some c)
    (hnext : st.next iri c = some (.take st'))
    (h : Consumes iri st' [] ⟨rest, ending⟩
      (prior.append (Lookahead.codes (deferred ++ [l]))) start r) :
    Consumes iri st (Lookahead.codes deferred) ⟨deferred ++ [l] ++ rest, ending⟩ prior start r := by
  have hcodes (kept : List Lookahead) : (prior.append (Lookahead.codes (deferred ++ [l]))).append
      (Lookahead.codes kept) = prior.append (Lookahead.codes (deferred ++ [l] ++ kept)) := by
    rw [← Text.append_append, Lookahead.codes_append (deferred ++ [l])]
  cases h with
  | accepted kept more split left text spelled position path =>
    refine .accepted (deferred ++ [l] ++ kept) more ?_ left (text.trans (hcodes kept)) spelled
      position ?_
    · rw [List.append_assoc (deferred ++ [l]), ← split]
    · rw [Lookahead.codes_append, Lookahead.codes_append, Lookahead.codes_singleton hc]
      exact .take hnext path
  | rejected kept dots more split isDot few left text rejects stuck =>
    refine .rejected (deferred ++ [l] ++ kept) dots more ?_ isDot few left
      (text.trans (hcodes kept)) rejects ?_
    · rw [List.append_assoc (deferred ++ [l]), ← split]
    · rw [List.append_assoc (deferred ++ [l]), Lookahead.codes_append, Lookahead.codes_append,
        Lookahead.codes_singleton hc]
      exact .take hnext stuck
  | failed ending hend => exact .failed ending hend

/-- What is deferred is consumed with what comes of the rest, or not at all. -/
theorem Consumes.defer {deferred : List Lookahead} {l : Lookahead} {c : CodePoint}
    (hc : l.codePoint? = some c) (hnext : st.next iri c = some (.defer st'))
    (h : Consumes iri st' (Lookahead.codes (deferred ++ [l])) before prior start r) :
    Consumes iri st (Lookahead.codes deferred) before prior start r := by
  rw [Lookahead.codes_append, Lookahead.codes_singleton hc] at h
  cases h with
  | accepted kept rest split left text spelled position path =>
    exact .accepted kept rest split left text spelled position (.defer hnext path)
  | rejected kept dots rest split isDot few left text rejects stuck =>
    exact .rejected kept dots rest split isDot few left text rejects (.defer hnext stuck)
  | failed ending hend => exact .failed ending hend

end Consumes

/-- Where a token ends what was deferred stands before the lookahead again, and nothing is taken. -/
theorem consumes_conclude {st : State} {deferred : List Lookahead} (s : Scanner)
    (hm : s.move? st = none) (hdots : ∀ l ∈ deferred, IsDot l)
    (hfew : st.MayDefer deferred.length) :
    Consumes s.options.iri st (Lookahead.codes deferred)
      ⟨deferred ++ s.prospect.lookaheads, s.prospect.ending⟩ s.text s.start
      (conclude st deferred s) := by
  have hleft := prospect_giveBack s hdots
  obtain ⟨htext, -⟩ := s.frame_giveBack deferred
  unfold conclude
  split
  · exact .accepted [] _ rfl hleft htext htext.symm rfl (.stop ‹_›)
  -- A token that is rejected has deferred the dot of a number at most.
  · next hincomplete =>
    have hone : deferred.length ≤ 1 := by
      rcases hfew with hnone | haccepting | ⟨-, hone⟩
      · omega
      · exact absurd hincomplete haccepting
      · omega
    refine .rejected [] _ _ rfl hdots hone hleft htext s.rejects_unexpected
      (.stop (fun c hc => ?_) hincomplete)
    rw [← codePoint_current] at hc
    exact Option.bind_eq_none_iff.1 hm c hc

/-- Where a code point ends a token it is taken, with what was deferred before it. -/
theorem consumes_finish {st : State} {deferred : List Lookahead} {p : Production} {s s' : Scanner}
    (hm : s.move? st = some (.finish p)) (hs : take deferred s = .ok () s') :
    Consumes s.options.iri st (Lookahead.codes deferred)
      ⟨deferred ++ s.prospect.lookaheads, s.prospect.ending⟩ s.text s.start
      (.ok (s'.lexeme p) s') := by
  obtain ⟨hprospect, htext, hstart, -⟩ := taken (not_atEnd_of_move hm) hs
  obtain ⟨c, hc, hnext⟩ := codePoint_of_move hm
  rw [hprospect, List.append_cons]
  refine .accepted (deferred ++ [s.current]) _ rfl rfl htext rfl hstart ?_
  rw [Lookahead.codes_append, Lookahead.codes_singleton hc]
  exact .finish hnext

/-- A run takes a front of what was deferred and what is to come, unless it passes over blanks. -/
theorem consumes_run (st : State) (deferred : List Lookahead) (s : Scanner)
    (hdots : ∀ l ∈ deferred, IsDot l) (hfew : st.MayDefer deferred.length)
    (hst : st.family ≠ some .blank) :
    Consumes s.options.iri st (Lookahead.codes deferred)
      ⟨deferred ++ s.prospect.lookaheads, s.prospect.ending⟩ s.text s.start
      (run st deferred s) := by
  fun_induction run st deferred s with
  | case1 st deferred s hm =>
    exact s.consumes_conclude hm hdots hfew
  | case2 st deferred s p hm s' hs =>
    exact consumes_finish hm hs
  | case4 st deferred s st' hm s' hs ih =>
    -- What was deferred is taken with a code point behind it, and the run goes on with nothing
    -- deferred.
    obtain ⟨hprospect, htext, hstart, hoptions⟩ := taken (not_atEnd_of_move hm) hs
    obtain ⟨c, hc, hnext⟩ := codePoint_of_move hm
    have htail := ih (List.forall_mem_nil _) (Or.inl rfl) (State.not_blank_of_next hst c _ hnext)
    rw [htext, hstart, hoptions] at htail
    rw [hprospect, List.append_cons]
    exact htail.take hc hnext
  | case6 st deferred s st' hm s' hs ih =>
    -- Only blanks are skipped.
    obtain ⟨c, -, hnext⟩ := codePoint_of_move hm
    cases State.shifts_of_next _ _ _ _ hnext with
    | skip _ hblank => exact absurd hblank hst
  | case8 st deferred s st' hm s' hs ih =>
    -- The dot goes from the front of what is to come to the back of what is deferred.
    obtain ⟨c, hc, hnext⟩ := codePoint_of_move hm
    have hframe := s.frame_step
    rw [hs, finalState_ok] at hframe
    obtain ⟨htext, hstart, hoptions⟩ := hframe
    have hmore := State.mayDefer_of_next hfew hnext
    rw [← List.length_singleton (a := s.current), ← List.length_append] at hmore
    have htail := ih (isDot_of_defer hdots hm) hmore (State.not_blank_of_next hst c _ hnext)
    rw [htext, hstart, hoptions, List.append_assoc] at htail
    rw [prospect_of_step (not_atEnd_of_move hm) hs]
    exact htail.defer hc hnext
  | case3 st deferred s p hm e s' hs | case5 st deferred s st' hm e s' hs =>
    -- Nothing can be decoded behind the lookahead.
    have hend := not_atEnd_of_move hm
    exact .failed (ending_of_take_error hend hs) (atEnd_of_step_error hs)
  | case7 st deferred s st' hm e s' hs | case9 st deferred s st' hm e s' hs =>
    exact .failed (ending_of_step_error (not_atEnd_of_move hm) hs) (atEnd_of_step_error hs)

/-- What comes of blanks: nothing of them is taken, and they are rejected only where the input
fails. -/
inductive Skims (s : Scanner) : EStateM.Result LexError Scanner Lexeme → Prop
  | accepted {l : Lexeme} {s' : Scanner} (kind : l.production = .blank) (text : s'.text = s.text)
    (spelled : l.text = s'.text) (position : l.position = s.start) : Skims s (.ok l s')
  | failed {e : LexError} {s' : Scanner} (ending : s.prospect.ending = .error e) :
    Skims s (.error e s')

/-- A run over blanks takes nothing of them. -/
theorem skims_run {st : State} (hst : st.Blank) (deferred : List Lookahead) (s : Scanner) :
    Skims s (run st deferred s) := by
  fun_induction run st deferred s with
  | case1 st deferred s hm =>
    obtain ⟨htext, -⟩ := s.frame_giveBack deferred
    unfold conclude
    rw [State.accepting_of_blank hst]
    exact .accepted rfl htext htext.symm rfl
  | case2 | case3 | case4 | case5 | case8 | case9 =>
    -- Among blanks the automaton does nothing but skip.
    obtain ⟨c, hc, hnext⟩ := codePoint_of_move ‹_›
    obtain ⟨st', hm, -⟩ := State.skips_of_blank hst hnext
    cases hm
  | case6 st deferred s st' hm t hs ih =>
    obtain ⟨c, hc, hnext⟩ := codePoint_of_move hm
    obtain ⟨st'', hskip, hst''⟩ := State.skips_of_blank hst hnext
    injection hskip with hskip
    have hframe := s.frame_step
    rw [hs, finalState_ok] at hframe
    obtain ⟨htext, hstart, -⟩ := hframe
    have htail := ih (hskip ▸ hst'')
    generalize run st' deferred t = result at htail
    cases htail with
    | accepted kind text spelled position =>
      exact .accepted kind (text.trans htext) spelled (position.trans hstart)
    | failed ending =>
      refine .failed ?_
      rw [prospect_of_step (not_atEnd_of_move hm) hs]
      exact ending
  | case7 st deferred s st' hm e s' hs =>
    exact .failed (ending_of_step_error (not_atEnd_of_move hm) hs)

/-! ## Tokens -/

/-- What becomes of the code points that are to come where `r` is asked for. A token that is
accepted takes a front of them, which its text spells, and which began where the scanner stood; of
blanks it spells nothing. When a token is rejected a front has been taken and the rest is still to
come; the error is that of a code point of the rest, or of its end, behind dots that were deferred.
Or else the input cannot be decoded where it ends. -/
def Conserves (r : Recognizer) (s : Scanner) : EStateM.Result LexError Scanner Lexeme → Prop
  | .ok l s' =>
    ∃ k ≤ s.prospect.lookaheads.length,
      s'.prospect = s.prospect.drop k ∧
      s'.text = Lookahead.spell s.options.encoding
        (s.prospect.lookaheads.take (if r = .blank then 0 else k)) ∧
      l.text = s'.text ∧ l.position = s.prospect.position
  | .error e s' =>
    (∃ j i, j ≤ i ∧ i ≤ s.prospect.lookaheads.length ∧
      s'.prospect = s.prospect.drop j ∧
      s'.text = Lookahead.spell s.options.encoding (s.prospect.lookaheads.take j) ∧
      (∀ l ∈ (s.prospect.lookaheads.take i).drop j, IsDot l) ∧
      (s.prospect.drop i).Rejects e) ∨
    s.prospect.ending = .error e ∧ e.fault.Decoding ∧ s'.atEnd

/-- Blanks take nothing, and leave an end of what was to come. -/
theorem conserves_blank (s : Scanner) : Conserves .blank s (recognize .blank s) := by
  have hskims : Skims s.clear (recognize .blank s) := skims_run (Or.inl rfl) [] s.clear
  have hleaves := s.leaves_recognize .blank
  cases h : recognize .blank s with
  | ok l s' =>
    rw [h] at hskims hleaves
    cases hskims with
    | accepted _ text spelled position =>
      cases hleaves with
      | accepted rest =>
        obtain ⟨⟨kept, hkept⟩, hending⟩ := rest
        refine ⟨kept.length, ?_, ?_, text.trans (Text.append_empty _ []), spelled,
          position.trans s.position_prospect.symm⟩
        · rw [← hkept, List.length_append]
          exact Nat.le_add_right _ _
        · rw [Prospect.drop, ← hkept, List.drop_left, ← hending]
  | error e s' =>
    rw [h] at hskims
    cases hskims with
    | failed ending =>
      rw [prospect_clear] at ending
      exact Or.inr ⟨ending, decoding_of_prospect ending, atEnd_of_blank_error h⟩

/-- What is consumed is a front of what was to come. -/
theorem Consumes.conserves {iri : Strictness} {st : State} {ds : List CodePoint} {r : Recognizer}
    {s : Scanner} {result : EStateM.Result LexError Scanner Lexeme} (hr : r ≠ .blank)
    (h : Consumes iri st ds s.prospect s.clear.text s.clear.start result) :
    Conserves r s result := by
  cases h with
  | accepted kept rest split left text spelled position =>
    refine ⟨kept.length, ?_, ?_, ?_, spelled, position.trans s.position_prospect.symm⟩
    · rw [split, List.length_append]
      exact Nat.le_add_right _ _
    · rw [Prospect.drop, split, List.drop_left, left]
    · rw [if_neg hr, split, List.take_left]
      exact text.trans (Text.append_empty _ _)
  | rejected kept dots rest split isDot few left text rejects =>
    have hsplit : s.prospect.lookaheads = kept ++ dots ++ rest := by
      rw [List.append_assoc]
      exact split
    refine Or.inl ⟨kept.length, (kept ++ dots).length, ?_, ?_, ?_, ?_, ?_, ?_⟩
    · rw [List.length_append]
      exact Nat.le_add_right _ _
    · rw [hsplit, @List.length_append _ (kept ++ dots)]
      exact Nat.le_add_right _ _
    · rw [Prospect.drop, split, List.drop_left, left]
    · rw [split, List.take_left]
      exact text.trans (Text.append_empty _ _)
    · rw [hsplit, List.take_left, List.drop_left]
      exact isDot
    · rw [Prospect.drop, hsplit, List.drop_left]
      exact rejects
  | failed ending hend => exact Or.inr ⟨ending, decoding_of_prospect ending, hend⟩

/-- What is not a run of blanks consumes its input. -/
theorem consumes_recognize {r : Recognizer} (hr : r ≠ .blank) (s : Scanner) :
    Consumes s.options.iri (.start r) [] s.prospect s.clear.text s.clear.start (recognize r s) := by
  have hst : (State.start r).family ≠ some .blank := by
    cases r <;> first | exact absurd rfl hr | decide
  have hrun := consumes_run (.start r) [] s.clear (List.forall_mem_nil _) (Or.inl rfl) hst
  rwa [prospect_clear] at hrun

/-- **A recognizer loses no code point, doubles none, and keeps them in order.** -/
theorem conserves_recognize (r : Recognizer) (s : Scanner) : Conserves r s (recognize r s) := by
  by_cases hr : r = .blank
  · subst hr
    exact s.conserves_blank
  · exact (consumes_recognize hr s).conserves hr

/-- **A recognizer loses no code point, reads none twice and moves none.** What a scanner has to
come is what it holds, and then what it has not decoded yet; reading a token conserves that. -/
theorem recognize_conserves (r : Recognizer) (s : Scanner) :
    s.prospect = s.decoder.prospect.behind s.queue ∧ Conserves r s (recognize r s) :=
  ⟨s.prospect_eq, conserves_recognize r s⟩

end Scanner

end RdfTurtle
