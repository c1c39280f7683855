import RdfTurtle.Proofs.Course
import RdfTurtle.Proofs.Recognition.Dots

/-! # The dot that ends a statement

Up to a dot, a line end behind it and the end of input only calm code points are to come. Whatever a
statement is made of there, each move stays before the dot or comes behind it.

* **`Scanner.Before`**, **`Scanner.Behind`** — scanners before the dot and behind it.
* **`Scanner.closes_recognize`** — reading a token stays before the dot, or reads or uses it up.
* **`Parser.Crosses`**, **`Parser.crosses_move`** — where a move leads from before the dot. -/

namespace RdfTurtle

namespace Scanner

/-! ## Before the dot and behind it -/

/-- Calm code points are to come, then a dot and a line end, and then the end of input. -/
def Before (s : Scanner) : Prop :=
  ∃ ls dot feed position, s.prospect = ⟨ls ++ [dot, feed], .ok position⟩ ∧
    (∀ l ∈ ls, ∃ c, l.codePoint? = some c ∧ c.Calm) ∧ IsDot dot ∧
    feed.codePoint? = some ('\n' : CodePoint)

/-- A line end is to come, and then the end of input. -/
def Behind (s : Scanner) : Prop :=
  ∃ feed position, s.prospect = ⟨[feed], .ok position⟩ ∧
    feed.codePoint? = some ('\n' : CodePoint)

/-- A dot is not calm. -/
theorem not_calm_dot : ¬ CodePoint.Calm '.' := fun h => h '.' List.mem_cons_self rfl

/-- A calm code point is next, and before the dot is where passing it leads, or the dot is next, and
behind it is where passing it leads. -/
theorem Before.onward {s : Scanner} (h : s.Before) :
    (∃ c s', s.current.codePoint? = some c ∧ c.Calm ∧ step s = .ok () s' ∧ s'.Before) ∨
      ∃ s', IsDot s.current ∧ step s = .ok () s' ∧ s'.Behind := by
  obtain ⟨ls, dot, feed, position, hprospect, hcalm, hdot, hfeed⟩ := h
  cases ls with
  | nil =>
    have hcurrent := (current_of_prospect hprospect).1
    obtain ⟨s', hs, hs'⟩ := step_of_prospect hprospect fun _ => ⟨position, rfl⟩
    exact Or.inr ⟨s', hcurrent ▸ hdot, hs, feed, position, hs', hfeed⟩
  | cons l ls =>
    have hcurrent := (current_of_prospect hprospect).1
    obtain ⟨s', hs, hs'⟩ := step_of_prospect hprospect fun _ => ⟨position, rfl⟩
    obtain ⟨⟨c, hl, hc⟩, hcalm⟩ := List.forall_mem_cons.1 hcalm
    exact Or.inl ⟨c, s', hcurrent ▸ hl, hc, hs, ls, dot, feed, position, hs', hcalm, hdot, hfeed⟩

/-- Passing a calm code point stays before the dot. -/
theorem Before.step_calm {s : Scanner} {c : CodePoint} (h : s.Before)
    (hcurrent : s.current.codePoint? = some c) (hc : c.Calm) :
    ∃ s', step s = .ok () s' ∧ s'.Before := by
  rcases h.onward with ⟨_, s', -, -, hs, hs'⟩ | ⟨s', hdot, -⟩
  · exact ⟨s', hs, hs'⟩
  · obtain rfl : c = '.' := Option.some.inj (hcurrent.symm.trans hdot)
    exact absurd hc not_calm_dot

/-- Passing the dot comes behind it. -/
theorem Before.step_dot {s : Scanner} (h : s.Before) (hdot : IsDot s.current) :
    ∃ s', step s = .ok () s' ∧ s'.Behind := by
  rcases h.onward with ⟨c, s', hcurrent, hc, -⟩ | ⟨s', -, hs, hs'⟩
  · obtain rfl : c = '.' := Option.some.inj (hcurrent.symm.trans hdot)
    exact absurd hc not_calm_dot
  · exact ⟨s', hs, hs'⟩

/-- Keeping lookaheads for later changes nothing of what is to come. -/
theorem Before.keep {s : Scanner} (h : s.Before) (ls : List Lookahead) : (s.keep ls).Before := by
  unfold Before
  rwa [prospect_keep]

/-- Nor does clearing the text of a token. -/
theorem Before.clear {s : Scanner} (h : s.Before) : s.clear.Before := by
  unfold Before
  rwa [prospect_clear]

/-- A dot that is given back is to come again. -/
theorem Behind.giveBack {s : Scanner} {dot : Lookahead} (h : s.Behind) (hdot : IsDot dot) :
    (s.giveBack [dot]).Before := by
  obtain ⟨feed, position, hprospect, hfeed⟩ := h
  refine ⟨[], dot, feed, position, ?_, List.forall_mem_nil _, hdot, hfeed⟩
  rw [prospect_giveBack s (by simpa using hdot), hprospect]
  rfl

/-- Behind the dot a line end is to come. -/
theorem Behind.not_atEnd {s : Scanner} (h : s.Behind) : ¬ s.atEnd := by
  obtain ⟨feed, position, hprospect, -⟩ := h
  exact (current_of_prospect hprospect).2

/-- Before the dot the input does not end. -/
theorem Before.not_atEnd {s : Scanner} (h : s.Before) : ¬ s.atEnd := by
  rcases h.onward with ⟨c, _, hcurrent, -⟩ | ⟨_, hcurrent, -⟩
  · rw [atEnd, hcurrent]
    exact Bool.false_ne_true
  · rw [atEnd, hcurrent]
    exact Bool.false_ne_true

/-- A scanner with a line end to come is not spent. -/
theorem not_spent_of_feed {s : Scanner} {feed : Lookahead} (hmem : feed ∈ s.prospect.lookaheads)
    (hfeed : feed.codePoint? = some ('\n' : CodePoint)) : ¬ s.Spent := by
  intro hspent
  have hdot := hspent.isDot_of_mem_prospect hmem
  rw [IsDot, hfeed] at hdot
  exact absurd hdot (by decide)

/-- Before the dot a scanner is not spent. -/
theorem Before.not_spent {s : Scanner} (h : s.Before) : ¬ s.Spent := by
  obtain ⟨ls, dot, feed, position, hprospect, -, -, hfeed⟩ := h
  refine not_spent_of_feed ?_ hfeed
  rw [hprospect]
  exact List.mem_append_right _ (List.mem_cons_of_mem _ List.mem_cons_self)

/-- Nor is it behind the dot. -/
theorem Behind.not_spent {s : Scanner} (h : s.Behind) : ¬ s.Spent := by
  obtain ⟨feed, position, hprospect, hfeed⟩ := h
  refine not_spent_of_feed ?_ hfeed
  rw [hprospect]
  exact List.mem_cons_self

/-- Moving past the next dot leads behind it. -/
theorem Before.skipPast {s : Scanner} (h : s.Before) :
    ∃ s', skipPast '.' s = .ok () s' ∧ s'.Behind := by
  obtain ⟨ls, dot, feed, position, hprospect, hcalm, hdot, hfeed⟩ := h
  have hpast : s.prospect.past '.' = ⟨[feed], .ok position⟩ := by
    have hpass : ∀ l ∈ ls, decide (l.codePoint? ≠ some ('.' : CodePoint)) = true := by
      intro l hl
      obtain ⟨c, hc, hcalm⟩ := hcalm l hl
      rw [hc, decide_eq_true_eq]
      exact fun h => not_calm_dot (Option.some.inj h ▸ hcalm)
    have hstop : decide (dot.codePoint? ≠ some ('.' : CodePoint)) = false := by
      rw [decide_eq_false_iff_not, not_not]
      exact hdot
    rw [hprospect, Prospect.past, List.dropWhile_append_of_pos hpass, List.dropWhile_cons, hstop]
    rfl
  obtain ⟨s', hs, hs'⟩ := skipPast_of_closed '.' ⟨position, by rw [hprospect]⟩
  exact ⟨s', hs, feed, position, hs'.trans hpast, hfeed⟩

/-! ## Tokens -/

/-- Where reading a token comes to from before the dot. It stays there or reads the dot as a token,
or it fails, and may have used up the dot then. -/
inductive Closes : EStateM.Result LexError Scanner Lexeme → Prop
  | token {l : Lexeme} {s : Scanner} (other : l.production ≠ .dot) (before : s.Before) :
    Closes (.ok l s)
  | dot {l : Lexeme} {s : Scanner} (dot : l.production = .dot) (behind : s.Behind) :
    Closes (.ok l s)
  | rejected {e : LexError} {s : Scanner} (recoverable : (DocumentError.lex e).recoverable = true)
    (before : s.Before) : Closes (.error e s)
  | lost {e : LexError} {s : Scanner} (recoverable : (DocumentError.lex e).recoverable = true)
    (behind : s.Behind) : Closes (.error e s)

/-- Parsing goes on after a code point that is not expected. -/
theorem recoverable_unexpected (s : Scanner) :
    (DocumentError.lex s.unexpected).recoverable = true := by
  unfold unexpected
  split <;> rfl

/-- Where a token ends without a dot deferred, the scanner stays before the dot. -/
theorem Before.conclude {s : Scanner} (h : s.Before) (st : State) : Closes (conclude st [] s) := by
  unfold Scanner.conclude
  split
  · exact .token (State.ne_dot_of_accepting ‹_›) h
  · exact .rejected s.recoverable_unexpected h

/-- What has begun ends behind the dot that was taken or deferred. -/
theorem Behind.closes_run {s : Scanner} {st : State} {deferred : List Lookahead} (h : s.Behind)
    (hstops : ∀ iri, st.next iri '\n' = none)
    (hdeferred : deferred = [] ∧ st.accepting = none ∨ ∃ dot, deferred = [dot] ∧ IsDot dot) :
    Closes (run st deferred s) := by
  have hm : s.move? st = none := by
    obtain ⟨feed, position, hprospect, hfeed⟩ := h
    rw [move?, (current_of_prospect hprospect).1, hfeed]
    exact hstops _
  rw [run_of_none hm]
  unfold Scanner.conclude
  rcases hdeferred with ⟨rfl, hincomplete⟩ | ⟨dot, rfl, hdot⟩
  · rw [hincomplete]
    exact .lost s.recoverable_unexpected h
  · split
    · exact .token (State.ne_dot_of_accepting ‹_›) (h.giveBack hdot)
    · exact .rejected s.recoverable_unexpected (h.giveBack hdot)

/-- A run that has come to the dot ends with it: the dot is a token, or what goes on with it ends at
the line end. -/
theorem Before.closes_dot {s : Scanner} {st : State} {m : Move} (h : s.Before) (hst : st.Calm)
    (hdot : IsDot s.current) (hm : s.move? st = some m) : Closes (run st [] s) := by
  obtain ⟨s₁, hs, hs₁⟩ := h.step_dot hdot
  obtain ⟨s₂, htake, hs₂⟩ := (h.keep ([] ++ [s.current])).step_dot hdot
  have htaken : take [] s = .ok () s₂ := htake
  have hnext : st.next s.options.iri '.' = some m := by rwa [move?, hdot] at hm
  cases State.stops_of_next hst m hnext with
  | finish =>
    rw [run_of_finish hm]
    simp only [bind, EStateM.bind, htaken]
    exact .dot rfl hs₂
  | take hstops hincomplete =>
    rw [run_of_take hm]
    simp only [bind, EStateM.bind, htaken]
    exact hs₂.closes_run hstops (Or.inl ⟨rfl, hincomplete⟩)
  | defer hstops =>
    rw [run_of_defer hm]
    simp only [bind, EStateM.bind, hs]
    exact hs₁.closes_run hstops (Or.inr ⟨s.current, rfl, hdot⟩)

/-- A run from before the dot comes to the dot in a state that is calm still. The induction is on
the input that is left. -/
theorem closes_run {s : Scanner} {st : State} (h : s.Before) (hst : st.Calm) :
    Closes (run st [] s) := by
  induction hn : s.size using Nat.strongRecOn generalizing s st with
  | ind n ih =>
    subst hn
    cases hm : s.move? st with
    | none =>
      rw [run_of_none hm]
      exact h.conclude st
    | some m =>
      rcases h.onward with ⟨c, s₁, hcurrent, hc, hs, hs₁⟩ | ⟨-, hdot, -⟩
      · obtain ⟨s₂, htake, hs₂⟩ := (h.keep ([] ++ [s.current])).step_calm hcurrent hc
        have htaken : take [] s = .ok () s₂ := htake
        have hnext : st.next s.options.iri c = some m := by rwa [move?, hcurrent] at hm
        -- A calm code point is never deferred.
        cases State.calms_of_next hst hc m hnext with
        | take hst' =>
          have hlt := size_of_take hm htaken
          rw [run_of_take hm]
          simp only [bind, EStateM.bind, htaken]
          exact ih _ hlt hs₂ hst' rfl
        | skip hst' =>
          have hlt := size_of_step hm hs
          rw [run_of_skip hm]
          simp only [bind, EStateM.bind, hs]
          exact ih _ hlt hs₁ hst' rfl
        | finish hp =>
          rw [run_of_finish hm]
          simp only [bind, EStateM.bind, htaken]
          exact .token hp hs₂
      · exact h.closes_dot hst hdot hm

/-- **Reading a token stays before the dot, or reads or uses it up.** -/
theorem closes_recognize {s : Scanner} (h : s.Before) (r : Recognizer) :
    Closes (recognize r s) := closes_run h.clear trivial

/-- A blank is no dot, and passing over blanks does not fail. -/
theorem blank_of_before {s : Scanner} (h : s.Before) :
    ∃ l s', recognize .blank s = .ok l s' ∧ s'.Before := by
  have hcloses := closes_recognize h .blank
  cases hr : recognize .blank s with
  | ok l s' =>
    rw [hr] at hcloses
    cases hcloses with
    | token _ before => exact ⟨l, s', rfl, before⟩
    | dot hdot =>
      obtain ⟨cs, -, hpath⟩ := path_of_recognize hr
      rw [hdot] at hpath
      cases State.family_of_path hpath rfl
  | error e s' =>
    have hend := atEnd_of_blank_error hr
    rw [hr] at hcloses
    cases hcloses with
    | rejected _ before => exact absurd hend before.not_atEnd
    | lost _ behind => exact absurd hend behind.not_atEnd

/-- No IRI reference begins before the dot. -/
theorem no_iriRef_of_before {s : Scanner} (h : s.Before) :
    ∃ e s', recognize .iriRef s = .error e s' ∧ s'.Before := by
  have hnone {c : CodePoint} (hc : c ≠ '<') (hcurrent : s.current.codePoint? = some c) :
      s.clear.move? (.start .iriRef) = none := by
    rw [move?, clear, hcurrent]
    exact if_neg hc
  have hm : s.clear.move? (.start .iriRef) = none := by
    rcases h.onward with ⟨c, _, hcurrent, hc, -⟩ | ⟨_, hcurrent, -⟩
    · exact hnone (hc '<' (by simp)) hcurrent
    · exact hnone (by decide) hcurrent
  rw [recognize, run_of_none hm]
  exact ⟨_, _, rfl, h.clear⟩

end Scanner

namespace Parser

variable {p q : Parser}

/-! ## Moves from before the dot -/

/-- No comment holds the dot, so that blanks before it end before it. -/
theorem skipBlank_of_before (hp : p.scanner.Before) :
    ∃ q, p.skipBlank = .ok () q ∧ q.scanner.Before := by
  obtain ⟨l, s, hr, hs⟩ := Scanner.blank_of_before hp
  refine ⟨{ p with scanner := s }, ?_, hs⟩
  unfold skipBlank
  rw [hr]

/-- A token before the dot is another one, or it is the dot. -/
theorem lex_of_before {r : Recognizer} {t : Token} (hp : p.scanner.Before)
    (h : p.lex r = .ok t q) :
    t.production ≠ .dot ∧ q.scanner.Before ∨ t.production = .dot ∧ q.scanner.Behind := by
  have hcloses := Scanner.closes_recognize hp r
  obtain ⟨l, scanner, hr, rfl, rfl⟩ := of_lex_ok h
  rw [hr] at hcloses
  cases hcloses with
  | token other before => exact Or.inl ⟨other, before⟩
  | dot dot behind => exact Or.inr ⟨dot, behind⟩

/-- A course from before the dot stays there, or ends with the dot. -/
theorem Course.closes {ts : List Token} (h : Course p ts q) (hp : p.scanner.Before) :
    ¬ Dotted ts ∧ q.scanner.Before ∨ Dotted ts ∧ q.scanner.Behind := by
  induction h with
  | done => exact Or.inl ⟨not_dotted_nil, hp⟩
  | blank h _ ih =>
    obtain ⟨p', hblank, hp'⟩ := skipBlank_of_before hp
    rw [hblank] at h
    injection h with _ h
    exact ih (h ▸ hp')
  | token h ht _ ih =>
    rw [dotted_cons ht]
    rcases lex_of_before hp h with ⟨-, hp'⟩ | ⟨hdot, -⟩
    · exact ih hp'
    · exact absurd hdot ht
  | dot h ht =>
    rcases lex_of_before hp h with ⟨hne, -⟩ | ⟨-, hq⟩
    · exact absurd ht hne
    · exact Or.inr ⟨dotted_singleton.2 ht, hq⟩

/-- Where no token can be read before the dot, the dot is to come still or is used up. -/
theorem Refuses.closes {e : DocumentError} (h : Refuses p e q) (hp : p.scanner.Before) :
    q.afterDot = false ∧ e.recoverable = true ∧ (q.scanner.Before ∨ q.scanner.Behind) := by
  rcases h with h | ⟨r, h⟩
  · obtain ⟨p', hblank, -⟩ := skipBlank_of_before hp
    rw [hblank] at h
    cases h
  · have hcloses := Scanner.closes_recognize hp r
    obtain ⟨fault, scanner, hr, rfl, rfl⟩ := of_lex_error h
    rw [hr] at hcloses
    cases hcloses with
    | rejected recoverable before => exact ⟨rfl, recoverable, Or.inl before⟩
    | lost recoverable behind => exact ⟨rfl, recoverable, Or.inr behind⟩

/-- The parsers know the same base and namespaces. -/
def Knows (p q : Parser) : Prop := q.base? = p.base? ∧ q.prefixes = p.prefixes

/-- What a parser knows it knows still after another step. -/
theorem Knows.trans {r : Parser} (h : Knows p q) (h' : Knows q r) : Knows p r :=
  ⟨h'.1.trans h.1, h'.2.trans h.2⟩

/-- Reading tokens forgets nothing. -/
theorem Course.knows {ts : List Token} (h : Course p ts q) : Knows p q := by
  rw [h.frame]
  exact ⟨rfl, rfl⟩

/-- Nor does failing to read one. -/
theorem Refuses.knows {e : DocumentError} (h : Refuses p e q) : Knows p q := by
  rcases h with h | ⟨r, h⟩
  · have hframe := p.frame_skipBlank
    rw [h, finalState_error] at hframe
    rw [hframe]
    exact ⟨rfl, rfl⟩
  · have hframe := p.frame_lex r
    rw [h, finalState_error] at hframe
    rw [hframe]
    exact ⟨rfl, rfl⟩

section

variable [IriLibrary]

/-- Nothing is declared before the dot, for lack of an IRI reference. -/
theorem readDeclared_of_before (dotted : Bool) (hp : p.scanner.Before) :
    ∃ e q, readDeclared dotted p = .error e q := by
  obtain ⟨p₁, hblank, hp₁⟩ := skipBlank_of_before hp
  obtain ⟨e, s, hr, -⟩ := Scanner.no_iriRef_of_before hp₁
  have hlex : p₁.lex .iriRef = .error (.lex e) { p₁ with scanner := s, afterDot := false } := by
    unfold lex
    rw [hr]
  simp only [readDeclared, lexAfterBlank, bind, EStateM.bind, hblank, hlex]
  exact ⟨_, _, rfl⟩

/-- So no base is declared there. -/
theorem readBase_of_before (dotted : Bool) (hp : p.scanner.Before) :
    ∃ e q, readBase dotted p = .error e q := by
  obtain ⟨e, q, h⟩ := readDeclared_of_before dotted hp
  simp only [readBase, bind, EStateM.bind, h]
  exact ⟨_, _, rfl⟩

/-- Nor is a namespace, even if its name can be read. -/
theorem readPrefix_of_before (dotted : Bool) (hp : p.scanner.Before) :
    ∃ e q, readPrefix dotted p = .error e q := by
  obtain ⟨p₁, hblank, hp₁⟩ := skipBlank_of_before hp
  simp only [readPrefix, lexAfterBlank, bind, EStateM.bind, hblank]
  cases hlex : p₁.lex .namespaceName with
  | error e q => exact ⟨e, q, rfl⟩
  | ok t p₂ =>
    rcases lex_of_before hp₁ hlex with ⟨-, hp₂⟩ | ⟨hdot, -⟩
    · obtain ⟨e, q, h⟩ := readDeclared_of_before dotted hp₂
      simp only [h]
      exact ⟨_, _, rfl⟩
    · exact absurd hdot (production_of_dotless dotless_namespaceName hlex)

end

/-- From `p` the action does not lead to another statement. -/
def Opens (p : Parser) (x : Action Unit) : Prop := ∀ q, x p = .ok () q → q.expected ≠ .statement

/-- What fails leads to no other statement. -/
theorem opens_of_error {x : Action Unit} (h : ∃ e q, x p = .error e q) : Opens p x := by
  obtain ⟨e, q, h⟩ := h
  intro q' hq'
  rw [h] at hq'
  cases hq'

/-- Nor does expecting more of the same statement. -/
theorem opens_expect {e : Expected} (he : e ≠ .statement) : Opens p (expect e) := by
  intro q h
  injection h with _ h
  exact h ▸ he

/-- A sequence leads to no other statement if its second part does not. -/
theorem opens_bind {α : Type} {x : Action α} {f : α → Action Unit}
    (hf : ∀ a p, Opens p (f a)) : Opens p (x >>= f) := by
  intro q h
  obtain ⟨a, p', -, h⟩ := ok_of_bind h
  exact hf a p' q h

section

variable [IriLibrary]

/-- No directive is complete before the dot: a statement goes on with a predicate. -/
theorem opens_readStatement (t : Token) (hp : p.scanner.Before) : Opens p (readStatement t) := by
  unfold readStatement
  split
  · exact opens_of_error (readBase_of_before true hp)
  · exact opens_of_error (readBase_of_before false hp)
  · exact opens_of_error (readPrefix_of_before true hp)
  · exact opens_of_error (readPrefix_of_before false hp)
  · exact opens_bind fun _ _ => opens_expect (by simp)
  · exact opens_bind fun _ _ => opens_expect (by simp)
  · exact opens_expect (by simp)
  · exact opens_of_error ⟨_, _, rfl⟩

/-- A move that begins a statement before the dot does not end it. -/
theorem expected_of_statement_before {o : Outcome} (hx : p.expected = .statement)
    (hp : p.scanner.Before) (hm : p.move = .ok o q) : q.expected ≠ .statement := by
  obtain ⟨p₁, hblank, hp₁⟩ := skipBlank_of_before hp
  have hbegin : p.move = p₁.beginStatement := by
    simp only [move, hx, moveStatement_eq, bind, EStateM.bind, hblank]
  rw [hbegin] at hm
  obtain ⟨_, _, hget, hm⟩ := ok_of_bind hm
  injection hget with h₁ h₂
  subst h₁ h₂
  rw [if_neg hp₁.not_atEnd] at hm
  obtain ⟨t, p₂, hlex, hm⟩ := ok_of_bind hm
  obtain ⟨_, p₃, hread, hm⟩ := ok_of_bind hm
  injection hm with _ hm
  subst hm
  rcases lex_of_before hp₁ hlex with ⟨-, hp₂⟩ | ⟨hdot, -⟩
  · exact opens_readStatement t hp₂ _ hread
  · simp only [readStatement, hdot] at hread
    cases hread

end

/-- Where a move leads from before the dot. It stays there or comes behind the dot, where a
statement begins. An error arises before the dot or behind it; the dot is used up if it was not read
as a token. -/
inductive Crosses (p : Parser) : EStateM.Result DocumentError Parser Outcome → Prop
  | stays {o : Outcome} {q : Parser} (goes : o ≠ .finished) (before : q.scanner.Before)
    (knows : Knows p q) : Crosses p (.ok o q)
  | closes {o : Outcome} {q : Parser} (goes : o ≠ .finished) (behind : q.scanner.Behind)
    (statement : q.expected = .statement) (knows : Knows p q) : Crosses p (.ok o q)
  | trips {e : DocumentError} {q : Parser} (recoverable : e.recoverable = true)
    (before : q.scanner.Before) (afterDot : q.afterDot = false) (knows : Knows p q) :
    Crosses p (.error e q)
  | ends {e : DocumentError} {q : Parser} (recoverable : e.recoverable = true)
    (behind : q.scanner.Behind) (afterDot : q.afterDot = true) (knows : Knows p q) :
    Crosses p (.error e q)
  | loses {e : DocumentError} {q : Parser} (recoverable : e.recoverable = true)
    (behind : q.scanner.Behind) (afterDot : q.afterDot = false) (knows : Knows p q) :
    Crosses p (.error e q)

/-- A move from before the dot does not use up the input. -/
theorem Crosses.not_spent {r : EStateM.Result DocumentError Parser Outcome} (h : Crosses p r) :
    ¬ (finalState r).scanner.Spent := by
  cases h with
  | stays _ before | trips _ before => exact before.not_spent
  | closes _ behind | ends _ behind | loses _ behind => exact behind.not_spent

/-- A trip from before the dot. -/
theorem Trips.crosses {ts : List Token} {e : DocumentError} (h : Trips p ts e q)
    (hp : p.scanner.Before) : Crosses p (.error e q) := by
  cases h with
  | thrown course some plain =>
    have hrecoverable := plain.recoverable
    have hafter := course.afterDot.2 some
    rcases course.closes hp with ⟨hts, hq⟩ | ⟨hts, hq⟩
    · exact .trips hrecoverable hq (Bool.not_eq_true _ ▸ mt hafter.1 hts) course.knows
    · exact .ends hrecoverable hq (hafter.2 hts) course.knows
  | refused course undotted refused =>
    rcases course.closes hp with ⟨-, hq⟩ | ⟨hts, -⟩
    · have hknows := course.knows.trans refused.knows
      obtain ⟨hafter, hrecoverable, hbefore | hbehind⟩ := refused.closes hq
      · exact .trips hrecoverable hbefore hafter hknows
      · exact .loses hrecoverable hbehind hafter hknows
    · exact absurd hts undotted

section

variable [IriLibrary]

/-- **Every move from before the dot stays there or comes behind the dot.** -/
theorem crosses_move (hx : p.expected ≠ .nothing) (hp : p.scanner.Before) :
    Crosses p p.move := by
  have hgoes {o : Outcome} {q : Parser} (hm : p.move = .ok o q) (hend : ¬ q.scanner.atEnd) :
      o ≠ .finished := by
    rintro rfl
    exact hend (atEnd_of_move_finished hx hm)
  rcases p.proceeds_move with hproceeds | ⟨p', -, ⟨hn, -⟩ | ⟨q, hblank, hend, -⟩⟩
  · cases hm : p.move with
    | ok o p' =>
      rw [hm] at hproceeds
      cases hproceeds with
      | @settles _ ts q _ course settled closed =>
        -- A declaration would have led from one statement to the next.
        have hknows : Knows p p' := by
          rcases settled.kept with hkept | ⟨hq, hp'⟩
          · exact course.knows.trans hkept
          · exact absurd hp'
              (expected_of_statement_before (course.expected.symm.trans hq) hp hm)
        rcases course.closes hp with ⟨-, hq⟩ | ⟨hts, hq⟩
        · have hbefore : p'.scanner.Before := settled.scanner ▸ hq
          exact .stays (hgoes hm hbefore.not_atEnd) hbefore hknows
        · have hbehind : p'.scanner.Behind := settled.scanner ▸ hq
          exact .closes (hgoes hm hbehind.not_atEnd) hbehind (closed hts) hknows
    | error e q =>
      rw [hm] at hproceeds
      cases hproceeds with
      | trips trip => exact trip.crosses hp
  · exact absurd hn hx
  -- Behind blanks the dot is still to come.
  · obtain ⟨q', hblank', hq'⟩ := skipBlank_of_before hp
    rw [hblank] at hblank'
    injection hblank' with _ hsame
    exact absurd hend (hsame ▸ hq'.not_atEnd)

end

end Parser

end RdfTurtle
