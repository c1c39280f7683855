import RdfTurtle.Proofs.Boundary
import RdfTurtle.Proofs.Reaching

/-! # Blanks before a statement

A statement begins behind the blanks and comments before it. What a parser yields from there on is
decided by what comes behind them, by its declarations and by its settings, whatever it has read.

* **`Prospect.unblank`** — what is to come behind blanks and comments.
* **`Scanner.unblanks_recognize`** — passing over blanks leaves just that.
* **`Yield`** — what comes of parsing: the items, and the declarations at the end.
* **`Parser.alike_yield`** — parsers with alike prospects behind blanks yield alike. -/

namespace RdfTurtle

namespace State

/-- How an IRI reference is checked does not matter among blanks. -/
theorem next_of_blank {st : State} (h : st.Blank) (iri iri' : Strictness) (c : CodePoint) :
    st.next iri c = st.next iri' c := by
  rcases h with rfl | rfl <;> rfl

/-- A line feed ends a comment, and is a blank. -/
theorem next_lineFeed {st : State} (h : st.Blank) (iri : Strictness) :
    st.next iri '\n' = some (.skip (.start .blank)) := by
  have hblank : ('\n' : CodePoint) ∈ CharClass.blank := by decide +kernel
  have hend : ('\n' : CodePoint) ∈ CharClass.lineEnd := by decide +kernel
  rcases h with rfl | rfl
  · exact if_pos hblank
  · exact congrArg (fun st => some (Move.skip st)) (if_pos hend)

end State

/-! ## Prospects without blanks -/

/-- What is left of lookaheads behind the blanks and comments that they begin with, from a state
among blanks. -/
def behindBlanks (st : State) : List Lookahead → List Lookahead
  | [] => []
  | l :: ls =>
    match l.codePoint?.bind (st.next .strict) with
    | some (.skip st') => behindBlanks st' ls
    | _ => l :: ls

section Lists

variable {st : State} {l : Lookahead} {ls ls' : List Lookahead}

/-- What is skipped is a blank. -/
theorem behindBlanks_of_skip {st' : State} {c : CodePoint} (hc : l.codePoint? = some c)
    (h : st.next .strict c = some (.skip st')) :
    behindBlanks st (l :: ls) = behindBlanks st' ls := by
  simp only [behindBlanks, hc, Option.bind_some, h]

/-- What has no move is none. -/
theorem behindBlanks_of_none (h : ∀ c, l.codePoint? = some c → st.next .strict c = none) :
    behindBlanks st (l :: ls) = l :: ls := by
  have hnone : l.codePoint?.bind (st.next .strict) = none := by
    cases hc : l.codePoint? with
    | none => rfl
    | some c => exact h c hc
  simp only [behindBlanks, hnone]

/-- The last of the lookaheads is a line feed. -/
def EndsInFeed (ls : List Lookahead) : Prop :=
  ∃ feed, ls.getLast? = some feed ∧ feed.codePoint? = some ('\n' : CodePoint)

/-- The last one is the last of what is left. -/
theorem EndsInFeed.of_suffix (h : EndsInFeed ls) (hsuffix : ls' <:+ ls) (hne : ls' ≠ []) :
    EndsInFeed ls' := by
  obtain ⟨before, rfl⟩ := hsuffix
  rwa [EndsInFeed, List.getLast?_append_of_ne_nil _ hne] at h

/-- Blanks that end with a line feed do not matter to what comes behind them. -/
theorem behindBlanks_append (hst : st.Blank) (h : behindBlanks st ls = [])
    (hlast : EndsInFeed ls) (more : List Lookahead) :
    behindBlanks st (ls ++ more) = behindBlanks (.start .blank) more := by
  induction ls generalizing st with
  | nil =>
    obtain ⟨feed, hfeed, -⟩ := hlast
    cases hfeed
  | cons l ls ih =>
    -- The first one is a blank, since nothing is left behind the blanks.
    obtain ⟨c, hc, m, hm⟩ : ∃ c, l.codePoint? = some c ∧ ∃ m, st.next .strict c = some m := by
      by_contra hnone
      rw [behindBlanks_of_none fun c hc => ?_] at h
      · cases h
      · by_contra hsome
        obtain ⟨m, hm⟩ := Option.ne_none_iff_exists'.1 hsome
        exact hnone ⟨c, hc, m, hm⟩
    obtain ⟨st', rfl, hst'⟩ := State.skips_of_blank hst hm
    rw [behindBlanks_of_skip hc hm] at h
    rw [List.cons_append, behindBlanks_of_skip hc hm]
    by_cases hls : ls = []
    -- Behind the line feed no comment goes on.
    · subst hls
      obtain ⟨feed, hfeed, hcode⟩ := hlast
      obtain rfl : l = feed := Option.some.inj hfeed
      obtain rfl : c = '\n' := Option.some.inj (hc.symm.trans hcode)
      rw [State.next_lineFeed hst] at hm
      injection hm with hm
      injection hm with hm
      rw [← hm, List.nil_append]
    · exact ih hst' h (hlast.of_suffix (List.suffix_cons _ _) hls)

/-- Blanks are the same in alike lookaheads. -/
theorem alike_behindBlanks {k : Likeness} (st : State) (h : List.Forall₂ k.Lookaheads ls ls') :
    List.Forall₂ k.Lookaheads (behindBlanks st ls) (behindBlanks st ls') := by
  induction h generalizing st with
  | nil => exact .nil
  | @cons l l' ls ls' hl hls ih =>
    rw [behindBlanks, behindBlanks, ← hl.codePoint]
    split
    · exact ih _
    · exact .cons hl hls

end Lists

/-- What is to come behind blanks and comments. -/
def Prospect.unblank (p : Prospect) : Prospect :=
  ⟨behindBlanks (.start .blank) p.lookaheads, p.ending⟩

/-- What is to come behind blanks is alike if the whole is. -/
theorem Prospect.Alike.unblank {k : Likeness} {p p' : Prospect} (h : p.Alike k p') :
    p.unblank.Alike k p'.unblank := ⟨alike_behindBlanks _ h.lookaheads, h.ending⟩

/-- What is alike to nothing but a failure is such. -/
theorem Prospect.Alike.of_error_left {k : Likeness} {p : Prospect} {e : LexError}
    (h : Prospect.Alike k ⟨[], .error e⟩ p) : ∃ e', p = ⟨[], .error e'⟩ ∧ k.LexErrors e e' := by
  obtain ⟨lookaheads, ending⟩ := p
  obtain ⟨hlookaheads, hending⟩ := h
  cases hlookaheads
  cases hending with
  | error he => exact ⟨_, rfl, he⟩

/-- Where nothing but a failure is to come, an alike failure is all that is to come. -/
theorem Prospect.Alike.of_error_right {k : Likeness} {p : Prospect} {e : LexError}
    (h : Prospect.Alike k p ⟨[], .error e⟩) : ∃ e', p = ⟨[], .error e'⟩ ∧ k.LexErrors e' e := by
  obtain ⟨lookaheads, ending⟩ := p
  obtain ⟨hlookaheads, hending⟩ := h
  cases hlookaheads
  cases hending with
  | error he => exact ⟨_, rfl, he⟩

namespace Scanner

/-- What passing over blanks comes to: the scanner has `behind` to come, unless that is a failure to
decode, which is met on the way. -/
inductive Unblanks (behind : Prospect) : EStateM.Result LexError Scanner Lexeme → Prop
  | passed {l : Lexeme} {s' : Scanner} (rest : s'.prospect = behind) : Unblanks behind (.ok l s')
  | failed {e : LexError} {s' : Scanner} (rest : behind = ⟨[], .error e⟩) (hend : s'.atEnd) :
    Unblanks behind (.error e s')

/-- A run among blanks leaves what is behind them. -/
theorem unblanks_run {st : State} (hst : st.Blank) (s : Scanner) :
    Unblanks ⟨behindBlanks st s.prospect.lookaheads, s.prospect.ending⟩ (run st [] s) := by
  induction hn : s.size using Nat.strongRecOn generalizing st s with
  | ind n ih =>
    subst hn
    cases hm : s.move? st with
    | none =>
      rw [run_of_none hm, conclude, State.accepting_of_blank hst]
      refine .passed ?_
      show s.prospect = ⟨behindBlanks st s.prospect.lookaheads, s.prospect.ending⟩
      by_cases hend : s.atEnd
      · rw [prospect_of_atEnd hend]
        rfl
      · obtain ⟨ls, hls⟩ := lookaheads_of_not_atEnd hend
        have hkept : behindBlanks st s.prospect.lookaheads = s.prospect.lookaheads := by
          rw [hls]
          refine behindBlanks_of_none fun c hc => ?_
          rw [move?, hc] at hm
          rwa [State.next_of_blank hst _ s.options.iri]
        rw [hkept]
    -- Every move among blanks skips, so that the prospect loses the code point it is made for.
    | some m =>
      obtain ⟨c, hc, hnext⟩ := codePoint_of_move hm
      obtain ⟨st', rfl, hst'⟩ := State.skips_of_blank hst hnext
      rw [State.next_of_blank hst _ .strict] at hnext
      have hend := not_atEnd_of_move hm
      rw [run_of_skip hm]
      simp only [bind, EStateM.bind]
      cases hs : s.step with
      | ok u t =>
        rw [prospect_of_step hend hs]
        dsimp only
        rw [behindBlanks_of_skip hc hnext]
        exact ih _ (size_of_step hm hs) hst' t rfl
      | error e t =>
        rw [prospect_of_step_error hend hs]
        dsimp only
        rw [behindBlanks_of_skip hc hnext]
        exact .failed rfl (atEnd_of_step_error hs)

/-- **Passing over blanks leaves what is behind them.** -/
theorem unblanks_recognize (s : Scanner) : Unblanks s.prospect.unblank (recognize .blank s) := by
  have hrun := unblanks_run (Or.inl rfl) s.clear
  rwa [prospect_clear] at hrun

end Scanner

variable [IriLibrary]

/-! ## What a parser yields -/

/-- What comes of parsing: the items, and what is declared at the end. -/
structure Yield where
  items : List Item
  base? : Option Iri
  prefixes : PrefixMap
  deriving DecidableEq

/-- Alike items and the same declarations. -/
structure Likeness.Yields (k : Likeness) (y y' : Yield) : Prop where
  items : List.Forall₂ k.Items y.items y'.items
  base : y.base? = y'.base?
  prefixes : y.prefixes = y'.prefixes

namespace Parser

/-- What comes of the rest of the document. -/
def yield (p : Parser) : Yield := ⟨p.items, p.finish.base?, p.finish.prefixes⟩

end Parser

namespace Comparison

variable {c : Comparison}

section Total

variable (hnever : ∀ o, ¬ c.Parts o) (hrecover : ∀ ⦃b b'⦄, c.Recoveries b b' → b = b')

include hnever hrecover

/-- Parsers whose next items are alike correspond at the end. The induction is the recursion of the
first of them. -/
theorem parsers_finish {p p' : Parser}
    (h : Option.Rel c.Items p.next.1 p'.next.1 ∧ c.Parsers p.next.2 p'.next.2) :
    c.Parsers p.finish p'.finish := by
  fun_induction Parser.finish p generalizing p' with
  | case1 p i q hn ih =>
    obtain ⟨i', q', hn', -, hparser⟩ := exists_next_of_some hn h
    rw [Parser.finish_of_next hn']
    exact ih (alike_next hnever hrecover hparser)
  | case2 p q hn =>
    obtain ⟨q', hn', hparser⟩ := exists_next_of_none hn h
    rw [Parser.finish_of_next_none hn']
    exact hparser

/-- Parsers with alike pursuits yield alike. -/
theorem alike_yield_of_pursue {p p' : Parser}
    (h : Alike c.DocumentErrors c.Parsers Eq p.pursue p'.pursue) : c.Yields p.yield p'.yield := by
  have hnext := alike_next_of_pursue hnever hrecover h
  have hfinish := parsers_finish hnever hrecover hnext
  exact ⟨alike_items_of_next hnever hrecover hnext, hfinish.base, hfinish.prefixes⟩

end Total

end Comparison

namespace Parser

variable {p p' q : Parser} {s s' : Scanner} {e : LexError} {position : Position}

/-! ## The beginning of a statement -/

omit [IriLibrary] in
/-- Passing over blanks leaves what is behind them. -/
theorem skipBlank_cases (p : Parser) :
    (∃ s, p.skipBlank = .ok () { p with scanner := s } ∧
        s.prospect = p.scanner.prospect.unblank) ∨
      ∃ e s, p.skipBlank = .error (.lex e) { p with scanner := s } ∧
        p.scanner.prospect.unblank = ⟨[], .error e⟩ ∧ s.atEnd := by
  have hunblanks := p.scanner.unblanks_recognize
  unfold skipBlank
  cases hs : p.scanner.recognize .blank with
  | ok l s =>
    rw [hs] at hunblanks
    cases hunblanks with
    | passed rest => exact Or.inl ⟨s, rfl, rest⟩
  | error e s =>
    rw [hs] at hunblanks
    cases hunblanks with
    | failed rest hend => exact Or.inr ⟨e, s, rfl, rest, hend⟩

omit [IriLibrary] in
/-- A parser that recovers forgets nothing that was declared. -/
theorem knows_afterError (q : Parser) (e : DocumentError) : Knows q (q.afterError e) := by
  generalize hafter : q.afterError e = q'
  cases recovered_of_afterError hafter <;> exact ⟨rfl, rfl⟩

/-- Behind blanks that end the input nothing is yielded. -/
theorem yield_of_unblank_nil (hx : p.expected = .statement)
    (h : p.scanner.prospect.unblank = ⟨[], .ok position⟩) :
    p.yield = ⟨[], p.base?, p.prefixes⟩ := by
  rcases p.skipBlank_cases with ⟨s, hblank, hs⟩ | ⟨e, s, -, hs, -⟩
  · have hend : s.atEnd := (Scanner.atEnd_of_prospect (hs.trans h)).1
    have hpursue := pursue_of_skipBlank hx hblank hend
    rw [yield, items_of_pursue_none hpursue, finish_of_next_none (next_of_pursue_none hpursue)]
  · rw [h] at hs
    cases hs

/-- So it is at the end. -/
theorem yield_of_atEnd (hend : p.scanner.atEnd)
    (hx : p.expected = .statement ∨ p.expected = .nothing) :
    p.yield = ⟨[], p.base?, p.prefixes⟩ := by
  rcases hx with hx | hx
  · have hnil : p.scanner.prospect.unblank = ⟨[], .ok p.scanner.current.position⟩ := by
      rw [Scanner.prospect_of_atEnd hend]
      rfl
    exact yield_of_unblank_nil hx hnil
  · have hpursue := pursue_of_nothing hx
    rw [yield, items_of_pursue_none hpursue, finish_of_next_none (next_of_pursue_none hpursue)]

/-- Behind blanks at which decoding fails the failure is yielded. -/
theorem yield_of_unblank_error (hx : p.expected = .statement)
    (h : p.scanner.prospect.unblank = ⟨[], .error e⟩) :
    p.yield = ⟨[.error (.lex e)], p.base?, p.prefixes⟩ := by
  rcases p.skipBlank_cases with ⟨s, hblank, hs⟩ | ⟨e', s, hblank, hs, hend⟩
  · cases (Scanner.atEnd_of_prospect (hs.trans h)).2
  · obtain rfl : e = e' := by
      rw [h] at hs
      injection hs with _ hs
      injection hs
    have hmove : p.move = .error (.lex e) { p with scanner := s } := by
      rw [move_of_statement hx]
      simp only [moveStatement, bind, EStateM.bind, hblank]
    have hpursue := pursue_of_error hmove
    -- The input has ended, so that nothing more is yielded.
    generalize hq : ({ p with scanner := s } : Parser) = q at hpursue
    have hknows : Knows p (q.afterError (.lex e)) := by
      subst hq
      exact Knows.trans ⟨rfl, rfl⟩ (knows_afterError _ _)
    have hended : q.scanner.atEnd := hq ▸ hend
    have hafter := yield_of_atEnd (atEnd_afterError hended (.lex e)) (expected_afterError q _)
    rw [yield, items_of_pursue_error hpursue, finish_of_next (next_of_pursue_error hpursue)]
    injection hafter with hitems hbase hprefixes
    rw [hitems, hbase, hprefixes, hknows.1, hknows.2]

/-- Before a token a statement begins, whatever was read before. -/
theorem move_of_unblank (hx : p.expected = .statement)
    (hblank : p.skipBlank = .ok () { p with scanner := s }) (hend : ¬ s.atEnd) :
    p.move = beginStatement { p with scanner := s.clear, afterDot := false } := by
  rw [move_of_statement hx, moveStatement_eq]
  simp only [bind, EStateM.bind, hblank]
  simp only [beginStatement, bind, EStateM.bind]
  simp only [get_apply]
  rw [if_neg hend, if_neg (show ¬ s.clear.atEnd from hend)]
  rfl

omit [IriLibrary] in
/-- Behind alike blanks corresponding statements begin. -/
theorem parsers_begun {k : Likeness} (total : ∀ p, ∃ p', k.Positions p p') (texts : k.Texts = Eq)
    (hx : p.expected = p'.expected) (hprospect : s.prospect.Alike k s'.prospect)
    (hbase : p.base? = p'.base?) (hprefixes : p.prefixes = p'.prefixes)
    (hrecover : p.recover = p'.recover) (hoptions : s.options = s'.options) :
    (Comparison.ofProspects k Eq total texts).Parsers
      { p with scanner := s.clear, afterDot := false }
      { p' with scanner := s'.clear, afterDot := false } := by
  have hempty : k.Texts (.empty s.options.encoding) (.empty s'.options.encoding) := by
    rw [texts, hoptions]
  have hinput : s.clear.prospect.Alike k s'.clear.prospect := by
    rwa [Scanner.prospect_clear, Scanner.prospect_clear]
  exact ⟨⟨hinput, hempty, (Likeness.lookaheads_current hprospect).position,
    congrArg Options.iri hoptions, hempty⟩, hbase, hprefixes, hx, hrecover, rfl⟩

/-- **What stands behind the blanks before a statement decides what is yielded**, with the
declarations and the settings. -/
theorem alike_yield {k : Likeness} (total : ∀ p, ∃ p', k.Positions p p') (texts : k.Texts = Eq)
    (hx : p.expected = .statement) (hx' : p'.expected = .statement)
    (hprospect : p.scanner.prospect.unblank.Alike k p'.scanner.prospect.unblank)
    (hbase : p.base? = p'.base?) (hprefixes : p.prefixes = p'.prefixes)
    (hsettings : p.settings = p'.settings) : k.Yields p.yield p'.yield := by
  have hblank := p.settings_skipBlank
  have hblank' := p'.settings_skipBlank
  -- Both pass over their blanks, and end there or begin a statement; or neither can.
  rcases p.skipBlank_cases with ⟨s, hskip, hs⟩ | ⟨e, s, -, hs, -⟩
  · rw [← hs] at hprospect
    rcases p'.skipBlank_cases with ⟨s', hskip', hs'⟩ | ⟨e', s', -, hs', -⟩
    · rw [← hs'] at hprospect
      by_cases hend : s.atEnd
      · have hend' := (Likeness.atEnd_of_prospects hprospect).1 hend
        rw [Scanner.prospect_of_atEnd hend] at hs
        rw [Scanner.prospect_of_atEnd hend'] at hs'
        rw [yield_of_unblank_nil hx hs.symm, yield_of_unblank_nil hx' hs'.symm]
        exact ⟨.nil, hbase, hprefixes⟩
      · have hend' := mt (Likeness.atEnd_of_prospects hprospect).2 hend
        rw [hskip] at hblank
        rw [hskip'] at hblank'
        obtain ⟨hoptions, hrecover⟩ := Prod.mk.inj (hblank.trans (hsettings.trans hblank'.symm))
        have hparsers := parsers_begun total texts (hx.trans hx'.symm) hprospect hbase hprefixes
          hrecover hoptions
        refine Comparison.alike_yield_of_pursue (c := .ofProspects k Eq total texts) (fun _ => id)
          (fun _ _ => id) ?_
        rw [pursue_eq, pursue_eq]
        simp only [bind, EStateM.bind]
        rw [move_of_unblank hx hskip hend, move_of_unblank hx' hskip' hend']
        apply ((Comparison.follows_begin.alike hparsers).resolve fun _ => id).bind
        rintro o _ _ _ - rfl h
        exact ((Comparison.follows_goOn o).alike h).resolve fun _ => id
    -- A scanner never stands before nothing but a failure.
    · rw [hs'] at hprospect
      obtain ⟨e, he, -⟩ := hprospect.of_error_right
      cases (Scanner.atEnd_of_prospect he).2
  · rw [hs] at hprospect
    obtain ⟨e', hs', he⟩ := hprospect.of_error_left
    rw [yield_of_unblank_error hx hs, yield_of_unblank_error hx' hs']
    exact ⟨.cons (.error (.lex he)) .nil, hbase, hprefixes⟩

end Parser

end RdfTurtle
